import OwnScript.Proofs.Host.Accounting
import OwnScript.Proofs.Machine.Cells

/-!
Open cells as an index of the captured slots. A machine lists exactly the open cells of its heap, from the highest
slot down and one for each slot, so all closures that capture a slot share its cell. Capturing a slot finds its cell
or makes one; closing cells takes out those of a slot and above, and what is seen through them stays the same. Main
statement: this holds whenever a machine serves a host, in the middle of instructions too.
-/

namespace OwnScript

open Stateful

namespace Machine

/-- The list of open cells is strictly descending in the slots, and it lists exactly the open cells of the heap. -/
structure Indexed (m : Machine) : Prop where
  descending : m.openCells.Pairwise fun first second => second.slot < first.slot
  listed : ∀ slot cell, ⟨slot, cell⟩ ∈ m.openCells ↔ m.heap.get? cell = some (.upvalue (.opened slot))

/-- What is seen through a cell: its slot of the stack while the cell is open, and the value that it holds
afterwards. -/
def seenThrough (m : Machine) (cell : Ref) : Option Value :=
  match m.heap.get? cell with
  | some (.upvalue (.opened slot)) => m.stack[slot]?
  | some (.upvalue (.closed value)) => some value
  | _ => none

/-- What comes of capturing a slot: its cell is shared if it has one, and otherwise a new cell is listed for it,
unless the heap is full. -/
inductive Captured (slot : Nat) (m : Machine) : EStateM.Result Fault Machine Ref → Prop where
  | shared {cell : Ref} : ⟨slot, cell⟩ ∈ m.openCells → Captured slot m (.ok cell m)
  | opened {cell : Ref} {after : Machine} : slot ∉ m.openSlots → cell ∉ m.heap.refs → after.Indexed →
      (∀ entry, entry ∈ after.openCells ↔ entry = ⟨slot, cell⟩ ∨ entry ∈ m.openCells) → Captured slot m (.ok cell after)
  | full {fault : Fault} {after : Machine} : slot ∉ m.openSlots → after.Indexed → after.openCells = m.openCells →
      Captured slot m (.error fault after)

/-- What comes of closing the cells of a slot and of those above it: exactly these cells are closed, nothing else
changes, and every cell whose slot is on the stack shows the same value as before. -/
structure Closes (slot : Nat) (m after : Machine) : Prop where
  rest : after = { m with heap := after.heap, openCells := after.openCells }
  indexed : after.Indexed
  remaining : after.openCells = m.openCells.filter fun entry => entry.slot < slot
  closed : ∀ entry ∈ m.openCells, slot ≤ entry.slot → after.IsClosed entry.cell
  others : ∀ ref, (∀ entry ∈ m.openCells, slot ≤ entry.slot → ref ≠ entry.cell) → after.heap.get? ref = m.heap.get? ref
  seen : ∀ entry ∈ m.openCells, entry.slot < m.stack.size → after.seenThrough entry.cell = m.seenThrough entry.cell

/-- A listed cell holds the value of its own slot at the end. -/
theorem get?_foldl_close_slot {closing : List OpenCell} (value : Nat → Value) {heap : Heap} {entry : OpenCell}
    (hentry : entry ∈ closing) (hown : ∀ other ∈ closing, other.cell = entry.cell → other.slot = entry.slot)
    (hthere : entry.cell ∈ heap.refs) :
    (closing.foldl (fun heap entry => heap.update entry.cell (.upvalue (.closed (value entry.slot)))) heap).get?
      entry.cell = some (.upvalue (.closed (value entry.slot))) := by
  induction closing generalizing heap with
  | nil => cases hentry
  | cons first rest ih =>
    rw [List.foldl_cons]
    by_cases hrest : ∃ other ∈ rest, other.cell = entry.cell
    · obtain ⟨other, hother, hcell⟩ := hrest
      have hslot := hown other (List.mem_cons_of_mem _ hother) hcell
      obtain rfl : other = entry := by
        cases other
        cases entry
        simp_all
      exact ih hother (fun next hnext => hown next (List.mem_cons_of_mem _ hnext)) (by rwa [Heap.refs_update])
    · obtain rfl : entry = first := (List.mem_cons.mp hentry).resolve_right fun hmem => hrest ⟨entry, hmem, rfl⟩
      obtain ⟨object, hobject⟩ := Heap.mem_refs.mp hthere
      rw [get?_foldl_close fun other hother hcell => hrest ⟨other, hother, hcell.symm⟩, Heap.get?_update,
        if_pos rfl, hobject]
      rfl

variable {asked : Nat → Prop} {m after : Machine} {slot : Nat}

namespace Indexed

theorem openCellsSound (hindexed : m.Indexed) : OpenCellsSound m.heap m.openCells :=
  ⟨hindexed.descending, fun entry hentry => (hindexed.listed entry.slot entry.cell).mp hentry⟩

/-- There is one open cell for a slot. -/
theorem cell_eq (hindexed : m.Indexed) {first second : Ref}
    (hfirst : m.heap.get? first = some (.upvalue (.opened slot)))
    (hsecond : m.heap.get? second = some (.upvalue (.opened slot))) : first = second := by
  have hsame := hindexed.openCellsSound.eq_of_slot ((hindexed.listed slot first).mpr hfirst)
    ((hindexed.listed slot second).mpr hsecond) rfl
  exact congrArg OpenCell.cell hsame

/-- The list stays as it is, and so do the open cells of the heap. -/
theorem of_same (hindexed : m.Indexed) (hcells : after.openCells = m.openCells)
    (hopen : ∀ slot cell, after.heap.get? cell = some (.upvalue (.opened slot)) ↔
      m.heap.get? cell = some (.upvalue (.opened slot))) : after.Indexed where
  descending := hcells ▸ hindexed.descending
  listed slot cell := by rw [hcells, hindexed.listed, hopen]

theorem of_eq (hindexed : m.Indexed) (hheap : after.heap = m.heap) (hcells : after.openCells = m.openCells) :
    after.Indexed :=
  hindexed.of_same hcells fun _ _ => by rw [hheap]

/-- A new object that is no open cell is not listed. -/
theorem link (hindexed : m.Indexed) (hbounded : m.heap.Bounded) {object : Object}
    (hobject : ∀ slot, object ≠ .upvalue (.opened slot)) : Indexed { m with heap := m.heap.link object } := by
  refine hindexed.of_same rfl fun slot cell => ?_
  rw [Heap.get?_link]
  split
  · rename_i hnew
    rw [hnew, hbounded.get?_nextRef]
    simp [hobject slot]
  · rfl

/-- An object that is no open cell gives way to another that is none either. -/
theorem replace (hindexed : m.Indexed) {heap : Heap} {target : Ref} {old new : Object}
    (hold : m.heap.get? target = some old)
    (hget : ∀ ref, heap.get? ref = if ref = target then (m.heap.get? ref).map (fun _ => new) else m.heap.get? ref)
    (hbefore : ∀ slot, old ≠ .upvalue (.opened slot)) (hafter : ∀ slot, new ≠ .upvalue (.opened slot)) :
    Indexed { m with heap } := by
  refine hindexed.of_same rfl fun slot cell => ?_
  rw [hget]
  split
  · rename_i hcell
    rw [hcell, hold]
    simp [hbefore slot, hafter slot]
  · rfl

theorem capturing (hindexed : m.Indexed) (hbounded : m.heap.Bounded) {parked : Heap} (halike : Heap.Alike m.heap parked)
    (hslot : slot ∉ m.openSlots) : (m.capturing parked slot).Indexed where
  descending := (openCellsSound_capturing hindexed.openCellsSound hbounded halike hslot).descending
  listed other cell := by
    rw [get?_capturing halike, Machine.capturing, mem_insertCell]
    split
    · rename_i hcell
      subst hcell
      have hnot : ⟨other, m.heap.nextRef⟩ ∉ m.openCells := by
        rw [hindexed.listed, hbounded.get?_nextRef]
        intro hnone
        cases hnone
      simp [hnot, eq_comm]
    · rename_i hcell
      rw [← hindexed.listed]
      simp [hcell]

/-- A collection keeps the listed cells, which are among its roots. -/
theorem collectGarbage (hindexed : m.Indexed) (hidle : m.heap.Idle) : m.collectGarbage.Indexed where
  descending := hindexed.descending
  listed slot cell := by
    have hcollected := Heap.collect_spec hidle m.roots
    change ⟨slot, cell⟩ ∈ m.openCells ↔ (m.heap.collect m.roots).1.get? cell = _
    rw [hindexed.listed]
    constructor
    · intro hopened
      have hroot : Value.ofRef cell ∈ m.roots := cell_mem_roots ((hindexed.listed slot cell).mpr hopened)
      rw [hcollected.reached cell (.root hroot rfl)]
      exact hopened
    · intro hopened
      by_cases hreach : m.heap.Reachable m.roots cell
      · rwa [← hcollected.reached cell hreach]
      · rw [hcollected.lost cell hreach] at hopened
        cases hopened

/-- What a listed cell holds after it was closed: the value of its own slot. -/
theorem get?_closing (hindexed : m.Indexed) {entry : OpenCell} (hentry : entry ∈ m.openCells)
    (hslot : slot ≤ entry.slot) :
    (m.closeCells slot).heap.get? entry.cell = some (.upvalue (.closed (m.slotOrNil entry.slot))) := by
  have hclosing : entry ∈ m.openCells.takeWhile (fun entry => slot ≤ entry.slot) := by
    rw [(span_descending slot hindexed.descending).1]
    exact List.mem_filter.mpr ⟨hentry, by simpa using hslot⟩
  have hown : ∀ other ∈ m.openCells.takeWhile (fun entry => slot ≤ entry.slot), other.cell = entry.cell →
      other.slot = entry.slot := fun other hother hcell =>
    hindexed.openCellsSound.slot_eq ((List.takeWhile_sublist _).mem hother) hentry hcell
  have hthere : entry.cell ∈ m.heap.refs :=
    Heap.mem_refs.mpr ⟨_, (hindexed.listed entry.slot entry.cell).mp hentry⟩
  rw [closeCells_eq]
  exact get?_foldl_close_slot m.slotOrNil hclosing hown hthere

/-- Closing takes the cells of a slot and above out of the index and leaves the others. -/
theorem closes (hindexed : m.Indexed) (slot : Nat) : Closes slot m (m.closeCells slot) := by
  have hsplit := span_descending slot hindexed.descending
  have hremaining : (m.closeCells slot).openCells = m.openCells.filter fun entry => entry.slot < slot := by
    rw [closeCells_eq]
    exact hsplit.2
  have hothers (ref : Ref) (hother : ∀ entry ∈ m.openCells, slot ≤ entry.slot → ref ≠ entry.cell) :
      (m.closeCells slot).heap.get? ref = m.heap.get? ref := by
    rw [closeCells_eq]
    refine get?_foldl_close fun entry hentry => ?_
    rw [hsplit.1] at hentry
    obtain ⟨hmem, hslot⟩ := List.mem_filter.mp hentry
    exact hother entry hmem (by simpa using hslot)
  have hstays {entry : OpenCell} (hentry : entry ∈ m.openCells) (hbelow : entry.slot < slot) :
      (m.closeCells slot).heap.get? entry.cell = m.heap.get? entry.cell := by
    refine hothers entry.cell fun other hother hslot hcell => ?_
    have hsame := hindexed.openCellsSound.slot_eq hentry hother hcell
    omega
  refine {
    rest := by rw [closeCells_eq]
    indexed := ⟨hremaining ▸ hindexed.descending.filter _, fun other cell => ?_⟩
    remaining := hremaining
    closed := fun entry hentry hslot => ⟨_, hindexed.get?_closing hentry hslot⟩
    others := hothers
    seen := fun entry hentry hthere => ?_ }
  · rw [hremaining, List.mem_filter]
    constructor
    · rintro ⟨hmem, hbelow⟩
      rw [hstays hmem (by simpa using hbelow)]
      exact (hindexed.listed other cell).mp hmem
    · intro hopened
      by_cases hclosing : ∃ entry ∈ m.openCells, slot ≤ entry.slot ∧ cell = entry.cell
      · obtain ⟨entry, hentry, hslot, rfl⟩ := hclosing
        rw [hindexed.get?_closing hentry hslot] at hopened
        cases hopened
      · rw [hothers cell fun entry hentry hslot hcell => hclosing ⟨entry, hentry, hslot, hcell⟩] at hopened
        have hmem := (hindexed.listed other cell).mpr hopened
        refine ⟨hmem, ?_⟩
        by_contra hnot
        exact hclosing ⟨_, hmem, by simpa using hnot, rfl⟩
  · have hopened := (hindexed.listed entry.slot entry.cell).mp hentry
    simp only [seenThrough]
    by_cases hslot : slot ≤ entry.slot
    · rw [hindexed.get?_closing hentry hslot, hopened]
      simp [slotOrNil, hthere]
    · rw [hstays hentry (by omega), hopened, closeCells_eq]

/-- Capturing a slot finds its cell in the index or enters a new one. -/
theorem captured (hindexed : m.Indexed) (hbounded : m.heap.Bounded) (slot : Nat) :
    Captured slot m (Exec.captureCell slot m) := by
  simp only [Exec.captureCell]
  rw [get_bind_apply]
  cases hfind : m.openCells.find? (fun entry => entry.slot == slot) with
  | some entry =>
    obtain rfl : entry.slot = slot := by simpa using List.find?_some hfind
    exact .shared (List.mem_of_find?_eq_some hfind)
  | none =>
    have hfree : slot ∉ m.openSlots := by
      rw [mem_openSlots]
      rintro ⟨entry, hentry, hslot⟩
      exact List.find?_eq_none.mp hfind entry hentry (by simpa using hslot)
    dsimp only
    rw [bind_apply]
    obtain ⟨parked, halike, ⟨fault, hresult⟩ | ⟨-, hresult⟩⟩ := Exec.onHeap_allocate_parks (.upvalue (.opened slot)) m
    · rw [hresult]
      exact .full hfree (hindexed.of_same rfl fun _ _ => by rw [halike.get?]) rfl
    · rw [hresult]
      have hnew : m.heap.nextRef ∉ m.heap.refs := fun hthere => by
        obtain ⟨object, hobject⟩ := Heap.mem_refs.mp hthere
        rw [hbounded.get?_nextRef] at hobject
        cases hobject
      rw [halike.nextRef]
      exact .opened hfree hnew (hindexed.capturing hbounded halike hfree) fun entry => mem_insertCell

end Indexed

/-- A call that ends closes the cells of its frame. -/
theorem Indexed.left (hindexed : m.Indexed) (frame : Frame) : (Exec.left m frame).Indexed := by
  have hpopped : Indexed { m with frames := m.frames.pop } := hindexed.of_eq rfl rfl
  exact (hpopped.closes frame.base).indexed.of_eq rfl rfl

/-- Whatever an instruction does, the list stays an index. -/
theorem Change.indexed (hchange : Change asked m after) (horderly : m.Orderly) (hindexed : m.Indexed) :
    after.Indexed := by
  have hbounded := horderly.heap.bounded
  cases hchange with
  | pushed | cut | leftBehind | assigned | defined | printed | jumped | entered => exact hindexed.of_eq rfl rfl
  | parked halike => exact hindexed.of_same rfl fun _ _ => by rw [halike.get?]
  | linked hwhole => exact hindexed.link hbounded fun slot hobject => by subst hobject; cases hwhole
  | @built _ empty _ hfilled =>
    have hlinked : Indexed { m with heap := m.heap.link empty } :=
      hindexed.link hbounded fun slot hobject => by subst hobject; cases hfilled
    have hempty : (m.heap.link empty).get? m.heap.nextRef = some empty := by simp [Heap.get?_link]
    exact hlinked.replace hempty (Heap.get?_store _ _ _)
      (fun slot hobject => by subst hobject; cases hfilled) fun slot hobject => by subst hobject; cases hfilled
  | edited hold hedited =>
    exact hindexed.replace hold (Heap.get?_update _ _ _) (fun slot hobject => by subst hobject; cases hedited)
      fun slot hobject => by subst hobject; cases hedited
  | appended value hold =>
    exact hindexed.replace hold (Heap.get?_store _ _ _) (fun _ => nofun) fun _ => nofun
  | captured slot _ hslot => exact hindexed.capturing hbounded (.refl _) hslot
  | closed slot => exact (hindexed.closes slot).indexed
  | returned | finished => exact (hindexed.left _).of_eq rfl rfl

theorem Changes.indexed (hchanges : Changes asked m after) (horderly : m.Orderly) (hindexed : m.Indexed) :
    after.Indexed := by
  induction hchanges with
  | refl => exact hindexed
  | tail hbefore hchange ih => exact hchange.indexed (Changes.tended hbefore horderly).orderly ih

end Machine

namespace Exec

open Machine

/-- That open cells are an index lasts without any supposition. -/
theorem enduring_indexed (config : Config) : Enduring config (fun _ => True) (fun _ => True) Indexed where
  narrower _ _ := trivial
  spaced _ _ := trivial
  fresh := ⟨.nil, fun slot cell => by simp [ofConfig, Heap.ofConfig, Heap.get?]⟩
  apart hsame hindexed := hindexed.of_eq hsame.heap hsame.openCells
  emptied hindexed := hindexed.of_eq rfl rfl
  started _ _ hindexed _ := hindexed.of_eq rfl rfl
  collected horderly hindexed := hindexed.collectGarbage horderly.heap.idle
  changed hchange horderly _ hindexed := hchange.indexed horderly hindexed

/-- The open cells of a machine are an index of the captured slots, and stay one when a slot is captured and when
cells are closed. -/
structure SharesCells (m : Machine) : Prop where
  indexed : m.Indexed
  shared : ∀ first second slot, m.heap.get? first = some (.upvalue (.opened slot)) →
    m.heap.get? second = some (.upvalue (.opened slot)) → first = second
  captures : ∀ slot, Captured slot m (captureCell slot m)
  closes : ∀ slot, Closes slot m (m.closeCells slot)

theorem sharesCells_of_good {m : Machine} (hgood : Good Indexed m) : SharesCells m :=
  ⟨hgood.holds, fun _ _ _ => hgood.holds.cell_eq, hgood.holds.captured hgood.orderly.heap.bounded, hgood.holds.closes⟩

/-- Between the requests of a host, at every instruction boundary that the machine passes while it serves one, and
after each of the changes that an instruction consists of, the open cells are an index of the captured slots. -/
theorem session_sharesCells {config : Config} {m : Machine} (hsession : Session doesAnything config m) :
    SharesCells m ∧ ∀ request after, Passes request m after → ∀ middle, Changes (fun _ => True) after middle →
      SharesCells middle := by
  have hgood := (enduring_indexed config).good_session hsession.provided
  refine ⟨sharesCells_of_good hgood, fun request after hpasses middle hchanges => sharesCells_of_good ?_⟩
  have hboundary := (enduring_indexed config).good_passes hpasses hgood fun after _ => furnished_anything after
  exact (enduring_indexed config).good_changes hchanges trivial hboundary

/-- A script that makes two closures over one variable. -/
def siblingsUnit : CodeUnit :=
  let empty : Chunk := { constants := #[.scalar (.int 7)], functions := #[some peekFunction] }
  let declared := (empty.writeOp .constant {}).writeShort 0 {}
  let first := (declared.writeOp .closure {}).writeShort 0 {}
  let second := (first.writeOp .closure {}).writeShort 0 {}
  { script := some { name := "<script>", chunk := some (second.writeOp .halt {}), maxSlots := 3 } }

/-- The cells of the closure in a slot of the stack. -/
def cellsAt (m : Machine) (slot : Nat) : Option (Array (Option Ref)) :=
  match (m.stack[slot]?).bind m.heap.objectOf? with
  | some (.closure _ cells) => some cells
  | _ => none

/-- After three instructions both closures have the one cell of the variable. -/
theorem session_sharesCells_siblings :
    ∃ m cell, Passes (.execute siblingsUnit) (.ofConfig {}) m ∧ m.openCells = [⟨1, cell⟩] ∧
      cellsAt m 2 = some #[some cell] ∧ cellsAt m 3 = some #[some cell] ∧ SharesCells m := by
  have hreached : (boundary siblingsUnit 3 (.ofConfig {})).any (fun m =>
      m.openCells == [⟨1, 2⟩] && cellsAt m 2 == some #[some 2] && cellsAt m 3 == some #[some 2]) = true := by
    decide +kernel
  obtain ⟨m, hboundary, hholds⟩ := (Option.any_eq_true _ _).mp hreached
  simp only [Bool.and_eq_true, beq_iff_eq] at hholds
  have hpasses := passes_boundary hboundary
  have hfresh : Session doesAnything {} (.ofConfig {}) := .fresh
  have hshares := (session_sharesCells hfresh).2 _ m hpasses m .refl
  exact ⟨m, 2, hpasses, hholds.1.1, hholds.1.2, hholds.2, hshares⟩

end Exec

end OwnScript
