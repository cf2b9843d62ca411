import OwnScript.Proofs.Heap.Ledger
import OwnScript.Proofs.Machine.Changes

/-!
The account of a running machine. Whatever the host hands in, every change that an instruction makes
leaves each object accounted for at its size, and no change takes bytes away.
-/

namespace OwnScript

open Stateful

theorem textsCapacity_append (first second : List String) :
    textsCapacity (first ++ second) = textsCapacity first + textsCapacity second := by
  induction first with
  | nil => simp [textsCapacity]
  | cons text rest ih =>
    simp only [textsCapacity, List.cons_append, List.foldr_cons] at ih ⊢
    omega

/-- A repeated name takes no room of its own. -/
theorem Fields.textsCapacity_ofLiteral {names : List String} {values : List Value}
    (hlength : values.length = names.length) :
    textsCapacity ((ofLiteral names values).entries.map (·.1)) ≤ textsCapacity names := by
  have hfold (entries pairs : List (String × Value)) :
      textsCapacity ((pairs.foldl (fun entries entry =>
        if entries.any (fun e => e.1 == entry.1) then replaceFirst entry.1 entry.2 entries
        else entries ++ [entry]) entries).map (·.1)) ≤
      textsCapacity (entries.map (·.1)) + textsCapacity (pairs.map (·.1)) := by
    induction pairs generalizing entries with
    | nil => simp
    | cons pair rest ih =>
      rw [List.foldl_cons]
      refine (ih _).trans ?_
      have hcons : textsCapacity ((pair :: rest).map (·.1)) =
          textsCapacity [pair.1] + textsCapacity (rest.map (·.1)) :=
        textsCapacity_append [pair.1] (rest.map Prod.fst)
      split
      · rw [Exec.replaceFirst_names]
        omega
      · rw [List.map_append, textsCapacity_append]
        simp only [List.map_cons, List.map_nil] at hcons ⊢
        omega
  have hnames : (names.zip values).map (·.1) = names := List.map_fst_zip hlength.ge
  have hall := hfold [] (names.zip values)
  have hnone : textsCapacity [] = 0 := rfl
  rw [hnames, List.map_nil, hnone, Nat.zero_add] at hall
  exact hall

theorem Object.Filled.memorySize_le {bytes : Nat} {empty object : Object}
    (hfilled : Object.Filled bytes empty object) :
    empty.memorySize ≤ object.memorySize ∧ object.memorySize ≤ bytes := by
  cases hfilled with
  | @record names values hlength =>
    have hnames := Fields.textsCapacity_ofLiteral hlength
    have hcapacity : (Fields.ofLiteral names values).capacity = names.length := rfl
    have hnone : textsCapacity [] = 0 := rfl
    simp only [memorySize, blockSize, contentSize, hcapacity, List.map_nil, hnone, recordBytes]
    omega
  | array values =>
    simp only [memorySize, blockSize, contentSize, Elements.exactly]
    omega

theorem Object.Edited.memorySize_eq {old new : Object} (hedited : old.Edited new) :
    new.memorySize = old.memorySize := by
  cases hedited with
  | field value hthere =>
    simp [memorySize, blockSize, contentSize, Fields.replace, Exec.replaceFirst_names]
  | element elements position value => rfl
  | cell held value => rfl
  | captures hsize => exact Exec.memorySize_unboundClosure _ hsize

theorem Object.Edited.exists_upvalue {old new : Object} (hedited : old.Edited new) (state : Upvalue)
    (hcell : old = .upvalue state) : ∃ now, new = .upvalue now := by
  cases hedited with
  | cell held value => exact ⟨_, rfl⟩
  | field => cases hcell
  | element => cases hcell
  | captures => cases hcell

/-- A record grows by exactly the bytes that are made sure of before. -/
theorem Fields.memorySize_append (fields : Fields) (name : String) (value : Value) :
    (Object.record (fields.append name value)).memorySize =
      (Object.record fields).memorySize + fields.growth name := by
  have hroom : fields.capacity ≤ fields.roomForOneMore := by
    unfold roomForOneMore grownCapacity
    split
    · exact le_refl _
    · omega
  obtain ⟨extra, hextra⟩ := Nat.exists_eq_add_of_le hroom
  have hname : textsCapacity [name] = textCapacity name := by simp [textsCapacity]
  simp only [Object.memorySize, Object.blockSize, Object.contentSize, append, growth, List.map_append,
    textsCapacity_append, List.map_cons, List.map_nil, hname, hextra, Nat.add_sub_cancel_left, Nat.add_mul]
  omega

namespace Heap

/-- A heap whose books are in order, whatever its references lead to. -/
structure Kempt (heap : Heap) : Prop where
  bounded : heap.Bounded
  idle : heap.Idle
  accounted : heap.Accounted

namespace Kempt

variable {heap other : Heap} {ref : Ref} {old new : Object}

theorem of_alike (hkempt : heap.Kempt) (halike : Alike heap other) : other.Kempt := by
  have hrefs : other.refs = heap.refs := by
    ext ref
    simp [halike.get?]
  refine ⟨hkempt.bounded.of_refs_eq hrefs halike.nextRef, ⟨?_, ?_, fun ref => ?_⟩,
    hkempt.accounted.of_alike halike⟩
  · rw [halike.gray]
    exact hkempt.idle.gray
  · rw [halike.collecting]
    exact hkempt.idle.collecting
  · rw [isMarked, halike.cells]
    exact hkempt.idle.unmarked ref

theorem link (hkempt : heap.Kempt) (object : Object) : (heap.link object).Kempt :=
  ⟨hkempt.bounded.link object, hkempt.idle.link object, hkempt.accounted.link hkempt.bounded object⟩

theorem update (hkempt : heap.Kempt) (hold : heap.get? ref = some old)
    (hsize : new.memorySize = old.memorySize) : (heap.update ref new).Kempt :=
  ⟨hkempt.bounded.of_refs_eq (refs_update heap ref new) rfl, hkempt.idle.update ref new,
    hkempt.accounted.update hold hsize⟩

theorem store (hkempt : heap.Kempt) (hold : heap.get? ref = some old) (new : Object) :
    (heap.store ref new).Kempt :=
  ⟨hkempt.bounded.of_refs_eq (refs_store heap ref new) (nextRef_store heap ref new),
    (hkempt.idle.update ref new).recordSize ref _, hkempt.accounted.store hold new⟩

theorem collect (hkempt : heap.Kempt) (roots : List Value) : (heap.collect roots).1.Kempt := by
  have hcollected := collect_spec hkempt.idle roots
  refine ⟨fun ref object hobject => ?_, hcollected.idle, hcollected.accounted hkempt.accounted⟩
  rw [hcollected.nextRef]
  by_cases hreach : heap.Reachable roots ref
  · exact hkempt.bounded ref object (by rw [← hcollected.reached ref hreach]; exact hobject)
  · rw [hcollected.lost ref hreach] at hobject
    cases hobject

end Kempt

end Heap

namespace Machine

/-- A machine whose books are in order and whose list of open cells is one of cells. No value that a
host hands in can disturb that. -/
structure Orderly (m : Machine) : Prop where
  heap : m.heap.Kempt
  cells : ∀ entry ∈ m.openCells, ∃ state, m.heap.get? entry.cell = some (.upvalue state)

variable {m after : Machine}

theorem Orderly.intact (horderly : m.Orderly) : m.Intact :=
  ⟨horderly.heap.bounded, horderly.cells⟩

theorem Orderly.of_eq (horderly : m.Orderly) (hheap : after.heap = m.heap)
    (hcells : after.openCells = m.openCells) : after.Orderly := by
  refine ⟨hheap ▸ horderly.heap, ?_⟩
  rw [hheap, hcells]
  exact horderly.cells

/-- An object is replaced by another; one that is a cell stays one. -/
theorem Orderly.replace (horderly : m.Orderly) {heap : Heap} {target : Ref} {old new : Object}
    (hold : m.heap.get? target = some old) (hkempt : heap.Kempt)
    (hget : ∀ ref, heap.get? ref =
      if ref = target then (m.heap.get? ref).map (fun _ => new) else m.heap.get? ref)
    (hkind : ∀ state, old = .upvalue state → ∃ now, new = .upvalue now) :
    Orderly { m with heap } := by
  refine ⟨hkempt, fun entry hentry => ?_⟩
  obtain ⟨state, hstate⟩ := horderly.cells entry hentry
  by_cases href : entry.cell = target
  · have hsame : old = .upvalue state := by
      rw [href, hold] at hstate
      exact Option.some.inj hstate
    obtain ⟨now, rfl⟩ := hkind state hsame
    exact ⟨now, by simp [hget, href, hold]⟩
  · exact ⟨state, by simp [hget, href, hstate]⟩

theorem Orderly.link (horderly : m.Orderly) (object : Object) :
    Orderly { m with heap := m.heap.link object } := by
  refine ⟨horderly.heap.link object, fun entry hentry => ?_⟩
  obtain ⟨state, hstate⟩ := horderly.cells entry hentry
  have hne : entry.cell ≠ m.heap.nextRef := Nat.ne_of_lt (horderly.heap.bounded _ _ hstate)
  exact ⟨state, by rw [Heap.get?_link, if_neg hne]; exact hstate⟩

/-- Cells that are closed keep their size. -/
theorem kempt_foldl_close (closing : List OpenCell) (value : Nat → Value) {heap : Heap}
    (hkempt : heap.Kempt)
    (hcells : ∀ entry ∈ closing, ∃ state, heap.get? entry.cell = some (.upvalue state)) :
    (closing.foldl (fun heap entry => heap.update entry.cell (.upvalue (.closed (value entry.slot))))
      heap).Kempt ∧
    (closing.foldl (fun heap entry => heap.update entry.cell (.upvalue (.closed (value entry.slot))))
      heap).footprint = heap.footprint ∧
    (closing.foldl (fun heap entry => heap.update entry.cell (.upvalue (.closed (value entry.slot))))
      heap).config = heap.config := by
  induction closing generalizing heap with
  | nil => exact ⟨hkempt, rfl, rfl⟩
  | cons entry rest ih =>
    obtain ⟨state, hstate⟩ := hcells entry (List.mem_cons_self ..)
    have hsize : (Object.upvalue (.closed (value entry.slot))).memorySize =
        (Object.upvalue state).memorySize := rfl
    have hbytes := Heap.footprint_update hstate (.upvalue (.closed (value entry.slot)))
    obtain ⟨hrest, htotal, hconfig⟩ := ih (hkempt.update hstate hsize) fun other hother => by
      obtain ⟨found, hfound⟩ := hcells other (List.mem_cons_of_mem _ hother)
      rw [Heap.get?_update]
      split
      · exact ⟨_, by rw [hfound]; rfl⟩
      · exact ⟨found, hfound⟩
    rw [List.foldl_cons]
    exact ⟨hrest, by omega, hconfig⟩

/-- What a change does to the account: it stays in order, and the bytes in use do not get fewer. -/
structure Tended (m after : Machine) : Prop where
  orderly : after.Orderly
  grows : m.heap.footprint ≤ after.heap.footprint
  config : after.config = m.config
  heapConfig : after.heap.config = m.heap.config

theorem Tended.refl (horderly : m.Orderly) : Tended m m :=
  ⟨horderly, le_refl _, rfl, rfl⟩

theorem Tended.trans {middle : Machine} (hfirst : Tended m middle) (hsecond : Tended middle after) :
    Tended m after :=
  ⟨hsecond.orderly, hfirst.grows.trans hsecond.grows, hsecond.config.trans hfirst.config,
    hsecond.heapConfig.trans hfirst.heapConfig⟩

theorem Tended.of_eq (horderly : m.Orderly) (hheap : after.heap = m.heap)
    (hcells : after.openCells = m.openCells) (hconfig : after.config = m.config) : Tended m after :=
  ⟨horderly.of_eq hheap hcells, by rw [hheap], hconfig, by rw [hheap]⟩

/-- Cells may be closed without any effect on the bytes in use. -/
theorem tended_closeCells (horderly : m.Orderly) (slot : Nat) :
    Tended m (m.closeCells slot) ∧ (m.closeCells slot).heap.footprint = m.heap.footprint := by
  have hclosing : ∀ entry ∈ m.openCells.takeWhile (fun entry => slot ≤ entry.slot),
      ∃ state, m.heap.get? entry.cell = some (.upvalue state) :=
    fun entry hentry => horderly.cells entry ((List.takeWhile_prefix _).subset hentry)
  obtain ⟨hkempt, hbytes, hconfig⟩ := kempt_foldl_close _ m.slotOrNil horderly.heap hclosing
  have hpreserved : Preserved (fun _ _ => True) m (m.closeCells slot) := preserved_closeCells m slot
  have hcells := (hpreserved.intact horderly.intact).cells
  rw [closeCells_eq] at hcells ⊢
  exact ⟨⟨⟨hkempt, hcells⟩, hbytes.ge, rfl, hconfig⟩, hbytes⟩

theorem Tended.left (horderly : m.Orderly) (frame : Frame) : Tended m (Exec.left m frame) := by
  have hpopped : Tended m { m with frames := m.frames.pop } := .of_eq horderly rfl rfl rfl
  have hclosed := hpopped.trans (tended_closeCells hpopped.orderly frame.base).1
  exact hclosed.trans (.of_eq hclosed.orderly rfl rfl rfl)

/-- A new object, and what it is filled with. -/
theorem Tended.link (horderly : m.Orderly) (object : Object) :
    Tended m { m with heap := m.heap.link object } :=
  ⟨horderly.link object, by rw [Heap.footprint_link horderly.heap.bounded]; omega, rfl, rfl⟩

theorem Tended.store (horderly : m.Orderly) {ref : Ref} {old new : Object}
    (hold : m.heap.get? ref = some old) (hsize : old.memorySize ≤ new.memorySize)
    (hkind : ∀ state, old ≠ .upvalue state) : Tended m { m with heap := m.heap.store ref new } := by
  have hbytes := Heap.footprint_store hold new
  refine ⟨horderly.replace hold (horderly.heap.store hold new) (Heap.get?_store _ _ _)
    fun state hcell => absurd hcell (hkind state), ?_, rfl, (Heap.recordSize_rest _ _ _).1⟩
  change m.heap.footprint ≤ (m.heap.store ref new).footprint
  omega

/-- Every change keeps the account. -/
theorem Change.tended {asked : Nat → Prop} (hchange : Change asked m after) (horderly : m.Orderly) :
    Tended m after := by
  cases hchange with
  | pushed | cut | leftBehind | assigned | defined | printed | jumped | entered =>
    exact .of_eq horderly rfl rfl rfl
  | @parked heap halike =>
    have hget (ref : Ref) := halike.get? ref
    refine ⟨⟨horderly.heap.of_alike halike, fun entry hentry => ?_⟩, ?_, rfl, halike.config⟩
    · obtain ⟨state, hstate⟩ := horderly.cells entry hentry
      exact ⟨state, (hget _).trans hstate⟩
    · exact (Heap.footprint_congr hget).ge
  | @linked object => exact .link horderly object
  | @built bytes empty object hfilled =>
    have hlinked := Tended.link horderly empty
    have hempty : (m.heap.link empty).get? m.heap.nextRef = some empty := by simp [Heap.get?_link]
    refine hlinked.trans (.store hlinked.orderly hempty hfilled.memorySize_le.1 fun state hcell => ?_)
    cases hfilled with
    | record => cases hcell
    | array => cases hcell
  | @edited ref old new hold hedited =>
    have hsize := hedited.memorySize_eq
    have hbytes := Heap.footprint_update hold new
    refine ⟨horderly.replace hold (horderly.heap.update hold hsize) (Heap.get?_update _ _ _)
      hedited.exists_upvalue, ?_, rfl, rfl⟩
    change m.heap.footprint ≤ (m.heap.update ref new).footprint
    omega
  | @appended ref fields name value hold =>
    refine .store horderly hold ?_ fun state hcell => by cases hcell
    rw [fields.memorySize_append]
    omega
  | captured slot =>
    have hlinked := Tended.link horderly (.upvalue (.opened slot))
    refine ⟨⟨hlinked.orderly.heap, fun entry hentry => ?_⟩, hlinked.grows, rfl, rfl⟩
    rcases mem_insertCell.mp hentry with rfl | hold
    · exact ⟨.opened slot, by simp [capturing, Heap.get?_link]⟩
    · exact hlinked.orderly.cells entry hold
  | closed slot => exact (tended_closeCells horderly slot).1
  | @returned frame | @finished frame =>
    have hleft := Tended.left horderly frame
    exact hleft.trans (.of_eq hleft.orderly rfl rfl rfl)

theorem Changes.tended {asked : Nat → Prop} (hchanges : Changes asked m after) (horderly : m.Orderly) :
    Tended m after := by
  induction hchanges with
  | refl => exact .refl horderly
  | tail _ hchange ih => exact ih.trans (hchange.tended ih.orderly)

end Machine

end OwnScript
