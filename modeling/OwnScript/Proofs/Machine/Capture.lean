import OwnScript.Proofs.Machine.Storage

/-!
Capturing slots. A closure captures the slots of its frame one after the other; each slot that has
no open cell yet gets a new one. The making of a closure may give up in the middle, so what happens
to the machine is followed slot by slot, and on one side at a time.
-/

namespace OwnScript

open Stateful

theorem mem_insertCell {new entry : OpenCell} {cells : List OpenCell} :
    entry ∈ Exec.insertCell new cells ↔ entry = new ∨ entry ∈ cells := by
  induction cells with
  | nil => simp [Exec.insertCell]
  | cons first rest ih =>
    simp only [Exec.insertCell]
    split
    · simp only [List.mem_cons, ih]
      tauto
    · simp

theorem descending_insertCell {new : OpenCell} {cells : List OpenCell}
    (hcells : cells.Pairwise fun first second => second.slot < first.slot)
    (hnew : ∀ entry ∈ cells, entry.slot ≠ new.slot) :
    (Exec.insertCell new cells).Pairwise fun first second => second.slot < first.slot := by
  induction cells with
  | nil => simp [Exec.insertCell]
  | cons first rest ih =>
    obtain ⟨hfirst, hrest⟩ := List.pairwise_cons.mp hcells
    simp only [Exec.insertCell]
    split
    case isTrue hbelow =>
      refine List.pairwise_cons.mpr ⟨fun entry hentry => ?_, ?_⟩
      · rcases mem_insertCell.mp hentry with rfl | hmem
        · exact hbelow
        · exact hfirst entry hmem
      · exact ih hrest fun entry hentry => hnew entry (List.mem_cons_of_mem _ hentry)
    case isFalse hbelow =>
      have habove : first.slot < new.slot := by
        have hne := hnew first (List.mem_cons_self ..)
        omega
      refine List.pairwise_cons.mpr ⟨fun entry hentry => ?_, hcells⟩
      rcases List.mem_cons.mp hentry with rfl | hmem
      · exact habove
      · exact (hfirst entry hmem).trans habove

namespace Machine

/-- The machine with a new cell for a slot. -/
def capturing (m : Machine) (parked : Heap) (slot : Nat) : Machine :=
  { m with
    heap := parked.link (.upvalue (.opened slot))
    openCells := Exec.insertCell { slot, cell := m.heap.nextRef } m.openCells }

theorem mem_openSlots {m : Machine} {slot : Nat} :
    slot ∈ m.openSlots ↔ ∃ entry ∈ m.openCells, entry.slot = slot := List.mem_map

theorem mem_openSlots_capturing {m : Machine} {parked : Heap} {slot other : Nat} :
    other ∈ (m.capturing parked slot).openSlots ↔ other = slot ∨ other ∈ m.openSlots := by
  simp only [mem_openSlots, capturing, mem_insertCell]
  constructor
  · rintro ⟨entry, rfl | hmem, rfl⟩
    · exact .inl rfl
    · exact .inr ⟨entry, hmem, rfl⟩
  · rintro (rfl | ⟨entry, hmem, rfl⟩)
    · exact ⟨_, .inl rfl, rfl⟩
    · exact ⟨entry, .inr hmem, rfl⟩

theorem get?_capturing {m : Machine} {parked : Heap} (halike : Heap.Alike m.heap parked) (slot : Nat)
    (ref : Ref) : (m.capturing parked slot).heap.get? ref =
      if ref = m.heap.nextRef then some (.upvalue (.opened slot)) else m.heap.get? ref := by
  simp only [capturing, Heap.get?_link, halike.nextRef, halike.get?]

variable {ρ : Renaming} {left right : Machine}

theorem footprint_capturing {m : Machine} (hsound : m.heap.Sound) {parked : Heap}
    (halike : Heap.Alike m.heap parked) (slot : Nat) :
    (m.capturing parked slot).heap.footprint = m.heap.footprint + 80 := by
  rw [capturing, Heap.footprint_link (hsound.of_alike halike).bounded,
    Heap.footprint_congr halike.get?]
  rfl

theorem openCellsSound_capturing {m : Machine} (hopen : OpenCellsSound m.heap m.openCells)
    (hbounded : m.heap.Bounded) {parked : Heap} (halike : Heap.Alike m.heap parked) {slot : Nat}
    (hslot : slot ∉ m.openSlots) :
    OpenCellsSound (m.capturing parked slot).heap (m.capturing parked slot).openCells := by
  refine ⟨descending_insertCell hopen.descending fun entry hentry hsame => ?_, fun entry hentry => ?_⟩
  · exact hslot (mem_openSlots.mpr ⟨entry, hentry, hsame⟩)
  · rw [get?_capturing halike]
    rcases mem_insertCell.mp hentry with rfl | hmem
    · simp
    · rw [if_neg (openCells_ne_nextRef hopen hbounded hmem)]
      exact hopen.opened entry hmem

theorem OpenCellsSound.eq_of_slot {heap : Heap} {cells : List OpenCell} (hopen : OpenCellsSound heap cells)
    {first second : OpenCell} (hfirst : first ∈ cells) (hsecond : second ∈ cells)
    (hslot : first.slot = second.slot) : first = second := by
  have hnodup : (cells.map (·.slot)).Nodup :=
    List.pairwise_map.mpr (hopen.descending.imp fun h => (Nat.ne_of_lt h).symm)
  exact List.inj_on_of_nodup_map hnodup hfirst hsecond hslot

/-- A capture on the left keeps machines similar. Where the right side has a cell for the slot, the
two become partners. -/
theorem Similar.capturing (hsim : Similar ρ left right) {parked : Heap}
    (halike : Heap.Alike left.heap parked) {slot : Nat} (hslot : slot ∉ left.openSlots) :
    ∃ σ, ρ.CellsGrow σ ∧ Similar σ (left.capturing parked slot) right := by
  have hlinked : Heap.Corresponds ρ (left.capturing parked slot).heap right.heap :=
    (hsim.heap.alike_left halike).link_left (by simp [Object.references])
  have hopen := openCellsSound_capturing hsim.leftOpen hsim.heap.leftSound.bounded halike hslot
  have hages : left.heap.Ages (left.capturing parked slot).heap := halike.ages_link _
  have hnew : (left.capturing parked slot).heap.get? left.heap.nextRef =
      some (.upvalue (.opened slot)) := by simp [get?_capturing halike]
  have hlisted : ∀ a b opened, ρ.cell a b →
      (left.capturing parked slot).heap.get? a = some (.upvalue (.opened opened)) →
      ⟨opened, a⟩ ∈ (left.capturing parked slot).openCells ∧ ⟨opened, b⟩ ∈ right.openCells := by
    intro a b opened hpair hopened
    rw [get?_capturing halike, if_neg (hsim.heap.ne_nextRef (.inr ⟨b, hpair⟩))] at hopened
    obtain ⟨hfirst, hsecond⟩ := hsim.listed a b opened hpair hopened
    exact ⟨mem_insertCell.mpr (.inr hfirst), hsecond⟩
  by_cases hright : slot ∈ right.openSlots
  · obtain ⟨entry, hentry, rfl⟩ := mem_openSlots.mp hright
    have hpartner := hsim.rightOpen.opened entry hentry
    have hle := ρ.le_withCell left.heap.nextRef entry.cell
    refine ⟨ρ.withCell left.heap.nextRef entry.cell, ⟨rfl, hle.2⟩, ?_⟩
    have hheap := hlinked.pair_cells hnew hpartner (.opened entry.slot)
      (fun other hpair => hsim.heap.ne_nextRef (.inr ⟨other, hpair⟩) rfl) (fun other hpair => ?_)
    · exact {
        config := hsim.config
        unit := hsim.unit
        chunk := hsim.chunk
        ip := hsim.ip
        instructionStart := hsim.instructionStart
        halted := hsim.halted
        output := hsim.output
        heap := hheap
        globals := hsim.globals.imp fun _ _ h => relImp h fun _ _ h => h.mono hle
        stack := hsim.stack.imp fun _ _ h => h.mono hle
        leftovers := hsim.leftovers.later hle hages (.refl _)
        frames := hsim.frames.imp fun _ _ h => Frame.Related.mono h hle
        result := hsim.result.mono hle
        pinned := hsim.pinned.imp fun _ _ h => h.mono hle
        hostValues := hsim.hostValues.imp fun _ _ h => h.mono hle
        leftOpen := hopen
        rightOpen := hsim.rightOpen
        captured := fun first hfirst second hsecond hsame => by
          rcases mem_insertCell.mp hfirst with rfl | hmem
          · exact .inr ⟨rfl, congrArg OpenCell.cell (hsim.rightOpen.eq_of_slot hsecond hentry hsame.symm)⟩
          · exact .inl (hsim.captured first hmem second hsecond hsame)
        listed := fun a b opened hpair hopened => by
          rcases hpair with hpair | ⟨rfl, rfl⟩
          · exact hlisted a b opened hpair hopened
          · rw [hnew, Option.some.injEq, Object.upvalue.injEq, Upvalue.opened.injEq] at hopened
            subst hopened
            exact ⟨mem_insertCell.mpr (.inl rfl), hentry⟩ }
    · -- a partner of that cell on the left would be open and listed already
      obtain ⟨first, second, hfirst, hsecond, hrel⟩ := hsim.heap.cells other entry.cell hpair
      rw [hpartner, Option.some.injEq, Object.upvalue.injEq] at hsecond
      subst hsecond
      cases hrel
      exact hslot (mem_openSlots.mpr ⟨_, (hsim.listed _ _ _ hpair hfirst).1, rfl⟩)
  · refine ⟨ρ, ⟨rfl, fun _ _ h => h⟩, ?_⟩
    exact { hsim with
      heap := hlinked
      leftovers := hsim.leftovers.later (Renaming.le_refl ρ) hages (.refl _)
      leftOpen := hopen
      captured := fun first hfirst second hsecond hsame => by
        rcases mem_insertCell.mp hfirst with rfl | hmem
        · exact absurd (mem_openSlots.mpr ⟨second, hsecond, hsame.symm⟩) hright
        · exact hsim.captured first hmem second hsecond hsame
      listed := hlisted }

/-- Slots are captured in order: one that has an open cell keeps it, any other gets a new one, for
which there was room. -/
inductive Captures : Machine → List Nat → Machine → Prop where
  | done (m : Machine) : Captures m [] m
  | shared {m after : Machine} {slot : Nat} {rest : List Nat} : slot ∈ m.openSlots →
      Captures m rest after → Captures m (slot :: rest) after
  | opened {m after : Machine} {slot : Nat} {rest : List Nat} {parked : Heap} : slot ∉ m.openSlots →
      Heap.Alike m.heap parked →
      ((m.capturing parked slot).heap.Addressable → m.live + 80 ≤ m.limit) →
      Captures (m.capturing parked slot) rest after → Captures m (slot :: rest) after

namespace Captures

variable {m after : Machine} {slots : List Nat}

theorem similar (hcaptures : Captures left slots after) (hsim : Similar ρ left right) :
    ∃ σ, ρ.CellsGrow σ ∧ Similar σ after right := by
  induction hcaptures generalizing ρ with
  | done => exact ⟨ρ, ⟨rfl, fun _ _ h => h⟩, hsim⟩
  | shared _ _ ih => exact ih hsim
  | opened hslot halike _ _ ih =>
    obtain ⟨σ, hgrow, hnext⟩ := hsim.capturing halike hslot
    obtain ⟨τ, hgrow', hlast⟩ := ih hnext
    exact ⟨τ, hgrow.trans hgrow', hlast⟩

theorem rest (hcaptures : Captures m slots after) :
    after = { m with heap := after.heap, openCells := after.openCells } := by
  induction hcaptures with
  | done => rfl
  | shared _ _ ih => exact ih
  | opened _ _ _ _ ih =>
    rw [ih]
    rfl

theorem mem_openSlots (hcaptures : Captures m slots after) {slot : Nat} :
    slot ∈ after.openSlots ↔ slot ∈ m.openSlots ∨ slot ∈ slots := by
  induction hcaptures with
  | done => simp
  | shared hslot _ ih =>
    rw [ih, List.mem_cons]
    constructor
    · tauto
    · rintro (h | rfl | h)
      · exact .inl h
      · exact .inl hslot
      · exact .inr h
  | opened _ _ _ _ ih =>
    rw [ih, mem_openSlots_capturing, List.mem_cons]
    tauto

theorem sound (hcaptures : Captures m slots after) (hsound : m.heap.Sound) : after.heap.Sound := by
  induction hcaptures with
  | done => exact hsound
  | shared _ _ ih => exact ih hsound
  | opened _ halike _ _ ih => exact ih ((hsound.of_alike halike).link (by simp [Object.references]))

theorem kept (hcaptures : Captures m slots after) (hsound : m.heap.Sound) {ref : Ref} {object : Object}
    (hobject : m.heap.get? ref = some object) : after.heap.get? ref = some object := by
  induction hcaptures with
  | done => exact hobject
  | shared _ _ ih => exact ih hsound hobject
  | opened _ halike _ _ ih =>
    refine ih ((hsound.of_alike halike).link (by simp [Object.references])) ?_
    rw [get?_capturing halike, if_neg (Nat.ne_of_lt (hsound.bounded ref object hobject))]
    exact hobject

theorem limit_eq (hcaptures : Captures m slots after) : after.limit = m.limit := by
  induction hcaptures with
  | done => rfl
  | shared _ _ ih => exact ih
  | opened _ halike _ _ ih =>
    rw [ih]
    exact congrArg (fun config => config.maxHeapBytes.toNat) halike.config

/-- The slots of a list that have no open cell. -/
def missing (m : Machine) (slots : List Nat) : Finset Nat :=
  slots.toFinset \ m.openSlots.toFinset

theorem missing_cons_of_mem {slot : Nat} (hslot : slot ∈ m.openSlots) (rest : List Nat) :
    missing m (slot :: rest) = missing m rest := by
  ext other
  simp only [missing, List.toFinset_cons, Finset.mem_sdiff, Finset.mem_insert, List.mem_toFinset]
  constructor
  · rintro ⟨rfl | h, hnot⟩
    · exact absurd hslot hnot
    · exact ⟨h, hnot⟩
  · rintro ⟨h, hnot⟩
    exact ⟨.inr h, hnot⟩

/-- Every new cell takes the same number of bytes. -/
theorem footprint (hcaptures : Captures m slots after) (hsound : m.heap.Sound) :
    after.heap.footprint = m.heap.footprint + 80 * (missing m slots).card := by
  induction hcaptures with
  | done => simp [missing]
  | shared hslot _ ih => rw [ih hsound, missing_cons_of_mem hslot]
  | @opened m after slot rest parked hslot halike _ _ ih =>
    have hparked := hsound.of_alike halike
    have hsplit : missing m (slot :: rest) = insert slot (missing (m.capturing parked slot) rest) := by
      ext other
      simp only [missing, List.toFinset_cons, Finset.mem_sdiff, Finset.mem_insert, List.mem_toFinset,
        mem_openSlots_capturing]
      by_cases hother : other = slot
      · simp [hother, hslot]
      · simp [hother]
    have hfresh : slot ∉ missing (m.capturing parked slot) rest := by
      simp [missing, mem_openSlots_capturing]
    rw [ih (hparked.link (by simp [Object.references])), hsplit, Finset.card_insert_of_notMem hfresh,
      footprint_capturing hsound halike]
    omega

/-- If a new cell was needed, everything fits below the limit at the end. -/
theorem room (hcaptures : Captures m slots after) (hsound : m.heap.Sound)
    (hnew : (missing m slots).Nonempty) (hspace : after.heap.Addressable) :
    after.heap.footprint ≤ m.limit := by
  induction hcaptures with
  | done => simp [missing] at hnew
  | shared hslot _ ih =>
    rw [missing_cons_of_mem hslot] at hnew
    exact ih hsound hnew hspace
  | @opened m after slot rest parked hslot halike hfits hrest ih =>
    have hlinked : (m.capturing parked slot).heap.Sound :=
      (hsound.of_alike halike).link (by simp [Object.references])
    have htotal := hrest.footprint hlinked
    by_cases hmore : (missing (m.capturing parked slot) rest).Nonempty
    · have hlimit : (m.capturing parked slot).limit = m.limit :=
        congrArg (fun config => config.maxHeapBytes.toNat) halike.config
      exact hlimit ▸ ih hlinked hmore hspace
    · rw [Finset.not_nonempty_iff_eq_empty.mp hmore, Finset.card_empty] at htotal
      have hgrown := footprint_capturing hsound halike slot
      unfold Heap.Addressable at hspace
      have hroom := hfits (show _ < _ by omega)
      have hlive : m.live = m.heap.footprint :=
        hsound.accounted.toNat_bytesLive (show _ < _ by omega)
      omega

theorem kept_entry (hcaptures : Captures m slots after) {entry : OpenCell}
    (hentry : entry ∈ m.openCells) : entry ∈ after.openCells := by
  induction hcaptures with
  | done => exact hentry
  | shared _ _ ih => exact ih hentry
  | opened _ _ _ _ ih => exact ih (mem_insertCell.mpr (.inr hentry))

theorem openCellsSound (hcaptures : Captures m slots after) (hsound : m.heap.Sound)
    (hopen : OpenCellsSound m.heap m.openCells) : OpenCellsSound after.heap after.openCells := by
  induction hcaptures with
  | done => exact hopen
  | shared _ _ ih => exact ih hsound hopen
  | opened hslot halike _ _ ih =>
    exact ih ((hsound.of_alike halike).link (by simp [Object.references]))
      (openCellsSound_capturing hopen hsound.bounded halike hslot)

end Captures

/-- The slots that captures lead to, up to the first that leads nowhere. -/
def capturedSlots (base outer : Nat) : List Capture → List Nat
  | [] => []
  | capture :: rest =>
    if capture.isLocal then (base + capture.index) :: capturedSlots base outer rest
    else if capture.index < outer then capturedSlots base outer rest
    else []

/-- The cell that a capture gets: that of its slot, or one that the running closure has. -/
def CapturedCell (m : Machine) (base : Nat) (outer : Array (Option Ref)) (capture : Capture)
    (cell : Option Ref) : Prop :=
  if capture.isLocal then ∃ entry ∈ m.openCells, entry.slot = base + capture.index ∧ cell = some entry.cell
  else outer[capture.index]? = some cell

end Machine

namespace Exec

variable {m : Machine}

theorem captureCell_cases (hsound : m.heap.Sound) (slot : Nat) :
    (∃ entry ∈ m.openCells, entry.slot = slot ∧ captureCell slot m = .ok entry.cell m) ∨
    (slot ∉ m.openSlots ∧ ∃ parked, Heap.Alike m.heap parked ∧
      ((m.capturing parked slot).heap.Addressable → m.live + 80 ≤ m.limit) ∧
      captureCell slot m = .ok m.heap.nextRef (m.capturing parked slot)) ∨
    (slot ∉ m.openSlots ∧ m.limit < m.live + 80 ∧ ∃ after, m.GaveUp after ∧
      captureCell slot m = .error (.exhausted ⟨80⟩) after) := by
  simp only [captureCell]
  rw [get_bind_apply]
  cases hfind : m.openCells.find? (fun entry => entry.slot == slot) with
  | some entry =>
    have hslot := List.find?_some hfind
    exact .inl ⟨entry, List.mem_of_find?_eq_some hfind, by simpa using hslot, rfl⟩
  | none =>
    have hclosed : slot ∉ m.openSlots := by
      rw [Machine.mem_openSlots]
      rintro ⟨entry, hentry, hslot⟩
      have hnot := List.find?_eq_none.mp hfind entry hentry
      simp [hslot] at hnot
    refine .inr ?_
    dsimp only
    rw [bind_apply]
    rcases onHeap_allocate_cases (.upvalue (.opened slot)) hsound with
      ⟨parked, halike, hresult, hfits⟩ | ⟨after, hgave, hresult, hfull⟩
    · rw [hresult]
      exact .inl ⟨hclosed, parked, halike, hfits, rfl⟩
    · rw [hresult]
      refine .inr ⟨hclosed, hfull, after, hgave, ?_⟩
      simp only [allocationRequest]
      split <;> rfl

end Exec

end OwnScript
