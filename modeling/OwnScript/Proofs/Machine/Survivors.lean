import OwnScript.Proofs.Machine.Dispatch

/-!
What a collection leaves. Afterwards the roots lead to every object, so a machine that was just
collected takes no more room than any machine similar to it, apart from the cells that only one of
the two has.
-/

namespace OwnScript

theorem Heap.Collected.footprint_le {heap after : Heap} {roots : List Value}
    (hcollected : Heap.Collected heap roots after) : after.footprint ≤ heap.footprint := by
  have hkept {ref : Ref} (href : ref ∈ after.refs) : after.get? ref = heap.get? ref := by
    obtain ⟨object, hobject⟩ := Heap.mem_refs.mp href
    by_cases hreach : heap.Reachable roots ref
    · exact hcollected.reached ref hreach
    · rw [hcollected.lost ref hreach] at hobject
      cases hobject
  have hsub : after.refs ⊆ heap.refs := by
    intro ref href
    have hsame := hkept href
    rw [Heap.mem_refs] at href ⊢
    rwa [← hsame]
  have hsizes : after.footprint = ∑ ref ∈ after.refs, heap.sizeAt ref :=
    Finset.sum_congr rfl fun ref href => by rw [Heap.sizeAt, Heap.sizeAt, hkept href]
  rw [hsizes]
  exact Finset.sum_le_sum_of_subset hsub

namespace Machine

open Captures

/-- The roots lead to every object. -/
def Tidy (m : Machine) : Prop :=
  ∀ ref ∈ m.heap.refs, m.heap.Reachable m.roots ref

theorem tidy_collectGarbage {m : Machine} (hidle : m.heap.Idle) : m.collectGarbage.Tidy := by
  have hspec := Heap.collect_spec hidle m.roots
  intro ref href
  obtain ⟨object, hobject⟩ := Heap.mem_refs.mp href
  have hreach : m.heap.Reachable m.roots ref := by
    by_contra hlost
    rw [collectGarbage, hspec.lost ref hlost] at hobject
    cases hobject
  clear href hobject
  induction hreach with
  | root hvalue href => exact .root hvalue href
  | step hreach hfound htarget ih => exact .step ih ((hspec.reached _ hreach).trans hfound) htarget

/-- A safepoint is a collection or none, and notes where the machine stands. -/
theorem safepoint_cases (m : Machine) : ∃ trace,
    m.safepoint = { m.collectGarbage with instructionStart := m.ip, trace } ∨
      m.safepoint = { m with instructionStart := m.ip, trace } := by
  have hbase : (if m.heap.shouldCollect then m.collectGarbage else m) = m.collectGarbage ∨
      (if m.heap.shouldCollect then m.collectGarbage else m) = m := by
    split
    · exact .inl rfl
    · exact .inr rfl
  unfold safepoint
  dsimp only
  rcases hbase with hcollected | hsame
  · rw [hcollected]
    split
    · cases hchunk : m.collectGarbage.chunk with
      | some chunk => exact ⟨_, .inl rfl⟩
      | none => exact ⟨m.collectGarbage.trace, .inl rfl⟩
    · exact ⟨m.collectGarbage.trace, .inl rfl⟩
  · rw [hsame]
    split
    · cases hchunk : m.chunk with
      | some chunk => exact ⟨_, .inr rfl⟩
      | none => exact ⟨m.trace, .inr rfl⟩
    · exact ⟨m.trace, .inr rfl⟩

variable {ρ : Renaming} {left right : Machine}

/-- Whatever the roots lead to has a partner, or is a cell in the list of open ones. -/
theorem Similar.mentions_of_reachable (hsim : Similar ρ left right) {ref : Ref}
    (hreach : left.heap.Reachable left.roots ref) :
    ρ.Mentions ref ∨ ∃ entry ∈ left.openCells, entry.cell = ref := by
  have hpaired {value other : Value} {ref : Ref} (hrel : Value.Related ρ value other)
      (href : value.ref? = some ref) : ρ.Mentions ref := by
    obtain ⟨partner, _, hpair⟩ := hrel.mentions href
    exact .inl ⟨partner, hpair⟩
  have hlisted {xs ys : List Value} (hrel : List.Forall₂ (Value.Related ρ) xs ys) {value : Value}
      {ref : Ref} (hvalue : value ∈ xs) (href : value.ref? = some ref) : ρ.Mentions ref := by
    obtain ⟨other, _, h⟩ := exists_related_of_mem hrel hvalue
    exact hpaired h href
  induction hreach with
  | @root value ref hvalue href =>
    rcases (left.mem_roots_iff value).mp hvalue with
      h | h | ⟨frame, hframe, rfl⟩ | ⟨entry, hentry, rfl⟩ | h | h | rfl
    · exact .inl (hlisted hsim.stack h href)
    · obtain ⟨other, _, hrel⟩ := exists_related_of_mem hsim.globals h
      cases hrel with
      | some hrel => exact .inl (hpaired hrel href)
    · obtain ⟨other, _, hrel⟩ := exists_related_of_mem hsim.frames hframe
      cases href
      exact .inl (.inl ⟨_, hrel.closure⟩)
    · cases href
      exact .inr ⟨entry, hentry, rfl⟩
    · exact .inl (hlisted hsim.pinned h href)
    · exact .inl (hlisted hsim.hostValues h href)
    · exact .inl (hpaired hsim.result href)
  | @step ref target object _ hobject htarget ih =>
    refine .inl ?_
    rcases ih with (⟨other, hpair⟩ | ⟨other, hpair⟩) | ⟨entry, hentry, rfl⟩
    · obtain ⟨first, second, hfirst, -, hrel⟩ := hsim.heap.objects ref other hpair
      obtain rfl : object = first := Option.some.inj (hobject.symm.trans hfirst)
      obtain ⟨partner, _, hpaired | hpaired⟩ := hrel.references htarget
      · exact .inl ⟨partner, hpaired⟩
      · exact .inr ⟨partner, hpaired⟩
    · obtain ⟨first, second, hfirst, -, hrel⟩ := hsim.heap.cells ref other hpair
      obtain rfl : object = .upvalue first := Option.some.inj (hobject.symm.trans hfirst)
      obtain ⟨partner, _, hpaired⟩ := hrel.references htarget
      exact .inl ⟨partner, hpaired⟩
    · -- an open cell refers to nothing
      rw [hsim.leftOpen.opened entry hentry, Option.some.injEq] at hobject
      subst hobject
      simp [Object.references] at htarget

/-- The cells of slots that another machine has not captured. -/
def ownCells (m other : Machine) : Finset Ref :=
  ((m.openCells.filter (fun entry => entry.slot ∉ other.openSlots)).map (·.cell)).toFinset

theorem mem_ownCells {m other : Machine} {ref : Ref} :
    ref ∈ m.ownCells other ↔ ∃ entry ∈ m.openCells, entry.slot ∉ other.openSlots ∧ entry.cell = ref := by
  simp [ownCells, and_assoc]

theorem card_ownCells {m : Machine} (hopen : OpenCellsSound m.heap m.openCells) (other : Machine) :
    (m.ownCells other).card = (missing other m.openSlots).card := by
  have hslots : missing other m.openSlots =
      ((m.openCells.filter (fun entry => entry.slot ∉ other.openSlots)).map (·.slot)).toFinset := by
    ext slot
    simp only [missing, openSlots, Finset.mem_sdiff, List.mem_toFinset, List.mem_map, List.mem_filter,
      decide_eq_true_eq]
    constructor
    · rintro ⟨⟨entry, hentry, rfl⟩, hnot⟩
      exact ⟨entry, ⟨hentry, hnot⟩, rfl⟩
    · rintro ⟨entry, ⟨hentry, hnot⟩, rfl⟩
      exact ⟨⟨entry, hentry, rfl⟩, hnot⟩
  have hdescending := hopen.descending.filter (fun entry => entry.slot ∉ other.openSlots)
  rw [hslots, ownCells, List.toFinset_card_of_nodup, List.toFinset_card_of_nodup, List.length_map,
    List.length_map]
  · exact List.pairwise_map.mpr (hdescending.imp fun h => Nat.ne_of_gt h)
  · refine List.pairwise_map.mpr (hdescending.imp_of_mem fun {first second} hfirst hsecond hlt hcell => ?_)
    have hslot := hopen.slot_eq (List.mem_of_mem_filter hfirst) (List.mem_of_mem_filter hsecond) hcell
    omega

theorem ownCells_subset {m : Machine} (hopen : OpenCellsSound m.heap m.openCells) (other : Machine) :
    m.ownCells other ⊆ m.heap.refs := by
  intro ref href
  obtain ⟨entry, hentry, -, rfl⟩ := mem_ownCells.mp href
  exact Heap.mem_refs.mpr ⟨_, hopen.opened entry hentry⟩

/-- Every cell takes the same number of bytes. -/
theorem sum_ownCells {m : Machine} (hopen : OpenCellsSound m.heap m.openCells) (other : Machine) :
    ∑ ref ∈ m.ownCells other, m.heap.sizeAt ref = 80 * (missing other m.openSlots).card := by
  rw [← card_ownCells hopen, mul_comm, ← smul_eq_mul, ← Finset.sum_const]
  refine Finset.sum_congr rfl fun ref href => ?_
  obtain ⟨entry, hentry, -, rfl⟩ := mem_ownCells.mp href
  exact Heap.sizeAt_of_get? (hopen.opened entry hentry)

/-- A partner is no cell of a slot that only its own machine has captured. -/
theorem Similar.partner_not_own (hsim : Similar ρ left right) {a b : Ref}
    (hpair : ρ.object a b ∨ ρ.cell a b) : b ∉ right.ownCells left := by
  intro hown
  obtain ⟨entry, hentry, hslot, rfl⟩ := mem_ownCells.mp hown
  have hopened := hsim.rightOpen.opened entry hentry
  rcases hpair with hpair | hpair
  · obtain ⟨first, second, -, hsecond, hrel⟩ := hsim.heap.objects a _ hpair
    rw [hopened, Option.some.injEq] at hsecond
    exact hrel.swap.not_upvalue _ hsecond.symm
  · have hlisted := (hsim.swap.listed _ a entry.slot hpair hopened).2
    exact hslot (List.mem_map.mpr ⟨_, hlisted, rfl⟩)

theorem Similar.sizeAt_eq (hsim : Similar ρ left right) {a b : Ref}
    (hpair : ρ.object a b ∨ ρ.cell a b) : left.heap.sizeAt a = right.heap.sizeAt b := by
  rcases hpair with hpair | hpair
  · obtain ⟨first, second, hfirst, hsecond, hrel⟩ := hsim.heap.objects a b hpair
    rw [Heap.sizeAt_of_get? hfirst, Heap.sizeAt_of_get? hsecond, hrel.memorySize]
  · obtain ⟨first, second, hfirst, hsecond, -⟩ := hsim.heap.cells a b hpair
    rw [Heap.sizeAt_of_get? hfirst, Heap.sizeAt_of_get? hsecond]
    rfl

theorem Similar.partner_unique (hsim : Similar ρ left right) {a b c : Ref}
    (hfirst : ρ.object a c ∨ ρ.cell a c) (hsecond : ρ.object b c ∨ ρ.cell b c) : a = b := by
  rcases hfirst with hfirst | hfirst <;> rcases hsecond with hsecond | hsecond
  · exact hsim.heap.objectUnique.1 hfirst hsecond
  · exact absurd rfl (hsim.heap.ne_of_object_cell hfirst hsecond).2
  · exact absurd rfl (hsim.heap.ne_of_object_cell hsecond hfirst).2
  · exact hsim.heap.cellUnique.1 hfirst hsecond

/-- A tidy machine takes no more room than a machine similar to it, cells apart that only one of them
has. -/
theorem Similar.footprint_le (hsim : Similar ρ left right) (htidy : left.Tidy) :
    left.heap.footprint + 80 * (missing left right.openSlots).card ≤
      right.heap.footprint + 80 * (missing right left.openSlots).card := by
  classical
  have hpartner (ref : Ref) (href : ref ∈ left.heap.refs \ left.ownCells right) :
      ∃ other, ρ.object ref other ∨ ρ.cell ref other := by
    obtain ⟨hmem, hnot⟩ := Finset.mem_sdiff.mp href
    rcases hsim.mentions_of_reachable (htidy ref hmem) with
      (⟨other, hpair⟩ | ⟨other, hpair⟩) | ⟨entry, hentry, rfl⟩
    · exact ⟨other, .inl hpair⟩
    · exact ⟨other, .inr hpair⟩
    · have hshared : entry.slot ∈ right.openSlots := by
        by_contra hslot
        exact hnot (mem_ownCells.mpr ⟨entry, hentry, hslot, rfl⟩)
      obtain ⟨second, hsecond, hslot⟩ := List.mem_map.mp hshared
      exact ⟨second.cell, .inr (hsim.captured entry hentry second hsecond hslot.symm)⟩
  choose! partner hpaired using hpartner
  have hinjective : Set.InjOn partner (left.heap.refs \ left.ownCells right : Finset Ref) := by
    intro a ha b hb heq
    exact hsim.partner_unique (hpaired a ha) (heq ▸ hpaired b hb)
  have himage : (left.heap.refs \ left.ownCells right).image partner ⊆
      right.heap.refs \ right.ownCells left := by
    intro other hother
    obtain ⟨ref, href, rfl⟩ := Finset.mem_image.mp hother
    have hpair := hpaired ref href
    refine Finset.mem_sdiff.mpr ⟨?_, hsim.partner_not_own hpair⟩
    exact hsim.swap.heap.mem_refs_of_mentions (hpair.imp (fun h => ⟨ref, h⟩) fun h => ⟨ref, h⟩)
  have hshared : ∑ ref ∈ left.heap.refs \ left.ownCells right, left.heap.sizeAt ref ≤
      ∑ ref ∈ right.heap.refs \ right.ownCells left, right.heap.sizeAt ref := by
    calc
      _ = ∑ ref ∈ left.heap.refs \ left.ownCells right, right.heap.sizeAt (partner ref) :=
        Finset.sum_congr rfl fun ref href => hsim.sizeAt_eq (hpaired ref href)
      _ = ∑ ref ∈ (left.heap.refs \ left.ownCells right).image partner, right.heap.sizeAt ref :=
        (Finset.sum_image hinjective).symm
      _ ≤ _ := Finset.sum_le_sum_of_subset himage
  have hleft := Finset.sum_sdiff (f := left.heap.sizeAt) (ownCells_subset hsim.leftOpen right)
  have hright := Finset.sum_sdiff (f := right.heap.sizeAt) (ownCells_subset hsim.rightOpen left)
  rw [sum_ownCells hsim.leftOpen] at hleft
  rw [sum_ownCells hsim.rightOpen] at hright
  unfold Heap.footprint
  omega

end Machine

end OwnScript
