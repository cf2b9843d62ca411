import OwnScript.Proofs.Heap.Lookup

/-!
A collection keeps exactly the objects that its roots lead to. Marking is followed step by step:
everything marked is reachable, whatever is marked and no longer waiting has all its references
marked, and an object waits at most once, so that the walk ends with nothing waiting.
-/

namespace OwnScript

/-- A cell without its mark. -/
def Cell.contents (cell : Cell) : Object × UInt64 :=
  (cell.object, cell.trackedSize)

namespace Heap

/-- Whether an object carries a mark. -/
def isMarked (heap : Heap) (ref : Ref) : Bool :=
  heap.cells[ref]?.any (·.marked)

/-- The references that roots lead to, through the objects that they meet on the way. -/
inductive Reachable (heap : Heap) (roots : List Value) : Ref → Prop where
  | root {value : Value} {ref : Ref} :
      value ∈ roots → value.ref? = some ref → Reachable heap roots ref
  | step {ref target : Ref} {object : Object} :
      Reachable heap roots ref → heap.get? ref = some object → target ∈ object.references →
        Reachable heap roots target

/-- No collection is under way: nothing is marked and nothing waits. -/
structure Idle (heap : Heap) : Prop where
  gray : heap.gray = []
  collecting : heap.collecting = false
  unmarked : ∀ ref, heap.isMarked ref = false

/-- Two heaps that differ only in marks and in what waits to be followed. -/
structure Retouched (heap other : Heap) : Prop where
  cell : ∀ ref : Ref, other.cells[ref]?.map Cell.contents = heap.cells[ref]?.map Cell.contents
  rest : other = { heap with cells := other.cells, gray := other.gray }

namespace Retouched

variable {first second third : Heap}

theorem refl (heap : Heap) : Retouched heap heap := ⟨fun _ => rfl, rfl⟩

theorem trans (hfirst : Retouched first second) (hsecond : Retouched second third) :
    Retouched first third := by
  refine ⟨fun ref => (hsecond.cell ref).trans (hfirst.cell ref), ?_⟩
  rw [hsecond.rest, hfirst.rest]

theorem get? (htouched : Retouched first second) (ref : Ref) : second.get? ref = first.get? ref := by
  have hcell := congrArg (Option.map Prod.fst) (htouched.cell ref)
  simpa only [Heap.get?, Option.map_map, Function.comp_def, Cell.contents] using hcell

theorem refs (htouched : Retouched first second) : second.refs = first.refs := by
  ext ref
  simp only [mem_refs, htouched.get?]

end Retouched

theorem markRef_of_marked {heap : Heap} {target : Ref} (hmarked : heap.isMarked target = true) :
    heap.markRef target = heap := by
  unfold isMarked at hmarked
  unfold markRef
  cases hcell : heap.cells[target]? with
  | none => rfl
  | some cell =>
    rw [hcell] at hmarked
    simp only [Option.any_some] at hmarked
    simp [hmarked]

theorem markRef_of_missing {heap : Heap} {target : Ref} (hmissing : heap.get? target = none) :
    heap.markRef target = heap := by
  have hcell : heap.cells[target]? = none := by simpa [Heap.get?] using hmissing
  simp [markRef, hcell]

/-- Marking an object that is there and has no mark yet puts it on the waiting list. -/
theorem markRef_of_unmarked {heap : Heap} {target : Ref} {object : Object}
    (hget : heap.get? target = some object) (hunmarked : heap.isMarked target = false) :
    Retouched heap (heap.markRef target) ∧ (heap.markRef target).gray = target :: heap.gray ∧
      ∀ ref, (heap.markRef target).isMarked ref = (heap.isMarked ref || decide (ref = target)) := by
  obtain ⟨cell, hcell, _⟩ := Option.map_eq_some_iff.mp hget
  have hmark : cell.marked = false := by simpa [isMarked, hcell] using hunmarked
  have hstep : heap.markRef target =
      { heap with
        cells := heap.cells.insert target { cell with marked := true }
        gray := target :: heap.gray } := by
    simp [markRef, hcell, hmark]
  rw [hstep]
  refine ⟨⟨fun ref => ?_, rfl⟩, rfl, fun ref => ?_⟩
  · by_cases href : ref = target <;> simp [getElem?_insert_ref, href, hcell, Cell.contents]
  · by_cases href : ref = target <;> simp [isMarked, getElem?_insert_ref, href]

/-- What one mark does, whether or not the object is there and has a mark already. -/
theorem markRef_spec (heap : Heap) (target : Ref) :
    Retouched heap (heap.markRef target) ∧
      (∀ ref, (heap.markRef target).isMarked ref = true ↔
        heap.isMarked ref = true ∨ ref = target ∧ target ∈ heap.refs) ∧
      (∀ ref, ref ∈ (heap.markRef target).gray ↔
        ref ∈ heap.gray ∨ ref = target ∧ target ∈ heap.refs ∧ heap.isMarked target = false) := by
  cases hmarked : heap.isMarked target with
  | true =>
    rw [markRef_of_marked hmarked]
    refine ⟨Retouched.refl heap, fun ref => ⟨Or.inl, ?_⟩, fun ref => by simp⟩
    rintro (h | ⟨rfl, -⟩)
    · exact h
    · exact hmarked
  | false =>
    cases hget : heap.get? target with
    | none =>
      rw [markRef_of_missing hget]
      simp [Retouched.refl, hget]
    | some object =>
      obtain ⟨htouched, hgray, hmarks⟩ := markRef_of_unmarked hget hmarked
      refine ⟨htouched, fun ref => ?_, fun ref => ?_⟩
      · simp [hmarks, hget]
      · simp [hgray, hget, or_comm]

/-- The objects that are not marked yet. -/
def unmarkedRefs (heap : Heap) : Finset Ref :=
  heap.refs.filter (fun ref => heap.isMarked ref = false)

/-- An upper bound on the steps that a walk still takes. -/
def pending (heap : Heap) : Nat :=
  heap.gray.length + heap.unmarkedRefs.card

theorem pending_markRef (heap : Heap) (target : Ref) :
    (heap.markRef target).pending = heap.pending := by
  cases hmarked : heap.isMarked target with
  | true => rw [markRef_of_marked hmarked]
  | false =>
    cases hget : heap.get? target with
    | none => rw [markRef_of_missing hget]
    | some object =>
      obtain ⟨htouched, hgray, hmarks⟩ := markRef_of_unmarked hget hmarked
      have hmem : target ∈ heap.unmarkedRefs := by
        simp only [unmarkedRefs, Finset.mem_filter, mem_refs]
        exact ⟨⟨object, hget⟩, hmarked⟩
      have hunmarked : (heap.markRef target).unmarkedRefs = heap.unmarkedRefs.erase target := by
        ext ref
        simp only [unmarkedRefs, htouched.refs, hmarks, Finset.mem_filter, Finset.mem_erase,
          Bool.or_eq_false_iff, decide_eq_false_iff_not]
        tauto
      have hcard := Finset.card_erase_add_one hmem
      simp only [pending, hgray, hunmarked, List.length_cons]
      omega

/-- The walk of a collection in progress: marks are sound, and whatever is marked and does not
wait has been followed, apart from the objects at hand. -/
structure Tracing (start : Heap) (roots : List Value) (atHand : Set Ref) (heap : Heap) : Prop where
  retouched : Retouched start heap
  sound : ∀ ref, heap.isMarked ref = true → start.Reachable roots ref
  waiting : ∀ ref ∈ heap.gray, heap.isMarked ref = true
  followed : ∀ ref object, heap.isMarked ref = true → ref ∉ heap.gray → ref ∉ atHand →
    start.get? ref = some object → ∀ target ∈ object.references, target ∈ start.refs →
      heap.isMarked target = true

variable {start heap : Heap} {roots : List Value} {atHand : Set Ref}

/-- Marking something reachable keeps the walk going. -/
theorem Tracing.markRef (htracing : Tracing start roots atHand heap) {target : Ref}
    (hreach : start.Reachable roots target) : Tracing start roots atHand (heap.markRef target) := by
  obtain ⟨htouched, hmarks, hgray⟩ := markRef_spec heap target
  refine ⟨htracing.retouched.trans htouched, ?_, ?_, ?_⟩
  · intro ref href
    rcases (hmarks ref).mp href with h | ⟨rfl, -⟩
    · exact htracing.sound ref h
    · exact hreach
  · intro ref href
    rw [hmarks]
    rcases (hgray ref).mp href with h | ⟨rfl, hmem, -⟩
    · exact Or.inl (htracing.waiting ref h)
    · exact Or.inr ⟨rfl, hmem⟩
  · intro ref object href hnot hhand hget child hchild hmem
    rw [hmarks]
    refine Or.inl ?_
    rw [hgray, not_or] at hnot
    have hbefore : heap.isMarked ref = true := by
      rcases (hmarks ref).mp href with h | ⟨rfl, hthere⟩
      · exact h
      · by_contra hunmarked
        exact hnot.2 ⟨rfl, hthere, by simpa using hunmarked⟩
    exact htracing.followed ref object hbefore hnot.1 hhand hget child hchild hmem

theorem Tracing.foldl_markRef (targets : List Ref) (htracing : Tracing start roots atHand heap)
    (hreach : ∀ target ∈ targets, start.Reachable roots target) :
    Tracing start roots atHand (targets.foldl Heap.markRef heap) := by
  induction targets generalizing heap with
  | nil => exact htracing
  | cons target rest ih =>
    exact ih (htracing.markRef (hreach target (List.mem_cons_self ..)))
      (fun other hother => hreach other (List.mem_cons_of_mem _ hother))

theorem isMarked_foldl_markRef (targets : List Ref) (heap : Heap) (ref : Ref) :
    (targets.foldl Heap.markRef heap).isMarked ref = true ↔
      heap.isMarked ref = true ∨ ref ∈ targets ∧ ref ∈ heap.refs := by
  induction targets generalizing heap with
  | nil => simp
  | cons target rest ih =>
    obtain ⟨htouched, hmarks, -⟩ := markRef_spec heap target
    rw [List.foldl_cons, ih, hmarks, htouched.refs, List.mem_cons]
    constructor
    · rintro ((h | ⟨rfl, h⟩) | ⟨hrest, h⟩)
      · exact Or.inl h
      · exact Or.inr ⟨Or.inl rfl, h⟩
      · exact Or.inr ⟨Or.inr hrest, h⟩
    · rintro (h | ⟨rfl | hrest, h⟩)
      · exact Or.inl (Or.inl h)
      · exact Or.inl (Or.inr ⟨rfl, h⟩)
      · exact Or.inr ⟨hrest, h⟩

theorem pending_foldl_markRef (targets : List Ref) (heap : Heap) :
    (targets.foldl Heap.markRef heap).pending = heap.pending := by
  induction targets generalizing heap with
  | nil => rfl
  | cons target rest ih => rw [List.foldl_cons, ih, pending_markRef]

/-- Following one object marks what it refers to, and takes one step off the bound. While its
references are being marked the object itself is at hand. -/
theorem Tracing.follow (htracing : Tracing start roots ∅ heap) {ref : Ref} {gray : List Ref}
    (hgray : heap.gray = ref :: gray) :
    let popped := { heap with gray }
    let next := (((popped.get? ref).map Object.references).getD []).foldl Heap.markRef popped
    Tracing start roots ∅ next ∧ next.pending + 1 = heap.pending := by
  intro popped next
  have hreach : start.Reachable roots ref :=
    htracing.sound ref (htracing.waiting ref (by simp [hgray]))
  have hpopped : popped.get? ref = start.get? ref := htracing.retouched.get? ref
  have htargets : ∀ target ∈ ((popped.get? ref).map Object.references).getD [],
      start.Reachable roots target := by
    intro target htarget
    rw [hpopped] at htarget
    cases hget : start.get? ref with
    | none => simp [hget] at htarget
    | some object =>
      rw [hget] at htarget
      exact .step hreach hget htarget
  have hatHand : Tracing start roots {ref} popped := by
    refine ⟨⟨htracing.retouched.cell, ?_⟩, htracing.sound, ?_, ?_⟩
    · change { heap with gray } = { start with cells := heap.cells, gray }
      rw [htracing.retouched.rest]
    · intro other hother
      exact htracing.waiting other (by rw [hgray]; exact List.mem_cons_of_mem _ hother)
    · intro other object hmarked hnot hhand hget
      refine htracing.followed other object hmarked ?_ (Set.notMem_empty _) hget
      rw [hgray, List.mem_cons, not_or]
      exact ⟨by simpa using hhand, hnot⟩
  have hnext : Tracing start roots {ref} next := hatHand.foldl_markRef _ htargets
  refine ⟨⟨hnext.retouched, hnext.sound, hnext.waiting, ?_⟩, ?_⟩
  · intro other object hmarked hnot _ hget target htarget hmem
    by_cases hother : other = ref
    · subst hother
      refine (isMarked_foldl_markRef _ popped target).mpr (Or.inr ⟨?_, ?_⟩)
      · rw [hpopped, hget]
        exact htarget
      · rwa [hatHand.retouched.refs]
    · exact hnext.followed other object hmarked hnot (by simpa using hother) hget target htarget hmem
  · have hpending : next.pending = popped.pending := pending_foldl_markRef _ popped
    have hcount : heap.pending = popped.pending + 1 := by
      simp only [pending, hgray, List.length_cons]
      change gray.length + 1 + heap.unmarkedRefs.card = gray.length + heap.unmarkedRefs.card + 1
      omega
    omega

theorem Tracing.traceSteps (steps : Nat) (htracing : Tracing start roots ∅ heap)
    (hsteps : heap.pending ≤ steps) :
    Tracing start roots ∅ (Heap.traceSteps steps heap) ∧ (Heap.traceSteps steps heap).gray = [] := by
  induction steps generalizing heap with
  | zero =>
    have hnil : heap.gray.length = 0 := by
      have : heap.gray.length ≤ heap.pending := Nat.le_add_right _ _
      omega
    exact ⟨htracing, List.length_eq_zero_iff.mp hnil⟩
  | succ steps ih =>
    unfold Heap.traceSteps
    cases hgray : heap.gray with
    | nil => exact ⟨htracing, hgray⟩
    | cons ref gray =>
      obtain ⟨hnext, hpending⟩ := htracing.follow hgray
      exact ih hnext (by omega)

end Heap

end OwnScript
