import OwnScript.Proofs.Heap.Sweep

/-!
What holds of a heap between any two steps of a machine: objects lie below the next reference, no
collection is under way, the account is that of the objects, and every reference inside an object
leads to an object.
-/

namespace OwnScript.Heap

/-- A heap between two steps. -/
structure Sound (heap : Heap) : Prop where
  bounded : heap.Bounded
  idle : heap.Idle
  accounted : heap.Accounted
  closed : ∀ ref object, heap.get? ref = some object →
    ∀ target ∈ object.references, target ∈ heap.refs

theorem maxHeapBytes_ofConfig (config : HeapConfig) :
    (ofConfig config).config.maxHeapBytes = config.maxHeapBytes := by
  unfold ofConfig
  dsimp only
  split
  · rfl
  · rfl

theorem footprint_ofConfig (config : HeapConfig) : (ofConfig config).footprint = 0 := by
  have hrefs : (ofConfig config).refs = ∅ := by
    ext ref
    simp [get?, ofConfig]
  rw [footprint, hrefs, Finset.sum_empty]

theorem sound_ofConfig (config : HeapConfig) : (ofConfig config).Sound := by
  have hempty (ref : Ref) : (ofConfig config).cells[ref]? = none := by simp [ofConfig]
  have hget (ref : Ref) : (ofConfig config).get? ref = none := by simp [get?, hempty]
  refine ⟨fun ref object hobject => ?_, ⟨rfl, rfl, fun ref => ?_⟩, ⟨fun ref cell hcell => ?_, ?_⟩,
    fun ref object hobject => ?_⟩
  · simp [hget] at hobject
  · simp [isMarked, hempty]
  · simp [hempty] at hcell
  · rw [footprint_ofConfig]
    rfl
  · simp [hget] at hobject

theorem Idle.link {heap : Heap} (hidle : heap.Idle) (object : Object) : (heap.link object).Idle := by
  refine ⟨hidle.gray, hidle.collecting, fun ref => ?_⟩
  have hunmarked := hidle.unmarked ref
  unfold isMarked at hunmarked ⊢
  rw [Heap.link, getElem?_insert_ref]
  split
  · rfl
  · exact hunmarked

theorem Idle.update {heap : Heap} (hidle : heap.Idle) (target : Ref) (object : Object) :
    (heap.update target object).Idle := by
  refine ⟨hidle.gray, hidle.collecting, fun ref => ?_⟩
  rw [isMarked, Heap.update, Std.TreeMap.getElem?_modify]
  split
  · rw [Option.any_map]
    exact hidle.unmarked target
  · exact hidle.unmarked ref

theorem Idle.recordSize {heap : Heap} (hidle : heap.Idle) (target : Ref) (size : UInt64) :
    (heap.recordSize target size).Idle := by
  unfold Heap.recordSize
  cases hcell : heap.cells[target]? with
  | none => exact hidle
  | some cell =>
    have hmark : cell.marked = false := by
      have hunmarked := hidle.unmarked target
      rw [isMarked, hcell] at hunmarked
      exact hunmarked
    have hentered (ref : Ref) :
        ((heap.cells.insert target { cell with trackedSize := size })[ref]?).any (·.marked) = false := by
      rw [getElem?_insert_ref]
      split
      · exact hmark
      · exact hidle.unmarked ref
    simp only
    split
    · exact ⟨hidle.gray, hidle.collecting, hentered⟩
    · exact ⟨hidle.gray, hidle.collecting, hentered⟩

namespace Sound

variable {heap : Heap}

theorem of_alike (hsound : heap.Sound) {other : Heap} (halike : Alike heap other) : other.Sound := by
  have hrefs : other.refs = heap.refs := by
    ext ref
    simp [halike.get?]
  refine ⟨hsound.bounded.of_refs_eq hrefs halike.nextRef, ⟨?_, ?_, fun ref => ?_⟩,
    hsound.accounted.of_alike halike, fun ref object hobject target htarget => ?_⟩
  · rw [halike.gray]
    exact hsound.idle.gray
  · rw [halike.collecting]
    exact hsound.idle.collecting
  · rw [isMarked, halike.cells]
    exact hsound.idle.unmarked ref
  · rw [hrefs]
    rw [halike.get?] at hobject
    exact hsound.closed ref object hobject target htarget

theorem link (hsound : heap.Sound) {object : Object}
    (hrefs : ∀ target ∈ object.references, target ∈ heap.refs) : (heap.link object).Sound := by
  refine ⟨hsound.bounded.link object, hsound.idle.link object,
    hsound.accounted.link hsound.bounded object, fun ref found hfound target htarget => ?_⟩
  have hthere : target ∈ heap.refs := by
    rw [get?_link] at hfound
    split at hfound
    · obtain rfl := Option.some.inj hfound
      exact hrefs target htarget
    · exact hsound.closed ref found hfound target htarget
  rw [refs_link]
  exact Finset.mem_insert_of_mem hthere

/-- Replacing an object keeps every reference good, if those of the new object are. -/
private theorem closed_replace (hsound : heap.Sound) {other : Heap} {target : Ref} {new : Object}
    (hget : ∀ ref, other.get? ref =
      if ref = target then (heap.get? ref).map (fun _ => new) else heap.get? ref)
    (hrefs : ∀ ref ∈ new.references, ref ∈ heap.refs) (hsame : other.refs = heap.refs) :
    ∀ ref object, other.get? ref = some object → ∀ found ∈ object.references, found ∈ other.refs := by
  intro ref object hobject found hfound
  rw [hsame]
  rw [hget] at hobject
  split at hobject
  · obtain ⟨before, -, rfl⟩ := Option.map_eq_some_iff.mp hobject
    exact hrefs found hfound
  · exact hsound.closed ref object hobject found hfound

theorem update (hsound : heap.Sound) {target : Ref} {old new : Object}
    (hold : heap.get? target = some old) (hsize : new.memorySize = old.memorySize)
    (hrefs : ∀ ref ∈ new.references, ref ∈ heap.refs) : (heap.update target new).Sound := by
  have hsame := refs_update heap target new
  exact ⟨hsound.bounded.of_refs_eq hsame rfl, hsound.idle.update target new,
    hsound.accounted.update hold hsize, hsound.closed_replace (get?_update heap target new) hrefs hsame⟩

theorem store (hsound : heap.Sound) {target : Ref} {old new : Object}
    (hold : heap.get? target = some old)
    (hrefs : ∀ ref ∈ new.references, ref ∈ heap.refs) : (heap.store target new).Sound := by
  have hsame := refs_store heap target new
  exact ⟨hsound.bounded.of_refs_eq hsame (nextRef_store heap target new),
    (hsound.idle.update target new).recordSize target _, hsound.accounted.store hold new,
    hsound.closed_replace (get?_store heap target new) hrefs hsame⟩

/-- What a collection keeps, it keeps with everything it leads to. -/
theorem collect (hsound : heap.Sound) (roots : List Value) : (heap.collect roots).1.Sound := by
  have hcollected := collect_spec hsound.idle roots
  have hkept {ref : Ref} {object : Object} (hobject : (heap.collect roots).1.get? ref = some object) :
      heap.Reachable roots ref ∧ heap.get? ref = some object := by
    by_cases hreach : heap.Reachable roots ref
    · exact ⟨hreach, by rw [← hcollected.reached ref hreach]; exact hobject⟩
    · rw [hcollected.lost ref hreach] at hobject
      simp at hobject
  refine ⟨fun ref object hobject => ?_, hcollected.idle, hcollected.accounted hsound.accounted,
    fun ref object hobject target htarget => ?_⟩
  · rw [hcollected.nextRef]
    exact hsound.bounded ref object (hkept hobject).2
  · obtain ⟨hreach, hbefore⟩ := hkept hobject
    obtain ⟨found, hfound⟩ := mem_refs.mp (hsound.closed ref object hbefore target htarget)
    refine mem_refs.mpr ⟨found, ?_⟩
    rw [hcollected.reached target (.step hreach hbefore htarget)]
    exact hfound

end Sound

end OwnScript.Heap
