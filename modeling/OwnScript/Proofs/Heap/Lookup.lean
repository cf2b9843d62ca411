import Mathlib
import OwnScript.Heap.Collection
import OwnScript.Proofs.Stateful

/-!
What the operations of a heap do to the objects under its references. Everything a program sees of
a heap goes through `Heap.get?`, so later arguments about heaps cite these equations and never
unfold an operation.
-/

namespace OwnScript.Heap

open Stateful

/-- Two heaps that differ only in what is parked for reuse. Allocation goes through such heaps
before it enters an object, or before it gives up. -/
structure Alike (heap other : Heap) : Prop where
  cells : other.cells = heap.cells
  nextRef : other.nextRef = heap.nextRef
  gray : other.gray = heap.gray
  collecting : other.collecting = heap.collecting
  config : other.config = heap.config
  bytesLive : other.statistics.bytesLive = heap.statistics.bytesLive

namespace Alike

variable {first second third : Heap}

theorem refl (heap : Heap) : Alike heap heap := ⟨rfl, rfl, rfl, rfl, rfl, rfl⟩

theorem trans (hfirst : Alike first second) (hsecond : Alike second third) : Alike first third where
  cells := hsecond.cells.trans hfirst.cells
  nextRef := hsecond.nextRef.trans hfirst.nextRef
  gray := hsecond.gray.trans hfirst.gray
  collecting := hsecond.collecting.trans hfirst.collecting
  config := hsecond.config.trans hfirst.config
  bytesLive := hsecond.bytesLive.trans hfirst.bytesLive

theorem get? (halike : Alike first second) (ref : Ref) : second.get? ref = first.get? ref := by
  rw [Heap.get?, Heap.get?, halike.cells]

end Alike

theorem alike_acquireBlock (heap : Heap) (size : Nat) : Alike heap (heap.acquireBlock size) := by
  unfold acquireBlock
  split
  · exact ⟨rfl, rfl, rfl, rfl, rfl, rfl⟩
  · exact Alike.refl heap

theorem alike_releaseBlock (heap : Heap) (size : Nat) : Alike heap (heap.releaseBlock size) := by
  unfold releaseBlock
  split
  · exact Alike.refl heap
  · exact ⟨rfl, rfl, rfl, rfl, rfl, rfl⟩

/-- An allocation either enters the object under the next reference or leaves all objects alone.
Its outcome depends on the bytes in use and on the limit only. -/
theorem allocate_cases (object : Object) (heap : Heap) :
    (∃ parked, Alike heap parked ∧
      heap.statistics.bytesLive + object.blockSize.toUInt64 ≤ heap.config.maxHeapBytes ∧
      heap.statistics.bytesLive + object.memorySize.toUInt64 ≤ heap.config.maxHeapBytes ∧
      allocate object heap = .ok heap.nextRef (parked.link object)) ∨
    (heap.config.maxHeapBytes < heap.statistics.bytesLive + object.blockSize.toUInt64 ∧
      allocate object heap = .error ⟨object.blockSize.toUInt64⟩ heap) ∨
    (∃ parked, Alike heap parked ∧
      heap.statistics.bytesLive + object.blockSize.toUInt64 ≤ heap.config.maxHeapBytes ∧
      heap.config.maxHeapBytes < heap.statistics.bytesLive + object.memorySize.toUInt64 ∧
      allocate object heap = .error ⟨object.memorySize.toUInt64⟩ parked) := by
  have hacquired := alike_acquireBlock heap object.blockSize
  by_cases hblock : heap.config.maxHeapBytes < heap.statistics.bytesLive + object.blockSize.toUInt64
  · refine Or.inr (Or.inl ⟨hblock, ?_⟩)
    simp [allocate, bind_apply, hblock]
  · by_cases hsize : heap.config.maxHeapBytes <
        heap.statistics.bytesLive + object.memorySize.toUInt64
    · refine Or.inr (Or.inr ⟨_, hacquired.trans (alike_releaseBlock _ object.blockSize),
        UInt64.not_lt.mp hblock, hsize, ?_⟩)
      simp [allocate, bind_apply, hblock, hsize, hacquired.config, hacquired.bytesLive]
    · refine Or.inl ⟨_, hacquired, UInt64.not_lt.mp hblock, UInt64.not_lt.mp hsize, ?_⟩
      simp [allocate, bind_apply, hblock, hsize, hacquired.config, hacquired.bytesLive,
        hacquired.nextRef]

theorem ensureHeadroom_cases (bytes : UInt64) (heap : Heap) :
    (bytes ≤ heap.config.maxHeapBytes ∧
      heap.statistics.bytesLive ≤ heap.config.maxHeapBytes - bytes ∧
      ensureHeadroom bytes heap = .ok () heap) ∨
    ((heap.config.maxHeapBytes < bytes ∨
        heap.config.maxHeapBytes - bytes < heap.statistics.bytesLive) ∧
      ensureHeadroom bytes heap = .error ⟨bytes⟩ heap) := by
  by_cases hfull : heap.config.maxHeapBytes < bytes ∨
      heap.config.maxHeapBytes - bytes < heap.statistics.bytesLive
  · refine Or.inr ⟨hfull, ?_⟩
    simp [ensureHeadroom, bind_apply, hfull]
  · have hroom := not_or.mp hfull
    refine Or.inl ⟨UInt64.not_lt.mp hroom.1, UInt64.not_lt.mp hroom.2, ?_⟩
    simp [ensureHeadroom, bind_apply, hroom.1, hroom.2]

/-- The objects of a heap all lie below the next reference, so that a new object takes nobody's
place. -/
def Bounded (heap : Heap) : Prop :=
  ∀ ref object, heap.get? ref = some object → ref < heap.nextRef

theorem Bounded.get?_nextRef {heap : Heap} (hbounded : heap.Bounded) :
    heap.get? heap.nextRef = none := by
  cases hget : heap.get? heap.nextRef with
  | none => rfl
  | some object => exact absurd (hbounded _ _ hget) (lt_irrefl _)

theorem getElem?_insert_ref {α : Type} (cells : Std.TreeMap Ref α) (target ref : Ref) (value : α) :
    (cells.insert target value)[ref]? = if ref = target then some value else cells[ref]? := by
  rw [Std.TreeMap.getElem?_insert]
  exact if_congr (Std.LawfulEqCmp.compare_eq_iff_eq.trans eq_comm) rfl rfl

theorem get?_link (heap : Heap) (object : Object) (ref : Ref) :
    (heap.link object).get? ref = if ref = heap.nextRef then some object else heap.get? ref := by
  unfold Heap.get? link
  by_cases href : ref = heap.nextRef <;> simp [getElem?_insert_ref, href]

@[simp] theorem nextRef_link (heap : Heap) (object : Object) :
    (heap.link object).nextRef = heap.nextRef + 1 := rfl

theorem get?_update (heap : Heap) (target : Ref) (object : Object) (ref : Ref) :
    (heap.update target object).get? ref =
      if ref = target then (heap.get? ref).map (fun _ => object) else heap.get? ref := by
  unfold Heap.get? update
  simp only [Std.TreeMap.getElem?_modify, Std.LawfulEqCmp.compare_eq_iff_eq]
  by_cases href : ref = target
  · simp [href, Option.map_map, Function.comp_def]
  · simp [href, Ne.symm href]

theorem get?_update_of_ne {heap : Heap} {target ref : Ref} {object : Object} (hne : ref ≠ target) :
    (heap.update target object).get? ref = heap.get? ref := by
  rw [get?_update, if_neg hne]

@[simp] theorem nextRef_update (heap : Heap) (target : Ref) (object : Object) :
    (heap.update target object).nextRef = heap.nextRef := rfl

theorem get?_recordSize (heap : Heap) (target : Ref) (size : UInt64) (ref : Ref) :
    (heap.recordSize target size).get? ref = heap.get? ref := by
  unfold Heap.get? recordSize
  cases hcell : heap.cells[target]? with
  | none => rfl
  | some cell =>
    have hentered : ((heap.cells.insert target { cell with trackedSize := size })[ref]?).map
        (·.object) = (heap.cells[ref]?).map (·.object) := by
      by_cases href : ref = target <;> simp [getElem?_insert_ref, href, hcell]
    simp only
    split <;> exact hentered

@[simp] theorem nextRef_recordSize (heap : Heap) (target : Ref) (size : UInt64) :
    (heap.recordSize target size).nextRef = heap.nextRef := by
  unfold recordSize
  split
  · rfl
  · split <;> rfl

theorem get?_store (heap : Heap) (target : Ref) (object : Object) (ref : Ref) :
    (heap.store target object).get? ref =
      if ref = target then (heap.get? ref).map (fun _ => object) else heap.get? ref := by
  rw [store, get?_recordSize, get?_update]

@[simp] theorem nextRef_store (heap : Heap) (target : Ref) (object : Object) :
    (heap.store target object).nextRef = heap.nextRef := by
  rw [store, nextRef_recordSize, nextRef_update]

/-- The references of a heap. -/
def refs (heap : Heap) : Finset Ref :=
  heap.cells.keys.toFinset

@[simp] theorem mem_refs {heap : Heap} {ref : Ref} :
    ref ∈ heap.refs ↔ ∃ object, heap.get? ref = some object := by
  unfold refs get?
  rw [List.mem_toFinset, Std.TreeMap.mem_keys, Std.TreeMap.mem_iff_isSome_getElem?,
    Option.isSome_iff_exists]
  simp [Option.map_eq_some_iff]

theorem refs_link (heap : Heap) (object : Object) :
    (heap.link object).refs = insert heap.nextRef heap.refs := by
  ext ref
  by_cases href : ref = heap.nextRef <;> simp [get?_link, href]

theorem refs_update (heap : Heap) (target : Ref) (object : Object) :
    (heap.update target object).refs = heap.refs := by
  ext ref
  by_cases href : ref = target <;> simp [get?_update, href]

theorem refs_store (heap : Heap) (target : Ref) (object : Object) :
    (heap.store target object).refs = heap.refs := by
  ext ref
  by_cases href : ref = target <;> simp [get?_store, href]

theorem Bounded.link {heap : Heap} (hbounded : heap.Bounded) (object : Object) :
    (heap.link object).Bounded := by
  intro ref found hget
  rw [get?_link] at hget
  rw [nextRef_link]
  by_cases href : ref = heap.nextRef
  · exact href ▸ Nat.lt_succ_self _
  · rw [if_neg href] at hget
    exact Nat.lt_succ_of_lt (hbounded ref found hget)

theorem Bounded.of_refs_eq {heap other : Heap} (hbounded : heap.Bounded)
    (hrefs : other.refs = heap.refs) (hnext : other.nextRef = heap.nextRef) : other.Bounded := by
  intro ref found hget
  have hmem : ref ∈ heap.refs := by rw [← hrefs, mem_refs]; exact ⟨found, hget⟩
  obtain ⟨object, hobject⟩ := mem_refs.mp hmem
  rw [hnext]
  exact hbounded ref object hobject

end OwnScript.Heap
