import OwnScript.Proofs.Heap.Lookup

/-!
The bytes of a heap. The account that allocation consults is the sum of the sizes of all objects,
modulo the width of a word; it is exact as long as the objects together fit into an address space.
-/

namespace OwnScript.Heap

/-- The bytes of the object under a reference. -/
def sizeAt (heap : Heap) (ref : Ref) : Nat :=
  ((heap.get? ref).map Object.memorySize).getD 0

/-- The bytes of all objects together. -/
def footprint (heap : Heap) : Nat :=
  ∑ ref ∈ heap.refs, heap.sizeAt ref

/-- Every object is accounted for at its size, and the bytes in use are the sum. -/
structure Accounted (heap : Heap) : Prop where
  tracked : ∀ (ref : Ref) (cell : Cell), heap.cells[ref]? = some cell →
    cell.trackedSize = cell.object.memorySize.toUInt64
  bytesLive : heap.statistics.bytesLive = heap.footprint.toUInt64

/-- The objects of a heap fit into an address space. -/
def Addressable (heap : Heap) : Prop :=
  heap.footprint < UInt64.size

theorem Accounted.toNat_bytesLive {heap : Heap} (haccounted : heap.Accounted)
    (hspace : heap.Addressable) : heap.statistics.bytesLive.toNat = heap.footprint := by
  rw [haccounted.bytesLive]
  exact Nat.mod_eq_of_lt hspace

theorem sizeAt_of_get? {heap : Heap} {ref : Ref} {object : Object}
    (hget : heap.get? ref = some object) : heap.sizeAt ref = object.memorySize := by
  simp [sizeAt, hget]

theorem footprint_congr {heap other : Heap} (hget : ∀ ref, other.get? ref = heap.get? ref) :
    other.footprint = heap.footprint := by
  have hrefs : other.refs = heap.refs := by
    ext ref
    simp [hget]
  unfold footprint
  rw [hrefs]
  exact Finset.sum_congr rfl (fun ref _ => by simp [sizeAt, hget])

theorem footprint_link {heap : Heap} (hbounded : heap.Bounded) (object : Object) :
    (heap.link object).footprint = heap.footprint + object.memorySize := by
  have hfresh : heap.nextRef ∉ heap.refs := by simp [hbounded.get?_nextRef]
  unfold footprint
  rw [refs_link, Finset.sum_insert hfresh, add_comm]
  congr 1
  · refine Finset.sum_congr rfl fun ref href => ?_
    have hne : ref ≠ heap.nextRef := fun h => hfresh (h ▸ href)
    simp [sizeAt, get?_link, hne]
  · simp [sizeAt, get?_link]

/-- Putting another object under a reference changes the total by the difference of the sizes. -/
theorem footprint_replace {heap other : Heap} {target : Ref} {old new : Object}
    (hold : heap.get? target = some old)
    (hget : ∀ ref, other.get? ref = if ref = target then some new else heap.get? ref) :
    other.footprint + old.memorySize = heap.footprint + new.memorySize := by
  have hmem : target ∈ heap.refs := mem_refs.mpr ⟨old, hold⟩
  have hrefs : other.refs = heap.refs := by
    ext ref
    by_cases href : ref = target <;> simp [hget, href, hold]
  have hrest : ∑ ref ∈ heap.refs.erase target, other.sizeAt ref =
      ∑ ref ∈ heap.refs.erase target, heap.sizeAt ref := by
    refine Finset.sum_congr rfl fun ref href => ?_
    simp [sizeAt, hget, Finset.ne_of_mem_erase href]
  have hother := Finset.add_sum_erase heap.refs other.sizeAt hmem
  have hheap := Finset.add_sum_erase heap.refs heap.sizeAt hmem
  have hnew : other.sizeAt target = new.memorySize := by simp [sizeAt, hget]
  have holdSize : heap.sizeAt target = old.memorySize := sizeAt_of_get? hold
  unfold footprint
  rw [hrefs]
  omega

theorem footprint_update {heap : Heap} {target : Ref} {old : Object}
    (hold : heap.get? target = some old) (new : Object) :
    (heap.update target new).footprint + old.memorySize = heap.footprint + new.memorySize := by
  refine footprint_replace hold fun ref => ?_
  rw [get?_update]
  by_cases href : ref = target <;> simp [href, hold]

theorem footprint_store {heap : Heap} {target : Ref} {old : Object}
    (hold : heap.get? target = some old) (new : Object) :
    (heap.store target new).footprint + old.memorySize = heap.footprint + new.memorySize := by
  refine footprint_replace hold fun ref => ?_
  rw [get?_store]
  by_cases href : ref = target <;> simp [href, hold]

theorem Accounted.of_alike {heap other : Heap} (haccounted : heap.Accounted)
    (halike : Alike heap other) : other.Accounted where
  tracked ref cell hcell := haccounted.tracked ref cell (by rw [← halike.cells]; exact hcell)
  bytesLive := by
    rw [halike.bytesLive, haccounted.bytesLive, footprint_congr halike.get?]

theorem Accounted.link {heap : Heap} (haccounted : heap.Accounted) (hbounded : heap.Bounded)
    (object : Object) : (heap.link object).Accounted := by
  refine ⟨fun ref cell hcell => ?_, ?_⟩
  · simp only [Heap.link, getElem?_insert_ref] at hcell
    by_cases href : ref = heap.nextRef
    · simp only [href, if_true, Option.some.injEq] at hcell
      rw [← hcell]
    · exact haccounted.tracked ref cell (by simpa [href] using hcell)
  · rw [footprint_link hbounded]
    change heap.statistics.bytesLive + object.memorySize.toUInt64 = _
    rw [haccounted.bytesLive]
    exact (UInt64.ofNat_add _ _).symm

/-- Replacing an object by one of the same size needs no new account. -/
theorem Accounted.update {heap : Heap} (haccounted : heap.Accounted) {target : Ref}
    {old new : Object} (hold : heap.get? target = some old)
    (hsize : new.memorySize = old.memorySize) : (heap.update target new).Accounted := by
  obtain ⟨before, hbefore, hobject⟩ := Option.map_eq_some_iff.mp hold
  refine ⟨fun ref cell hcell => ?_, ?_⟩
  · simp only [Heap.update, Std.TreeMap.getElem?_modify, Std.LawfulEqCmp.compare_eq_iff_eq] at hcell
    by_cases href : target = ref
    · subst href
      simp only [if_true, hbefore, Option.map_some, Option.some.injEq] at hcell
      rw [← hcell]
      change before.trackedSize = new.memorySize.toUInt64
      rw [haccounted.tracked target before hbefore, hobject, hsize]
    · exact haccounted.tracked ref cell (by simpa [href] using hcell)
  · have hsum := footprint_update hold new
    have hsame : (heap.update target new).footprint = heap.footprint := by omega
    rw [hsame]
    exact haccounted.bytesLive

/-- The account follows an object to its new size. -/
theorem Accounted.store {heap : Heap} (haccounted : heap.Accounted) {target : Ref}
    {old : Object} (hold : heap.get? target = some old) (new : Object) :
    (heap.store target new).Accounted := by
  obtain ⟨before, hbefore, hobject⟩ := Option.map_eq_some_iff.mp hold
  have hcells : (heap.update target new).cells[target]? = some { before with object := new } := by
    simp [Heap.update, hbefore]
  have htracked : before.trackedSize = old.memorySize.toUInt64 := by
    rw [haccounted.tracked target before hbefore, hobject]
  have hsum := footprint_store hold new
  have hword : (heap.store target new).footprint.toUInt64 + old.memorySize.toUInt64 =
      heap.statistics.bytesLive + new.memorySize.toUInt64 := by
    rw [haccounted.bytesLive]
    exact (UInt64.ofNat_add _ _).symm.trans ((congrArg UInt64.ofNat hsum).trans (UInt64.ofNat_add _ _))
  have hlive : (heap.store target new).statistics.bytesLive =
      heap.statistics.bytesLive + new.memorySize.toUInt64 - old.memorySize.toUInt64 := by
    simp only [Heap.store, recordSize, hcells]
    split
    · simp only [Heap.update, htracked]
      grind
    · simp only [Heap.update, htracked]
      grind
  refine ⟨fun ref cell hcell => ?_, ?_⟩
  · have hentered : (heap.store target new).cells[ref]? =
        if ref = target then some { before with object := new, trackedSize := new.memorySize.toUInt64 }
        else heap.cells[ref]? := by
      simp only [Heap.store, recordSize, hcells]
      have hkept (other : Ref) (hother : other ≠ target) :
          (heap.update target new).cells[other]? = heap.cells[other]? := by
        simp [Heap.update, Std.TreeMap.getElem?_modify, Ne.symm hother]
      split <;> by_cases href : ref = target <;> simp [getElem?_insert_ref, href, hkept]
    rw [hentered] at hcell
    by_cases href : ref = target
    · simp only [href, if_true, Option.some.injEq] at hcell
      rw [← hcell]
    · exact haccounted.tracked ref cell (by simpa [href] using hcell)
  · rw [hlive, ← hword]
    grind

end OwnScript.Heap
