import OwnScript.Proofs.Heap.Soundness

/-!
The account of a heap over any sequence of requests. Bytes in use are the sizes kept for the objects,
what was ever entered is what was given up and what is in use, and the blocks that are parked add up to
the bytes counted for them. The counters are words: they are exact as long as the totals fit into one.
-/

namespace OwnScript

/-- A request to a heap. Between the others, an object may be changed in any way. -/
inductive HeapRequest where
  | allocate (object : Object)
  | edit (ref : Ref) (object : Object)
  | recordSize (ref : Ref) (size : UInt64)
  | collect (roots : List Value)

namespace Heap

open Stateful

section Tally

variable {α : Type}

/-- The weights of all entries together. -/
def tally (weight : Nat → α → Nat) (entries : Std.TreeMap Nat α) : Nat :=
  (entries.toList.map fun entry => weight entry.1 entry.2).sum

/-- The weight of the entry under a key. -/
def weightAt (weight : Nat → α → Nat) (entries : Std.TreeMap Nat α) (key : Nat) : Nat :=
  (entries[key]?.map (weight key)).getD 0

theorem tally_eq_sum (weight : Nat → α → Nat) (entries : Std.TreeMap Nat α) :
    tally weight entries = ∑ key ∈ entries.keys.toFinset, weightAt weight entries key := by
  have hnodup : entries.keys.Nodup := Std.TreeMap.nodup_keys
  rw [List.sum_toFinset _ hnodup, ← Std.TreeMap.map_fst_toList_eq_keys, List.map_map, tally]
  refine congrArg List.sum (List.map_congr_left fun entry hentry => ?_)
  have hfound : entries[entry.1]? = some entry.2 :=
    Std.TreeMap.mem_toList_iff_getElem?_eq_some.mp hentry
  simp [weightAt, hfound]

theorem weightAt_of_notMem {weight : Nat → α → Nat} {entries : Std.TreeMap Nat α} {key : Nat}
    (hmissing : key ∉ entries.keys.toFinset) : weightAt weight entries key = 0 := by
  rw [List.mem_toFinset, Std.TreeMap.mem_keys, Std.TreeMap.mem_iff_isSome_getElem?,
    Option.not_isSome_iff_eq_none] at hmissing
  simp [weightAt, hmissing]

/-- An entry that is put under a key takes the place of what was there. -/
theorem tally_insert (weight : Nat → α → Nat) (entries : Std.TreeMap Nat α) (key : Nat) (value : α) :
    tally weight (entries.insert key value) + weightAt weight entries key =
      tally weight entries + weight key value := by
  have hkeys : (entries.insert key value).keys.toFinset = insert key entries.keys.toFinset := by
    ext other
    simp only [List.mem_toFinset, Std.TreeMap.mem_keys, Std.TreeMap.mem_insert, Finset.mem_insert,
      Std.LawfulEqCmp.compare_eq_iff_eq, @eq_comm _ other]
  have hbefore : tally weight entries =
      ∑ other ∈ insert key entries.keys.toFinset, weightAt weight entries other := by
    rw [tally_eq_sum, Finset.sum_insert_of_eq_zero_if_notMem weightAt_of_notMem]
  have hrest : ∑ other ∈ (insert key entries.keys.toFinset).erase key,
        weightAt weight (entries.insert key value) other =
      ∑ other ∈ (insert key entries.keys.toFinset).erase key, weightAt weight entries other := by
    refine Finset.sum_congr rfl fun other hother => ?_
    simp [weightAt, getElem?_insert_ref, Finset.ne_of_mem_erase hother]
  have hnew : weightAt weight (entries.insert key value) key = weight key value := by
    simp [weightAt]
  have hmem := Finset.mem_insert_self key entries.keys.toFinset
  have hafter := Finset.add_sum_erase _ (weightAt weight (entries.insert key value)) hmem
  have hsame := Finset.add_sum_erase _ (weightAt weight entries) hmem
  rw [tally_eq_sum, hkeys]
  omega

theorem tally_congr {weight : Nat → α → Nat} {entries others : Std.TreeMap Nat α}
    (hsame : ∀ key, others[key]?.map (weight key) = entries[key]?.map (weight key)) :
    tally weight others = tally weight entries := by
  have hkeys : others.keys.toFinset = entries.keys.toFinset := by
    ext key
    have hsome := congrArg Option.isSome (hsame key)
    simp only [Option.isSome_map] at hsome
    simp only [List.mem_toFinset, Std.TreeMap.mem_keys, Std.TreeMap.mem_iff_isSome_getElem?, hsome]
  rw [tally_eq_sum, tally_eq_sum, hkeys]
  exact Finset.sum_congr rfl fun key _ => by rw [weightAt, weightAt, hsame]

end Tally

/-- The bytes that a heap keeps for its objects. -/
def trackedTotal (heap : Heap) : Nat :=
  tally (fun _ cell => cell.trackedSize.toNat) heap.cells

/-- The bytes of the parked blocks. -/
def parkedBytes (heap : Heap) : Nat :=
  tally (fun size count => size * count) heap.freeBlocks

/-- The heap after a request, whether it was met or not. -/
def perform (heap : Heap) : HeapRequest → Heap
  | .allocate object =>
    match allocate object heap with
    | .ok _ after => after
    | .error _ after => after
  | .edit ref object => heap.update ref object
  | .recordSize ref size => heap.recordSize ref size
  | .collect roots => (heap.collect roots).1

/-- The bytes that a request adds to those in use, not as a word. -/
def charge (heap : Heap) : HeapRequest → Nat
  | .allocate object =>
    match allocate object heap with
    | .ok _ _ => object.memorySize
    | .error _ _ => 0
  | .recordSize ref size =>
    match heap.cells[ref]? with
    | some cell => size.toNat - cell.trackedSize.toNat
    | none => 0
  | .edit _ _ | .collect _ => 0

/-- The bytes that requests add, one after the other. -/
def charges (heap : Heap) : List HeapRequest → Nat
  | [] => 0
  | request :: rest => heap.charge request + (heap.perform request).charges rest

/-- A heap that has served requests, starting empty. -/
def serving (config : HeapConfig) (requests : List HeapRequest) : Heap :=
  requests.foldl perform (ofConfig config)

theorem charges_append (heap : Heap) (requests : List HeapRequest) (request : HeapRequest) :
    heap.charges (requests ++ [request]) =
      heap.charges requests + (requests.foldl perform heap).charge request := by
  induction requests generalizing heap with
  | nil => simp [charges]
  | cons first rest ih => simp [charges, ih, Nat.add_assoc]

/-- Two heaps that differ in what is parked and in nothing else. -/
def Parks (heap other : Heap) : Prop :=
  other = { heap with
    freeBlocks := other.freeBlocks
    freeListBytes := other.freeListBytes
    statistics.reusedBlocks := other.statistics.reusedBlocks }

theorem parks_acquireBlock (heap : Heap) (size : Nat) : Parks heap (heap.acquireBlock size) := by
  unfold acquireBlock
  split
  · rfl
  · rfl

theorem parks_releaseBlock (heap : Heap) (size : Nat) : Parks heap (heap.releaseBlock size) := by
  unfold releaseBlock
  split
  · rfl
  · rfl

theorem Parks.trans {first second third : Heap} (hfirst : Parks first second)
    (hsecond : Parks second third) : Parks first third := by
  unfold Parks at *
  rw [hsecond, hfirst]

/-- How an allocation ends, with the blocks that it takes and gives back. -/
theorem allocate_eq (object : Object) (heap : Heap) :
    allocate object heap =
      if heap.config.maxHeapBytes < heap.statistics.bytesLive + object.blockSize.toUInt64 then
        .error ⟨object.blockSize.toUInt64⟩ heap
      else if heap.config.maxHeapBytes < heap.statistics.bytesLive + object.memorySize.toUInt64 then
        .error ⟨object.memorySize.toUInt64⟩ ((heap.acquireBlock object.blockSize).releaseBlock object.blockSize)
      else .ok heap.nextRef ((heap.acquireBlock object.blockSize).link object) := by
  have hacquired := alike_acquireBlock heap object.blockSize
  by_cases hblock : heap.config.maxHeapBytes < heap.statistics.bytesLive + object.blockSize.toUInt64
  · simp [allocate, bind_apply, hblock]
  · by_cases hsize : heap.config.maxHeapBytes <
        heap.statistics.bytesLive + object.memorySize.toUInt64
    · simp [allocate, bind_apply, hblock, hsize, hacquired.config, hacquired.bytesLive]
    · simp [allocate, bind_apply, hblock, hsize, hacquired.config, hacquired.bytesLive,
        hacquired.nextRef]

/-- An allocation that fails moves blocks and does nothing else. -/
theorem parks_of_allocate_error {object : Object} {heap after : Heap} {fault : HeapExhausted}
    (hresult : allocate object heap = .error fault after) : Parks heap after := by
  rw [allocate_eq] at hresult
  split at hresult
  · cases hresult
    rfl
  · split at hresult
    · cases hresult
      exact (parks_acquireBlock heap _).trans (parks_releaseBlock _ _)
    · cases hresult

/-- What is parked is counted, and stays below its limit. -/
structure Shelved (heap : Heap) : Prop where
  counted : heap.freeListBytes = heap.parkedBytes.toUInt64
  limited : heap.parkedBytes ≤ heap.config.maxFreeListBytes.toNat

theorem Shelved.toNat_freeListBytes {heap : Heap} (hshelved : heap.Shelved) :
    heap.freeListBytes.toNat = heap.parkedBytes := by
  rw [hshelved.counted]
  exact Nat.mod_eq_of_lt (lt_of_le_of_lt hshelved.limited (UInt64.toNat_lt _))

theorem Shelved.acquireBlock {heap : Heap} (hshelved : heap.Shelved) (size : Nat) :
    (heap.acquireBlock size).Shelved := by
  unfold Heap.acquireBlock
  split
  · rename_i count hcount
    have htaken := tally_insert (fun size count => size * count) heap.freeBlocks size count
    have hold : weightAt (fun size count => size * count) heap.freeBlocks size = size * (count + 1) := by
      simp [weightAt, hcount]
    have htotal : tally (fun size count => size * count) (heap.freeBlocks.insert size count) + size =
        heap.parkedBytes := by
      rw [hold, Nat.mul_succ] at htaken
      unfold parkedBytes
      omega
    refine ⟨?_, ?_⟩
    · change heap.freeListBytes - size.toUInt64 = (tally _ _).toUInt64
      rw [hshelved.counted, ← htotal]
      have hsum := UInt64.ofNat_add (tally (fun size count => size * count)
        (heap.freeBlocks.insert size count)) size
      change UInt64.ofNat _ - UInt64.ofNat _ = UInt64.ofNat _
      rw [hsum]
      grind
    · have hless : tally (fun size count => size * count) (heap.freeBlocks.insert size count) ≤
          heap.parkedBytes := by omega
      exact hless.trans hshelved.limited
  · exact hshelved

/-- A block is parked, or it is gone. -/
theorem parkedBytes_releaseBlock (heap : Heap) (size : Nat) :
    heap.releaseBlock size = heap ∨
      (heap.freeListBytes + size.toUInt64 ≤ heap.config.maxFreeListBytes ∧
        (heap.releaseBlock size).freeListBytes = heap.freeListBytes + size.toUInt64 ∧
        (heap.releaseBlock size).parkedBytes = heap.parkedBytes + size) := by
  unfold releaseBlock
  split
  · exact .inl rfl
  · rename_i hroom
    refine .inr ⟨UInt64.not_lt.mp hroom, rfl, ?_⟩
    have hput := tally_insert (fun size count => size * count) heap.freeBlocks size
      (heap.freeBlocks[size]?.getD 0 + 1)
    have hold : weightAt (fun size count => size * count) heap.freeBlocks size =
        size * (heap.freeBlocks[size]?.getD 0) := by
      cases hcount : heap.freeBlocks[size]? with
      | none => simp [weightAt, hcount]
      | some count => simp [weightAt, hcount]
    rw [hold, Nat.mul_succ] at hput
    unfold parkedBytes
    simp only
    omega

theorem le_parkedBytes_releaseBlock (heap : Heap) (size : Nat) :
    heap.parkedBytes ≤ (heap.releaseBlock size).parkedBytes := by
  rcases parkedBytes_releaseBlock heap size with hsame | ⟨-, -, hparked⟩
  · rw [hsame]
  · omega

theorem Shelved.releaseBlock {heap : Heap} (hshelved : heap.Shelved) {size : Nat}
    (hfits : (heap.releaseBlock size).parkedBytes < UInt64.size) : (heap.releaseBlock size).Shelved := by
  rcases parkedBytes_releaseBlock heap size with hsame | ⟨hroom, hcounted, hparked⟩
  · rw [hsame]
    exact hshelved
  · have hword : heap.freeListBytes + size.toUInt64 = (heap.releaseBlock size).parkedBytes.toUInt64 := by
      rw [hparked, hshelved.counted]
      exact (UInt64.ofNat_add _ _).symm
    refine ⟨hcounted.trans hword, ?_⟩
    rw [hword, UInt64.le_iff_toNat_le] at hroom
    rw [(alike_releaseBlock heap size).config]
    exact le_of_eq_of_le (Nat.mod_eq_of_lt hfits).symm hroom

/-- The books of a heap: its counters against its objects and against the bytes that were ever
entered. Words are equal to words; that they are exact is a matter of the totals. -/
structure Balanced (heap : Heap) (entered : Nat) : Prop where
  bounded : heap.Bounded
  objects : heap.statistics.objects = heap.cells.size
  live : heap.statistics.bytesLive = heap.trackedTotal.toUInt64
  allocated : heap.statistics.totalAllocated = entered.toUInt64
  balance : heap.statistics.totalAllocated = heap.statistics.totalFreed + heap.statistics.bytesLive
  within : heap.trackedTotal ≤ entered

theorem balanced_ofConfig (config : HeapConfig) : (ofConfig config).Balanced 0 where
  bounded := (sound_ofConfig config).bounded
  objects := rfl
  live := rfl
  allocated := rfl
  balance := rfl
  within := Nat.zero_le _

variable {heap other : Heap} {entered : Nat}

/-- The objects of a heap and the totals of its account are all that the books are about. -/
theorem Balanced.of_parks (hbalanced : heap.Balanced entered) (hparks : Parks heap other) :
    other.Balanced entered := by
  rw [hparks]
  exact ⟨hbalanced.bounded, hbalanced.objects, hbalanced.live, hbalanced.allocated, hbalanced.balance,
    hbalanced.within⟩

theorem toUInt64_add (a b : Nat) : (a + b).toUInt64 = a.toUInt64 + b.toUInt64 :=
  UInt64.ofNat_add a b

theorem toNat_toUInt64_le (n : Nat) : n.toUInt64.toNat ≤ n :=
  Nat.mod_le n _

theorem Balanced.link (hbalanced : heap.Balanced entered) (object : Object) :
    (heap.link object).Balanced (entered + object.memorySize) := by
  have hfresh : heap.cells[heap.nextRef]? = none := by
    simpa [get?] using hbalanced.bounded.get?_nextRef
  have htotal : (heap.link object).trackedTotal =
      heap.trackedTotal + object.memorySize.toUInt64.toNat := by
    have hinsert := tally_insert (fun _ cell => cell.trackedSize.toNat) heap.cells heap.nextRef
      { object, trackedSize := object.memorySize.toUInt64 }
    simp only [weightAt, hfresh, Option.map_none, Option.getD_none, Nat.add_zero] at hinsert
    exact hinsert
  have hcharged := toNat_toUInt64_le object.memorySize
  refine ⟨hbalanced.bounded.link object, ?_, ?_, ?_, ?_, ?_⟩
  · change heap.statistics.objects + 1 = (heap.cells.insert heap.nextRef _).size
    have hmissing : heap.cells.contains heap.nextRef = false := by
      rw [Std.TreeMap.contains_eq_isSome_getElem?, hfresh]
      rfl
    rw [Std.TreeMap.size_insert, hmissing, hbalanced.objects]
    rfl
  · change heap.statistics.bytesLive + object.memorySize.toUInt64 = _
    rw [htotal, toUInt64_add, hbalanced.live]
    exact congrArg (_ + ·) UInt64.ofNat_toNat.symm
  · change heap.statistics.totalAllocated + object.memorySize.toUInt64 = _
    rw [toUInt64_add, hbalanced.allocated]
  · change heap.statistics.totalAllocated + object.memorySize.toUInt64 =
      heap.statistics.totalFreed + (heap.statistics.bytesLive + object.memorySize.toUInt64)
    rw [hbalanced.balance]
    grind
  · have hwithin := hbalanced.within
    omega

theorem Balanced.update (hbalanced : heap.Balanced entered) (ref : Ref) (object : Object) :
    (heap.update ref object).Balanced entered := by
  have htotal : (heap.update ref object).trackedTotal = heap.trackedTotal := by
    refine tally_congr fun key => ?_
    simp only [Heap.update, Std.TreeMap.getElem?_modify, Std.LawfulEqCmp.compare_eq_iff_eq]
    split
    · rename_i hkey
      simp [hkey, Option.map_map, Function.comp_def]
    · rfl
  refine ⟨hbalanced.bounded.of_refs_eq (refs_update heap ref object) rfl, ?_, ?_, hbalanced.allocated,
    hbalanced.balance, ?_⟩
  · change heap.statistics.objects = (heap.cells.modify ref _).size
    rw [Std.TreeMap.size_modify]
    exact hbalanced.objects
  · rw [htotal]
    exact hbalanced.live
  · rw [htotal]
    exact hbalanced.within

theorem refs_recordSize (heap : Heap) (ref : Ref) (size : UInt64) :
    (heap.recordSize ref size).refs = heap.refs := by
  ext other
  simp [get?_recordSize]

theorem Balanced.recordSize (hbalanced : heap.Balanced entered) (ref : Ref) (size : UInt64) :
    (heap.recordSize ref size).Balanced (entered + heap.charge (.recordSize ref size)) := by
  have hbounded := hbalanced.bounded.of_refs_eq (refs_recordSize heap ref size)
    (nextRef_recordSize heap ref size)
  cases hcell : heap.cells[ref]? with
  | none =>
    have hsame : heap.recordSize ref size = heap := by simp [Heap.recordSize, hcell]
    have hnothing : heap.charge (.recordSize ref size) = 0 := by simp [charge, hcell]
    rw [hsame, hnothing]
    exact hbalanced
  | some cell =>
    have hinsert := tally_insert (fun _ cell => cell.trackedSize.toNat) heap.cells ref
      { cell with trackedSize := size }
    simp only [weightAt, hcell, Option.map_some, Option.getD_some] at hinsert
    have hwithin : tally (fun _ cell => cell.trackedSize.toNat) heap.cells ≤ entered := hbalanced.within
    have hthere : heap.cells.contains ref = true := by
      rw [Std.TreeMap.contains_eq_isSome_getElem?, hcell]
      rfl
    have hobjects : heap.statistics.objects =
        (heap.cells.insert ref { cell with trackedSize := size }).size := by
      rw [Std.TreeMap.size_insert, hthere]
      exact hbalanced.objects
    have hword : (tally (fun _ cell => cell.trackedSize.toNat)
          (heap.cells.insert ref { cell with trackedSize := size })).toUInt64 =
        heap.statistics.bytesLive + size - cell.trackedSize := by
      have hboth := congrArg Nat.toUInt64 hinsert
      have htracked : cell.trackedSize.toNat.toUInt64 = cell.trackedSize := UInt64.ofNat_toNat
      have hnew : size.toNat.toUInt64 = size := UInt64.ofNat_toNat
      rw [toUInt64_add, toUInt64_add, htracked, hnew] at hboth
      have hlive : heap.statistics.bytesLive =
          (tally (fun _ cell => cell.trackedSize.toNat) heap.cells).toUInt64 := hbalanced.live
      rw [hlive, ← hboth]
      grind
    have hcharge : heap.charge (.recordSize ref size) = size.toNat - cell.trackedSize.toNat := by
      simp [charge, hcell]
    have hbalance := hbalanced.balance
    have hkept : tally (fun _ cell => cell.trackedSize.toNat)
          (heap.cells.insert ref { cell with trackedSize := size }) ≤
        entered + (size.toNat - cell.trackedSize.toNat) := by omega
    rw [hcharge]
    simp only [Heap.recordSize, hcell] at hbounded ⊢
    split
    · rename_i hgrows
      rw [if_pos hgrows] at hbounded
      have hle : cell.trackedSize.toNat ≤ size.toNat := (UInt64.lt_iff_toNat_lt.mp hgrows).le
      refine ⟨hbounded, hobjects, ?_, ?_, ?_, hkept⟩
      · change _ = (tally _ _).toUInt64
        rw [hword]
        grind
      · have hgrown : (size.toNat - cell.trackedSize.toNat).toUInt64 = size - cell.trackedSize := by
          rw [← UInt64.toNat_sub_of_le _ _ (UInt64.le_iff_toNat_le.mpr hle)]
          exact UInt64.ofNat_toNat
        rw [toUInt64_add, hgrown, ← hbalanced.allocated]
      · simp only
        grind
    · rename_i hshrinks
      rw [if_neg hshrinks] at hbounded
      have hle : size.toNat ≤ cell.trackedSize.toNat := UInt64.le_iff_toNat_le.mp (UInt64.not_lt.mp hshrinks)
      refine ⟨hbounded, hobjects, ?_, ?_, ?_, hkept⟩
      · change _ = (tally _ _).toUInt64
        rw [hword]
        grind
      · rw [Nat.sub_eq_zero_of_le hle]
        exact hbalanced.allocated
      · simp only
        grind

theorem Balanced.of_retouched (hbalanced : heap.Balanced entered) (htouched : Retouched heap other) :
    other.Balanced entered := by
  have htotal : other.trackedTotal = heap.trackedTotal := by
    refine tally_congr fun ref => ?_
    have hcontents := congrArg (Option.map fun contents => contents.2.toNat) (htouched.cell ref)
    simpa only [Option.map_map, Function.comp_def, Cell.contents] using hcontents
  have hsize : other.cells.size = heap.cells.size := by
    rw [← card_refs, ← card_refs, htouched.refs]
  have hnext : other.nextRef = heap.nextRef := by rw [htouched.rest]
  have hstatistics : other.statistics = heap.statistics := by rw [htouched.rest]
  refine ⟨hbalanced.bounded.of_refs_eq htouched.refs hnext, ?_, ?_, ?_, ?_, ?_⟩
  · rw [hstatistics, hsize]
    exact hbalanced.objects
  · rw [hstatistics, htotal]
    exact hbalanced.live
  · rw [hstatistics]
    exact hbalanced.allocated
  · rw [hstatistics]
    exact hbalanced.balance
  · rw [htotal]
    exact hbalanced.within

theorem retouched_foldl_markRef (targets : List Ref) (heap : Heap) :
    Retouched heap (targets.foldl markRef heap) := by
  induction targets generalizing heap with
  | nil => exact Retouched.refl heap
  | cons target rest ih => exact (markRef_spec heap target).1.trans (ih _)

theorem retouched_traceSteps (steps : Nat) (heap : Heap) : Retouched heap (traceSteps steps heap) := by
  induction steps generalizing heap with
  | zero => exact Retouched.refl heap
  | succ steps ih =>
    unfold traceSteps
    cases heap.gray with
    | nil => exact Retouched.refl heap
    | cons ref gray =>
      have hpopped : Retouched heap { heap with gray } := ⟨fun _ => rfl, rfl⟩
      exact (hpopped.trans (retouched_foldl_markRef _ _)).trans (ih _)

/-- A heap that has given up the bytes of an object, but not its block. -/
def struck (heap : Heap) (cell : Cell) : Heap :=
  { heap with
    statistics :=
      { heap.statistics with
        totalFreed := heap.statistics.totalFreed + cell.trackedSize
        bytesLive := heap.statistics.bytesLive - cell.trackedSize
        objects := heap.statistics.objects - 1 } }

theorem retire_eq (heap : Heap) (cell : Cell) :
    heap.retire cell = (heap.struck cell).releaseBlock cell.object.blockSize := rfl

/-- What giving up objects does to the books. -/
theorem foldl_retire_books (dead : List Cell) (heap : Heap) :
    (dead.foldl retire heap).statistics.objects = heap.statistics.objects - dead.length ∧
      (dead.foldl retire heap).statistics.peakObjects = heap.statistics.peakObjects ∧
      (dead.foldl retire heap).statistics.totalAllocated = heap.statistics.totalAllocated ∧
      (dead.foldl retire heap).statistics.totalFreed =
        heap.statistics.totalFreed + trackedBytes dead := by
  induction dead generalizing heap with
  | nil => simp [trackedBytes]
  | cons cell rest ih =>
    have hparks := parks_releaseBlock (heap.struck cell) cell.object.blockSize
    obtain ⟨hobjects, hpeak, hallocated, hfreed⟩ := ih (heap.retire cell)
    rw [List.foldl_cons]
    refine ⟨?_, ?_, ?_, ?_⟩
    · rw [hobjects, retire_eq, hparks, List.length_cons]
      simp only [struck]
      omega
    · rw [hpeak, retire_eq, hparks]
      rfl
    · rw [hallocated, retire_eq, hparks]
      rfl
    · rw [hfreed, retire_eq, hparks]
      simp only [struck, trackedBytes, List.map_cons, List.foldr_cons]
      grind

theorem le_parkedBytes_foldl_retire (dead : List Cell) (heap : Heap) :
    heap.parkedBytes ≤ (dead.foldl retire heap).parkedBytes := by
  induction dead generalizing heap with
  | nil => exact le_refl _
  | cons cell rest ih =>
    exact (le_parkedBytes_releaseBlock (heap.struck cell) cell.object.blockSize).trans (ih _)

theorem Shelved.foldl_retire (hshelved : heap.Shelved) {dead : List Cell}
    (hfits : (dead.foldl retire heap).parkedBytes < UInt64.size) : (dead.foldl retire heap).Shelved := by
  induction dead generalizing heap with
  | nil => exact hshelved
  | cons cell rest ih =>
    have hstruck : (heap.struck cell).Shelved := ⟨hshelved.counted, hshelved.limited⟩
    have hparked : (heap.retire cell).parkedBytes < UInt64.size :=
      lt_of_le_of_lt (le_parkedBytes_foldl_retire rest _) hfits
    exact ih (hstruck.releaseBlock hparked) hfits

/-- The bytes kept for some cells, not as a word. -/
def trackedSum (cells : List Cell) : Nat :=
  (cells.map (·.trackedSize.toNat)).sum

theorem trackedBytes_eq (cells : List Cell) : trackedBytes cells = (trackedSum cells).toUInt64 := by
  induction cells with
  | nil => rfl
  | cons cell rest ih =>
    have hcell : cell.trackedSize.toNat.toUInt64 = cell.trackedSize := UInt64.ofNat_toNat
    rw [trackedSum, List.map_cons, List.sum_cons, toUInt64_add, hcell, ← trackedSum, ← ih]
    rfl

theorem trackedTotal_eq (heap : Heap) : heap.trackedTotal = trackedSum heap.oldestFirst := by
  rw [trackedTotal, tally, trackedSum, oldestFirst, List.map_map]
  rfl

/-- Cells are cells with a mark and cells without. -/
theorem trackedSum_split (cells : List Cell) :
    trackedSum (cells.filter (·.marked)) + trackedSum (cells.filter (!·.marked)) = trackedSum cells ∧
      (cells.filter (·.marked)).length + (cells.filter (!·.marked)).length = cells.length := by
  have hcons (cell : Cell) (rest : List Cell) :
      trackedSum (cell :: rest) = cell.trackedSize.toNat + trackedSum rest := rfl
  induction cells with
  | nil => exact ⟨rfl, rfl⟩
  | cons cell rest ih =>
    obtain ⟨hsum, hlength⟩ := ih
    cases hmark : cell.marked with
    | true =>
      simp only [List.filter_cons, hmark, if_true, Bool.not_true, Bool.false_eq_true, if_false, hcons,
        List.length_cons]
      omega
    | false =>
      simp only [List.filter_cons, hmark, if_true, Bool.not_false, Bool.false_eq_true, if_false, hcons,
        List.length_cons]
      omega

/-- The objects that a sweep gives up, newest first. -/
def dying (heap : Heap) : List Cell :=
  (heap.oldestFirst.filter (!·.marked)).reverse

/-- A heap with the objects that survive a sweep, before the others are given up. -/
def cleared (heap : Heap) : Heap :=
  { heap with
    cells := (heap.cells.filter fun _ cell => cell.marked).map
      fun _ cell => { cell with marked := false } }

theorem sweep_eq (heap : Heap) : heap.sweep.1 = heap.dying.foldl retire heap.cleared := by
  rw [sweep, dead_eq]
  rfl

theorem oldestFirst_cleared (heap : Heap) :
    heap.cleared.oldestFirst =
      (heap.oldestFirst.filter (·.marked)).map fun cell => { cell with marked := false } := by
  simp only [oldestFirst, cleared, Std.TreeMap.toList_map, Std.TreeMap.toList_filter, List.map_map,
    List.filter_map]
  rfl

theorem Balanced.sweep (hbalanced : heap.Balanced entered) : heap.sweep.1.Balanced entered := by
  obtain ⟨hget, -, hnext, -⟩ := sweep_spec heap
  obtain ⟨hcells, -, -, -, hbytes⟩ := foldl_retire_spec heap.dying heap.cleared
  obtain ⟨hobjects, -, hallocated, hfreed⟩ := foldl_retire_books heap.dying heap.cleared
  obtain ⟨htracked, hlength⟩ := trackedSum_split heap.oldestFirst
  have hbounded : heap.sweep.1.Bounded := by
    intro ref object hobject
    rw [hget] at hobject
    rw [hnext]
    split at hobject
    · exact hbalanced.bounded ref object hobject
    · cases hobject
  have hsize : heap.cleared.cells.size = (heap.oldestFirst.filter (·.marked)).length := by
    have hlisted := congrArg List.length heap.oldestFirst_cleared
    rwa [oldestFirst, List.length_map, List.length_map, Std.TreeMap.length_toList] at hlisted
  have hall : heap.cells.size = heap.oldestFirst.length := by
    rw [oldestFirst, List.length_map, Std.TreeMap.length_toList]
  have htotal : heap.cleared.trackedTotal = trackedSum (heap.oldestFirst.filter (·.marked)) := by
    rw [trackedTotal_eq, oldestFirst_cleared, trackedSum, List.map_map]
    rfl
  have hdying : trackedBytes heap.dying =
      (trackedSum (heap.oldestFirst.filter (!·.marked))).toUInt64 := by
    rw [dying, trackedBytes_reverse, trackedBytes_eq]
  have hlive : heap.statistics.bytesLive =
      heap.cleared.trackedTotal.toUInt64 + trackedBytes heap.dying := by
    rw [hbalanced.live, trackedTotal_eq, ← htracked, toUInt64_add, htotal, hdying]
  have hsame : (heap.dying.foldl retire heap.cleared).trackedTotal = heap.cleared.trackedTotal := by
    rw [trackedTotal, hcells]
    rfl
  have hleft : (heap.dying.foldl retire heap.cleared).statistics.bytesLive =
      heap.statistics.bytesLive - trackedBytes heap.dying := hbytes
  rw [sweep_eq] at hbounded ⊢
  refine ⟨hbounded, ?_, ?_, hallocated.trans hbalanced.allocated, ?_, ?_⟩
  · rw [hobjects, hcells, hsize, dying, List.length_reverse]
    change heap.statistics.objects - _ = _
    rw [hbalanced.objects]
    omega
  · rw [hleft, hsame, hlive]
    grind
  · rw [hallocated, hfreed, hleft]
    change heap.statistics.totalAllocated = heap.statistics.totalFreed + _ + _
    rw [hbalanced.balance]
    grind
  · rw [hsame, htotal]
    have hwithin := hbalanced.within
    rw [trackedTotal_eq] at hwithin
    omega

theorem retouched_traced (heap : Heap) (roots : List Value) :
    Retouched heap.beginCycle (heap.traced roots) := by
  rw [traced, foldl_markValue_eq]
  exact (retouched_foldl_markRef _ _).trans (retouched_traceSteps _ _)

/-- A collection sweeps what it has traced, unless another one is under way. -/
theorem collect_cases (heap : Heap) (roots : List Value) :
    (heap.collect roots).1 = heap ∨
      ∃ threshold, (heap.collect roots).1 = { (heap.traced roots).sweep.1 with
        statistics.collections := (heap.traced roots).sweep.1.statistics.collections + 1
        bytesSinceCollection := 0
        collectionRequested := false
        threshold
        collecting := false } := by
  unfold collect
  split
  · exact .inl rfl
  · exact .inr ⟨_, rfl⟩

theorem Balanced.collect (hbalanced : heap.Balanced entered) (roots : List Value) :
    (heap.collect roots).1.Balanced entered := by
  rcases collect_cases heap roots with hsame | ⟨threshold, hswept⟩
  · rw [hsame]
    exact hbalanced
  · have hbegun : heap.beginCycle.Balanced entered :=
      ⟨hbalanced.bounded, hbalanced.objects, hbalanced.live, hbalanced.allocated, hbalanced.balance,
        hbalanced.within⟩
    have hsweep := (hbegun.of_retouched (retouched_traced heap roots)).sweep
    rw [hswept]
    exact ⟨hsweep.bounded, hsweep.objects, hsweep.live, hsweep.allocated, hsweep.balance, hsweep.within⟩

/-- An allocation is refused at once, refused once it has a block, or met. -/
theorem perform_allocate_cases (object : Object) (heap : Heap) :
    (heap.perform (.allocate object) = heap ∧ heap.charge (.allocate object) = 0) ∨
    (heap.perform (.allocate object) =
        (heap.acquireBlock object.blockSize).releaseBlock object.blockSize ∧
      heap.charge (.allocate object) = 0) ∨
    (heap.perform (.allocate object) = (heap.acquireBlock object.blockSize).link object ∧
      heap.charge (.allocate object) = object.memorySize) := by
  simp only [perform, charge, allocate_eq]
  split_ifs
  · exact .inl ⟨rfl, rfl⟩
  · exact .inr (.inl ⟨rfl, rfl⟩)
  · exact .inr (.inr ⟨rfl, rfl⟩)

/-- Every request keeps the books. -/
theorem Balanced.perform (hbalanced : heap.Balanced entered) (request : HeapRequest) :
    (heap.perform request).Balanced (entered + heap.charge request) := by
  cases request with
  | allocate object =>
    have hacquired := hbalanced.of_parks (parks_acquireBlock heap object.blockSize)
    rcases perform_allocate_cases object heap with
      ⟨hafter, hcharge⟩ | ⟨hafter, hcharge⟩ | ⟨hafter, hcharge⟩
    · rw [hafter, hcharge]
      exact hbalanced
    · rw [hafter, hcharge]
      exact hacquired.of_parks (parks_releaseBlock _ _)
    · rw [hafter, hcharge]
      exact hacquired.link object
  | edit ref object => exact hbalanced.update ref object
  | recordSize ref size => exact hbalanced.recordSize ref size
  | collect roots => exact hbalanced.collect roots

theorem Shelved.sweep (hshelved : heap.Shelved) (hfits : heap.sweep.1.parkedBytes < UInt64.size) :
    heap.sweep.1.Shelved := by
  rw [sweep_eq] at hfits ⊢
  have hcleared : heap.cleared.Shelved := ⟨hshelved.counted, hshelved.limited⟩
  exact hcleared.foldl_retire hfits

/-- What a new size of an object leaves alone. -/
theorem recordSize_rest (heap : Heap) (ref : Ref) (size : UInt64) :
    (heap.recordSize ref size).config = heap.config ∧
      (heap.recordSize ref size).freeBlocks = heap.freeBlocks ∧
      (heap.recordSize ref size).freeListBytes = heap.freeListBytes ∧
      (heap.recordSize ref size).statistics.objects = heap.statistics.objects ∧
      (heap.recordSize ref size).statistics.peakObjects = heap.statistics.peakObjects := by
  unfold recordSize
  split
  · exact ⟨rfl, rfl, rfl, rfl, rfl⟩
  · split
    · exact ⟨rfl, rfl, rfl, rfl, rfl⟩
    · exact ⟨rfl, rfl, rfl, rfl, rfl⟩

/-- Every request keeps count of what is parked. -/
theorem Shelved.perform (hshelved : heap.Shelved) {request : HeapRequest}
    (hfits : (heap.perform request).parkedBytes < UInt64.size) : (heap.perform request).Shelved := by
  cases request with
  | allocate object =>
    have hacquired := hshelved.acquireBlock object.blockSize
    rcases perform_allocate_cases object heap with ⟨hafter, -⟩ | ⟨hafter, -⟩ | ⟨hafter, -⟩
    · rw [hafter]
      exact hshelved
    · rw [hafter] at hfits ⊢
      exact hacquired.releaseBlock hfits
    · rw [hafter]
      exact ⟨hacquired.counted, hacquired.limited⟩
  | edit ref object => exact ⟨hshelved.counted, hshelved.limited⟩
  | recordSize ref size =>
    obtain ⟨hconfig, hblocks, hbytes, -⟩ := recordSize_rest heap ref size
    refine ⟨?_, ?_⟩
    · rw [Heap.perform, hbytes, parkedBytes, hblocks]
      exact hshelved.counted
    · rw [Heap.perform, hconfig, parkedBytes, hblocks]
      exact hshelved.limited
  | collect roots =>
    simp only [Heap.perform] at hfits ⊢
    rcases collect_cases heap roots with hsame | ⟨threshold, hswept⟩
    · rw [hsame]
      exact hshelved
    · have htraced : (heap.traced roots).Shelved := by
        rw [(retouched_traced heap roots).rest]
        exact ⟨hshelved.counted, hshelved.limited⟩
      rw [hswept] at hfits ⊢
      have hsweep := htraced.sweep hfits
      exact ⟨hsweep.counted, hsweep.limited⟩

theorem config_perform (heap : Heap) (request : HeapRequest) :
    (heap.perform request).config = heap.config := by
  cases request with
  | allocate object =>
    have hacquired := alike_acquireBlock heap object.blockSize
    rcases perform_allocate_cases object heap with ⟨hafter, -⟩ | ⟨hafter, -⟩ | ⟨hafter, -⟩
    · rw [hafter]
    · rw [hafter]
      exact (hacquired.trans (alike_releaseBlock _ _)).config
    · rw [hafter]
      exact hacquired.config
  | edit ref object => rfl
  | recordSize ref size => exact (recordSize_rest heap ref size).1
  | collect roots =>
    simp only [perform]
    rcases collect_cases heap roots with hsame | ⟨threshold, hswept⟩
    · rw [hsame]
    · rw [hswept]
      refine (sweep_spec (heap.traced roots)).2.2.2.2.1.trans ?_
      rw [(retouched_traced heap roots).rest]
      rfl

/-- The largest number of objects so far is that before a request, or that after it. -/
theorem peakObjects_perform (hpeak : heap.statistics.objects ≤ heap.statistics.peakObjects)
    (request : HeapRequest) :
    (heap.perform request).statistics.peakObjects =
      max heap.statistics.peakObjects (heap.perform request).statistics.objects := by
  cases request with
  | allocate object =>
    have hparks := parks_acquireBlock heap object.blockSize
    rcases perform_allocate_cases object heap with ⟨hafter, -⟩ | ⟨hafter, -⟩ | ⟨hafter, -⟩
    · rw [hafter, max_eq_left hpeak]
    · rw [hafter, hparks.trans (parks_releaseBlock _ _)]
      exact (max_eq_left hpeak).symm
    · rw [hafter, hparks]
      rfl
  | edit ref object => exact (max_eq_left hpeak).symm
  | recordSize ref size =>
    obtain ⟨-, -, -, hobjects, hsame⟩ := recordSize_rest heap ref size
    rw [perform, hobjects, hsame, max_eq_left hpeak]
  | collect roots =>
    simp only [perform]
    rcases collect_cases heap roots with hsame | ⟨threshold, hswept⟩
    · rw [hsame, max_eq_left hpeak]
    · obtain ⟨hobjects, hkept, -⟩ := foldl_retire_books (heap.traced roots).dying (heap.traced roots).cleared
      rw [← sweep_eq] at hobjects hkept
      have hbefore : (heap.traced roots).cleared.statistics = heap.statistics := by
        rw [cleared, (retouched_traced heap roots).rest]
        rfl
      rw [hbefore] at hobjects hkept
      rw [hswept]
      simp only [hobjects, hkept]
      omega

theorem maxFreeListBytes_ofConfig (config : HeapConfig) :
    (ofConfig config).config.maxFreeListBytes = config.maxFreeListBytes := by
  unfold ofConfig
  dsimp only
  split
  · rfl
  · rfl

/-- The totals of a heap fit into a word while it serves requests: the bytes ever entered, and the
parked bytes at any time. -/
structure TotalsFit (config : HeapConfig) (requests : List HeapRequest) : Prop where
  entered : (ofConfig config).charges requests < UInt64.size
  parked : ∀ earlier, earlier <+: requests → (serving config earlier).parkedBytes < UInt64.size

/-- The account of a heap that has served requests is exact. -/
structure ExactAfter (config : HeapConfig) (requests : List HeapRequest) : Prop where
  live : (serving config requests).statistics.bytesLive.toNat = (serving config requests).trackedTotal
  objects : (serving config requests).statistics.objects = (serving config requests).cells.size
  balance : (serving config requests).statistics.totalAllocated.toNat =
    (serving config requests).statistics.totalFreed.toNat +
      (serving config requests).statistics.bytesLive.toNat
  entered : (serving config requests).statistics.totalAllocated.toNat = (ofConfig config).charges requests
  peak : IsGreatest
    { count | ∃ earlier, earlier <+: requests ∧ (serving config earlier).statistics.objects = count }
    (serving config requests).statistics.peakObjects
  parked : (serving config requests).freeListBytes.toNat = (serving config requests).parkedBytes
  parkedLimit : (serving config requests).freeListBytes ≤ config.maxFreeListBytes
  refused : ∀ object fault after, allocate object (serving config requests) = .error fault after →
    Parks (serving config requests) after

theorem serving_append (config : HeapConfig) (requests : List HeapRequest) (request : HeapRequest) :
    serving config (requests ++ [request]) = (serving config requests).perform request := by
  simp [serving]

theorem config_serving (config : HeapConfig) (requests : List HeapRequest) :
    (serving config requests).config = (ofConfig config).config := by
  induction requests using List.reverseRecOn with
  | nil => rfl
  | append_singleton requests request ih => rw [serving_append, config_perform, ih]

theorem balanced_serving (config : HeapConfig) (requests : List HeapRequest) :
    (serving config requests).Balanced ((ofConfig config).charges requests) := by
  induction requests using List.reverseRecOn with
  | nil => exact balanced_ofConfig config
  | append_singleton requests request ih =>
    rw [serving_append, charges_append]
    exact ih.perform request

theorem shelved_serving {config : HeapConfig} {requests : List HeapRequest}
    (hparked : ∀ earlier, earlier <+: requests → (serving config earlier).parkedBytes < UInt64.size) :
    (serving config requests).Shelved := by
  induction requests using List.reverseRecOn with
  | nil => exact ⟨rfl, Nat.zero_le _⟩
  | append_singleton requests request ih =>
    have hbefore := ih fun earlier hearlier => hparked earlier (hearlier.trans (List.prefix_append _ _))
    have hlast := hparked _ (List.prefix_refl _)
    rw [serving_append] at hlast ⊢
    exact hbefore.perform hlast

theorem peakObjects_serving (config : HeapConfig) (requests : List HeapRequest) :
    IsGreatest
      { count | ∃ earlier, earlier <+: requests ∧ (serving config earlier).statistics.objects = count }
      (serving config requests).statistics.peakObjects := by
  induction requests using List.reverseRecOn with
  | nil =>
    refine ⟨⟨[], List.prefix_refl _, rfl⟩, ?_⟩
    rintro count ⟨earlier, hearlier, rfl⟩
    rw [List.prefix_nil.mp hearlier]
    exact le_refl _
  | append_singleton requests request ih =>
    obtain ⟨⟨best, hbest, hcount⟩, hupper⟩ := ih
    have hpeak := peakObjects_perform (hupper ⟨requests, List.prefix_refl _, rfl⟩) request
    rw [← serving_append] at hpeak
    refine ⟨?_, ?_⟩
    · rcases max_choice (serving config requests).statistics.peakObjects
        (serving config (requests ++ [request])).statistics.objects with hold | hnew
      · exact ⟨best, hbest.trans (List.prefix_append _ _), by rw [hpeak, hold, hcount]⟩
      · exact ⟨_, List.prefix_refl _, by rw [hpeak, hnew]⟩
    · rintro count ⟨earlier, hearlier, rfl⟩
      rw [hpeak]
      rcases List.prefix_concat_iff.mp hearlier with rfl | hbefore
      · exact le_max_right _ _
      · exact le_max_of_le_left (hupper ⟨earlier, hbefore, rfl⟩)

/-- The account is exact as long as the totals fit into a word. -/
theorem exactAfter_of_totalsFit {config : HeapConfig} {requests : List HeapRequest}
    (hfits : TotalsFit config requests) : ExactAfter config requests := by
  have hbalanced := balanced_serving config requests
  have hshelved := shelved_serving hfits.parked
  have hentered : (serving config requests).statistics.totalAllocated.toNat =
      (ofConfig config).charges requests := by
    rw [hbalanced.allocated]
    exact Nat.mod_eq_of_lt hfits.entered
  have hlive : (serving config requests).statistics.bytesLive.toNat =
      (serving config requests).trackedTotal := by
    rw [hbalanced.live]
    exact Nat.mod_eq_of_lt (lt_of_le_of_lt hbalanced.within hfits.entered)
  refine ⟨hlive, hbalanced.objects, ?_, hentered, peakObjects_serving config requests,
    hshelved.toNat_freeListBytes, ?_, fun object fault after => parks_of_allocate_error⟩
  · have hwords := congrArg UInt64.toNat hbalanced.balance
    have hwithin := hbalanced.within
    rw [UInt64.toNat_add] at hwords
    have hfreed := UInt64.toNat_lt (serving config requests).statistics.totalFreed
    omega
  · rw [UInt64.le_iff_toNat_le, hshelved.toNat_freeListBytes]
    have hlimited := hshelved.limited
    rwa [config_serving, maxFreeListBytes_ofConfig] at hlimited

end Heap

end OwnScript
