import OwnScript.Proofs.Heap.Footprint
import OwnScript.Proofs.Heap.Reachability

/-!
The end of a collection: the objects without a mark are given up, the others keep their references
and contents. Together with the walk this says what a whole collection does: the objects that the
roots lead to stay, all others go, and the account loses exactly the bytes of those that went.
-/

namespace OwnScript.Heap

/-- What giving up objects leaves alone. -/
theorem foldl_retire_spec (dead : List Cell) (heap : Heap) :
    (dead.foldl retire heap).cells = heap.cells ∧ (dead.foldl retire heap).nextRef = heap.nextRef ∧
      (dead.foldl retire heap).gray = heap.gray ∧ (dead.foldl retire heap).config = heap.config ∧
      (dead.foldl retire heap).statistics.bytesLive =
        heap.statistics.bytesLive - (dead.map (·.trackedSize)).foldr (· + ·) 0 := by
  induction dead generalizing heap with
  | nil => simp
  | cons cell rest ih =>
    have halike := alike_releaseBlock { heap with
      statistics :=
        { heap.statistics with
          totalFreed := heap.statistics.totalFreed + cell.trackedSize
          bytesLive := heap.statistics.bytesLive - cell.trackedSize
          objects := heap.statistics.objects - 1 } } cell.object.blockSize
    obtain ⟨hcells, hnext, hgray, hconfig, hbytes⟩ := ih (heap.retire cell)
    refine ⟨hcells.trans halike.cells, hnext.trans halike.nextRef, hgray.trans halike.gray,
      hconfig.trans halike.config, ?_⟩
    rw [List.foldl_cons, hbytes, retire, halike.bytesLive, List.map_cons, List.foldr_cons]
    grind

theorem newestFirst_eq (heap : Heap) : heap.newestFirst = heap.cells.toList.reverse := by
  have hfold (entries : List (Ref × Cell)) (seen : List (Ref × Cell)) :
      entries.foldl (fun seen entry => (entry.1, entry.2) :: seen) seen = entries.reverse ++ seen := by
    induction entries generalizing seen with
    | nil => rfl
    | cons entry rest ih => simp [ih]
  rw [newestFirst, Std.TreeMap.foldl_eq_foldl_toList, hfold, List.append_nil]

/-- The bytes of the objects in some cells. -/
def bytesOf (cells : List Cell) : Nat :=
  (cells.map (·.object.memorySize)).sum

/-- The bytes accounted for some cells. -/
def trackedBytes (cells : List Cell) : UInt64 :=
  (cells.map (·.trackedSize)).foldr (· + ·) 0

/-- The cells of a heap, oldest first. -/
def oldestFirst (heap : Heap) : List Cell :=
  heap.cells.toList.map (·.2)

theorem footprint_eq_bytesOf (heap : Heap) : heap.footprint = bytesOf heap.oldestFirst := by
  have hnodup : heap.cells.keys.Nodup := Std.TreeMap.nodup_keys
  unfold footprint refs bytesOf oldestFirst
  rw [List.sum_toFinset _ hnodup, ← Std.TreeMap.map_fst_toList_eq_keys, List.map_map, List.map_map]
  refine congrArg List.sum (List.map_congr_left fun entry hentry => ?_)
  have hcell : heap.cells[entry.1]? = some entry.2 :=
    Std.TreeMap.mem_toList_iff_getElem?_eq_some.mp hentry
  simp [sizeAt, get?, hcell]

/-- The bytes of some cells are those that stay and those that go. -/
theorem bytesOf_split (cells : List Cell)
    (htracked : ∀ cell ∈ cells, cell.trackedSize = cell.object.memorySize.toUInt64) :
    (bytesOf cells).toUInt64 =
      (bytesOf (cells.filter (·.marked))).toUInt64 + trackedBytes (cells.filter (!·.marked)) := by
  induction cells with
  | nil => rfl
  | cons cell rest ih =>
    have hrest := ih fun other hother => htracked other (List.mem_cons_of_mem _ hother)
    have hcell := htracked cell (List.mem_cons_self ..)
    have hcons (first : Cell) (others : List Cell) : (bytesOf (first :: others)).toUInt64 =
        first.object.memorySize.toUInt64 + (bytesOf others).toUInt64 := UInt64.ofNat_add _ _
    have htrack (first : Cell) (others : List Cell) :
        trackedBytes (first :: others) = first.trackedSize + trackedBytes others := rfl
    cases hmark : cell.marked with
    | true =>
      rw [hcons, hrest, List.filter_cons_of_pos hmark, List.filter_cons_of_neg (by simp [hmark]),
        hcons]
      grind
    | false =>
      rw [hcons, hrest, List.filter_cons_of_neg (by simp [hmark]),
        List.filter_cons_of_pos (by simp [hmark]), htrack, hcell]
      grind

theorem trackedBytes_reverse (cells : List Cell) : trackedBytes cells.reverse = trackedBytes cells := by
  have hcomm : LeftCommutative (α := UInt64) (· + ·) := ⟨fun a b c => by grind⟩
  unfold trackedBytes
  rw [List.map_reverse]
  exact (List.reverse_perm _).foldr_eq 0

/-- The objects that a sweep gives up, newest first. -/
theorem dead_eq (heap : Heap) :
    (heap.newestFirst.filterMap fun (_, cell) => if cell.marked then none else some cell) =
      (heap.oldestFirst.filter (!·.marked)).reverse := by
  rw [newestFirst_eq, List.filterMap_reverse, oldestFirst]
  congr 1
  induction heap.cells.toList with
  | nil => rfl
  | cons entry rest ih => cases hmark : entry.2.marked <;> simp [hmark, ih]

/-- What is left of a cell after a sweep. -/
def swept (found : Option Cell) : Option Cell :=
  (found.filter (·.marked)).map fun cell => { cell with marked := false }

private theorem swept_spec (found : Option Cell) :
    (swept found).map (·.object) =
        (if found.any (·.marked) then found.map (·.object) else none) ∧
      (swept found).any (·.marked) = false ∧
      ∀ cell, swept found = some cell → ∃ before, found = some before ∧
        cell.object = before.object ∧ cell.trackedSize = before.trackedSize := by
  cases found with
  | none => simp [swept]
  | some cell =>
    cases hmark : cell.marked
    · simp [swept, Option.filter, hmark]
    · simp [swept, Option.filter, hmark]

theorem getElem?_sweep (heap : Heap) (ref : Ref) : heap.sweep.1.cells[ref]? = swept heap.cells[ref]? := by
  rw [sweep]
  simp only [(foldl_retire_spec _ _).1, Std.TreeMap.getElem?_map, Std.TreeMap.getElem?_filter', swept]

/-- The survivors of a sweep are the marked objects, and the account is that of the survivors. -/
theorem sweep_spec (heap : Heap) :
    (∀ ref, heap.sweep.1.get? ref = if heap.isMarked ref then heap.get? ref else none) ∧
      (∀ ref, heap.sweep.1.isMarked ref = false) ∧ heap.sweep.1.nextRef = heap.nextRef ∧
      heap.sweep.1.gray = heap.gray ∧ heap.sweep.1.config = heap.config ∧
      (heap.Accounted → heap.sweep.1.Accounted) := by
  obtain ⟨hcells, hnext, hgray, hconfig, hbytes⟩ := foldl_retire_spec
    (heap.newestFirst.filterMap fun (_, cell) => if cell.marked then none else some cell)
    { heap with
      cells := (heap.cells.filter fun _ cell => cell.marked).map
        fun _ cell => { cell with marked := false } }
  have hlookup := getElem?_sweep heap
  refine ⟨fun ref => ?_, fun ref => ?_, hnext, hgray, hconfig, fun haccounted => ⟨?_, ?_⟩⟩
  · rw [get?, hlookup]
    exact (swept_spec _).1
  · rw [isMarked, hlookup]
    exact (swept_spec _).2.1
  · intro ref cell hcell
    rw [hlookup] at hcell
    obtain ⟨before, hbefore, hobject, htracked⟩ := (swept_spec _).2.2 cell hcell
    rw [hobject, htracked]
    exact haccounted.tracked ref before hbefore
  · have hsplit := bytesOf_split heap.oldestFirst fun cell hcell => by
      obtain ⟨entry, hentry, rfl⟩ := List.mem_map.mp hcell
      exact haccounted.tracked entry.1 entry.2
        (Std.TreeMap.mem_toList_iff_getElem?_eq_some.mp hentry)
    have hsurvivors : heap.sweep.1.footprint = bytesOf (heap.oldestFirst.filter (·.marked)) := by
      rw [footprint_eq_bytesOf, sweep, oldestFirst, oldestFirst]
      simp only [hcells, Std.TreeMap.toList_map, Std.TreeMap.toList_filter, bytesOf, List.map_map,
        List.filter_map]
      rfl
    have hlive : heap.sweep.1.statistics.bytesLive =
        heap.statistics.bytesLive - trackedBytes (heap.oldestFirst.filter (!·.marked)) := by
      rw [sweep, hbytes, ← trackedBytes_reverse, ← dead_eq]
      rfl
    rw [hlive, hsurvivors, haccounted.bytesLive, footprint_eq_bytesOf, hsplit]
    grind

/-- What a collection from some roots does to an idle heap. -/
structure Collected (heap : Heap) (roots : List Value) (after : Heap) : Prop where
  reached : ∀ ref, heap.Reachable roots ref → after.get? ref = heap.get? ref
  lost : ∀ ref, ¬ heap.Reachable roots ref → after.get? ref = none
  idle : after.Idle
  nextRef : after.nextRef = heap.nextRef
  config : after.config = heap.config
  accounted : heap.Accounted → after.Accounted

theorem Accounted.of_retouched {heap other : Heap} (haccounted : heap.Accounted)
    (htouched : Retouched heap other) : other.Accounted := by
  refine ⟨fun ref cell hcell => ?_, ?_⟩
  · have hcontents := htouched.cell ref
    rw [hcell, Option.map_some, eq_comm, Option.map_eq_some_iff] at hcontents
    obtain ⟨before, hbefore, hsame⟩ := hcontents
    have htracked := haccounted.tracked ref before hbefore
    simp only [Cell.contents, Prod.mk.injEq] at hsame
    rwa [hsame.1, hsame.2] at htracked
  · rw [footprint_congr htouched.get?, htouched.rest]
    exact haccounted.bytesLive

theorem foldl_markValue_eq (roots : List Value) (heap : Heap) :
    roots.foldl markValue heap = (roots.filterMap Value.ref?).foldl markRef heap := by
  induction roots generalizing heap with
  | nil => rfl
  | cons value rest ih =>
    cases href : value.ref? with
    | none => simp [markValue, href, ih]
    | some ref => simp [markValue, href, ih]

theorem card_refs (heap : Heap) : heap.refs.card = heap.cells.size := by
  have hnodup : heap.cells.keys.Nodup := Std.TreeMap.nodup_keys
  rw [refs, List.toFinset_card_of_nodup hnodup, Std.TreeMap.length_keys]

theorem pending_of_unmarked {heap : Heap} (hgray : heap.gray = [])
    (hunmarked : ∀ ref, heap.isMarked ref = false) : heap.pending = heap.refs.card := by
  have hall : heap.unmarkedRefs = heap.refs :=
    Finset.filter_true_of_mem fun ref _ => hunmarked ref
  rw [pending, hgray, hall, List.length_nil, Nat.zero_add]

theorem reachable_congr (heap other : Heap) (hget : ∀ ref, other.get? ref = heap.get? ref)
    {roots : List Value} {ref : Ref} (hreach : other.Reachable roots ref) :
    heap.Reachable roots ref := by
  induction hreach with
  | root hvalue href => exact .root hvalue href
  | step _ hobject htarget ih => exact .step ih (by rw [← hget]; exact hobject) htarget

/-- Once nothing waits any more, the marked objects are those that the roots lead to. -/
theorem Tracing.isMarked_iff {start traced : Heap} {roots : List Value}
    (htracing : Tracing start roots ∅ traced) (hgray : traced.gray = [])
    (hroots : ∀ value ∈ roots, ∀ ref ∈ value.ref?, ref ∈ start.refs → traced.isMarked ref = true)
    {ref : Ref} (hmem : ref ∈ start.refs) :
    traced.isMarked ref = true ↔ start.Reachable roots ref := by
  refine ⟨htracing.sound ref, fun hreach => ?_⟩
  induction hreach with
  | root hvalue href => exact hroots _ hvalue _ href hmem
  | step _ hobject htarget ih =>
    have hmarked := ih (mem_refs.mpr ⟨_, hobject⟩)
    exact htracing.followed _ _ hmarked (by simp [hgray]) (Set.notMem_empty _) hobject _ htarget hmem

theorem Tracing.traceSteps_mono {start traced : Heap} {roots : List Value} (steps : Nat)
    (htracing : Tracing start roots ∅ traced) {ref : Ref} (hmarked : traced.isMarked ref = true) :
    (Heap.traceSteps steps traced).isMarked ref = true := by
  induction steps generalizing traced with
  | zero => exact hmarked
  | succ steps ih =>
    unfold Heap.traceSteps
    cases hgray : traced.gray with
    | nil => exact hmarked
    | cons first gray =>
      exact ih (htracing.follow hgray).1
        ((isMarked_foldl_markRef _ { traced with gray } ref).mpr (Or.inl hmarked))

/-- An idle heap after the walk of a collection from some roots. -/
def traced (heap : Heap) (roots : List Value) : Heap :=
  (roots.foldl markValue heap.beginCycle).traceReferences

/-- The walk of a collection only sets marks. It ends with nothing waiting, however the objects refer to
one another, and with marks on the objects that the roots lead to. -/
theorem traced_spec {heap : Heap} (hidle : heap.Idle) (roots : List Value) :
    Retouched heap.beginCycle (heap.traced roots) ∧ (heap.traced roots).gray = [] ∧
      ∀ ref ∈ heap.refs, ((heap.traced roots).isMarked ref = true ↔ heap.Reachable roots ref) := by
  have hfresh : ∀ ref, heap.beginCycle.isMarked ref = false := hidle.unmarked
  have hempty : heap.beginCycle.gray = [] := hidle.gray
  have hstart : Tracing heap.beginCycle roots ∅ heap.beginCycle := by
    refine ⟨Retouched.refl _, fun ref href => ?_, fun ref href => ?_, fun ref _ href => ?_⟩
    · exact absurd href (by simp [hfresh ref])
    · exact absurd href (by simp [hempty])
    · exact absurd href (by simp [hfresh ref])
  rw [traced, foldl_markValue_eq]
  let marked := (roots.filterMap Value.ref?).foldl Heap.markRef heap.beginCycle
  have hmarked : Tracing heap.beginCycle roots ∅ marked := by
    refine hstart.foldl_markRef _ fun target htarget => ?_
    obtain ⟨value, hvalue, href⟩ := List.mem_filterMap.mp htarget
    exact .root hvalue href
  have hpending : marked.pending = marked.cells.size := by
    rw [← card_refs, hmarked.retouched.refs, pending_foldl_markRef]
    exact pending_of_unmarked hempty hfresh
  obtain ⟨htraced, hgray⟩ := hmarked.traceSteps _ hpending.le
  refine ⟨htraced.retouched, hgray, fun ref hmem => ?_⟩
  have hbegun : heap.beginCycle.Reachable roots ref ↔ heap.Reachable roots ref :=
    ⟨reachable_congr heap heap.beginCycle fun _ => rfl,
      reachable_congr heap.beginCycle heap fun _ => rfl⟩
  refine (htraced.isMarked_iff hgray (fun value hvalue target htarget hthere => ?_) hmem).trans hbegun
  refine hmarked.traceSteps_mono _ ((isMarked_foldl_markRef _ _ target).mpr (Or.inr ⟨?_, hthere⟩))
  exact List.mem_filterMap.mpr ⟨value, hvalue, htarget⟩

/-- A collection keeps the objects that its roots lead to and gives up all others. -/
theorem collect_spec {heap : Heap} (hidle : heap.Idle) (roots : List Value) :
    Collected heap roots (heap.collect roots).1 := by
  obtain ⟨htouched, hgray, hmarks⟩ := traced_spec hidle roots
  have hlookup (ref : Ref) : (heap.traced roots).get? ref = heap.get? ref := htouched.get? ref
  obtain ⟨hget, hunmarked, hnext, hsweptGray, hconfig, haccounted⟩ := sweep_spec (heap.traced roots)
  have hcollect : (heap.collect roots).1 = (roots.foldl markValue heap.beginCycle).endCycle.1 := by
    simp [collect, hidle.collecting]
  rw [hcollect]
  refine ⟨fun ref hreach => ?_, fun ref hlost => ?_, ⟨?_, rfl, hunmarked⟩, ?_, ?_, fun hbefore => ?_⟩
  · refine (hget ref).trans ?_
    cases hobject : heap.get? ref with
    | none => simp [hlookup, hobject]
    | some object => simp [hlookup, hobject, (hmarks ref (mem_refs.mpr ⟨object, hobject⟩)).mpr hreach]
  · refine (hget ref).trans ?_
    cases hobject : heap.get? ref with
    | none => simp [hlookup, hobject]
    | some object =>
      have hnot := mt (hmarks ref (mem_refs.mpr ⟨object, hobject⟩)).mp hlost
      simp [hnot]
  · exact hsweptGray.trans hgray
  · exact hnext.trans (by rw [htouched.rest]; rfl)
  · exact hconfig.trans (by rw [htouched.rest]; rfl)
  · have hbegun : heap.beginCycle.Accounted := ⟨hbefore.tracked, hbefore.bytesLive⟩
    have hdone := haccounted (hbegun.of_retouched htouched)
    exact ⟨hdone.tracked, hdone.bytesLive⟩

end OwnScript.Heap
