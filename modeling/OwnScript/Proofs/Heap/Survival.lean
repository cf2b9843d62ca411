import OwnScript.Proofs.Heap.Soundness

/-!
The list of objects after a collection. Main statement: it is the list of before without the objects that the
roots do not lead to, in the same order and with every entry as it was; nothing is marked or waits any more,
and the bytes reclaimed are those of the objects that went.
-/

namespace OwnScript.Heap

open Classical in
/-- The entries of the objects that roots lead to, newest first. -/
noncomputable def reached (heap : Heap) (roots : List Value) : List (Ref × Cell) :=
  heap.newestFirst.filter fun entry => heap.Reachable roots entry.1

open Classical in
/-- The entries of the objects that roots do not lead to, newest first. -/
noncomputable def unreached (heap : Heap) (roots : List Value) : List (Ref × Cell) :=
  heap.newestFirst.filter fun entry => ¬ heap.Reachable roots entry.1

/-- What a collection from some roots leaves behind, and what it says it reclaimed. -/
structure KeepsExactly (heap : Heap) (roots : List Value) (outcome : Heap × UInt64) : Prop where
  objects : outcome.1.newestFirst = heap.reached roots
  unmarked : ∀ ref, outcome.1.isMarked ref = false
  gray : outcome.1.gray = []
  reclaimed : outcome.2 = trackedBytes ((heap.unreached roots).map (·.2))

variable {heap : Heap} {roots : List Value}

/-- The cell of an idle heap after the walk: only its mark may differ. -/
theorem getElem?_traced (hidle : heap.Idle) (roots : List Value) (ref : Ref) :
    (heap.traced roots).cells[ref]? =
      heap.cells[ref]?.map fun cell => { cell with marked := (heap.traced roots).isMarked ref } := by
  have hcontents := (traced_spec hidle roots).1.cell ref
  have hmark : (heap.traced roots).isMarked ref = (heap.traced roots).cells[ref]?.any (·.marked) := rfl
  change (heap.traced roots).cells[ref]?.map Cell.contents = heap.cells[ref]?.map Cell.contents at hcontents
  cases hbefore : heap.cells[ref]? with
  | none =>
    rw [hbefore, Option.map_none, Option.map_eq_none_iff] at hcontents
    rw [hcontents, Option.map_none]
  | some before =>
    rw [hbefore, Option.map_some, Option.map_eq_some_iff] at hcontents
    obtain ⟨after, hafter, hsame⟩ := hcontents
    rw [hafter, Option.any_some] at hmark
    rw [hafter, hmark, Option.map_some]
    obtain ⟨hobject, htracked⟩ := Prod.mk.inj hsame
    exact congrArg some (by rw [← hobject, ← htracked])

/-- A cell of an idle heap carries no mark. -/
theorem Idle.cell_marked (hidle : heap.Idle) {ref : Ref} {cell : Cell} (hcell : heap.cells[ref]? = some cell) :
    cell.marked = false := by
  have hunmarked := hidle.unmarked ref
  rwa [isMarked, hcell, Option.any_some] at hunmarked

theorem mem_refs_of_cell {ref : Ref} {cell : Cell} (hcell : heap.cells[ref]? = some cell) : ref ∈ heap.refs :=
  mem_refs.mpr ⟨cell.object, by rw [get?, hcell, Option.map_some]⟩

open Classical in
/-- The sweep after the walk puts the cells back as they were, as far as the roots lead to them. -/
theorem getElem?_collected (hidle : heap.Idle) (roots : List Value) (ref : Ref) :
    (heap.traced roots).sweep.1.cells[ref]? =
      heap.cells[ref]?.filter fun _ => decide (heap.Reachable roots ref) := by
  rw [getElem?_sweep, getElem?_traced hidle]
  cases hcell : heap.cells[ref]? with
  | none => rfl
  | some cell =>
    have hmarks := (traced_spec hidle roots).2.2 ref (mem_refs_of_cell hcell)
    have hunmarked := hidle.cell_marked hcell
    by_cases hreach : heap.Reachable roots ref
    · have hmark := hmarks.mpr hreach
      simp [swept, Option.filter, hmark, hreach, ← hunmarked]
    · have hmark := Bool.eq_false_iff.mpr (mt hmarks.mp hreach)
      simp [swept, Option.filter, hmark, hreach]

open Classical in
/-- The cells that the walk leaves without a mark. -/
theorem getElem?_unmarked (hidle : heap.Idle) (roots : List Value) (ref : Ref) :
    ((heap.traced roots).cells.filter fun _ cell => !cell.marked)[ref]? =
      heap.cells[ref]?.filter fun _ => decide (¬ heap.Reachable roots ref) := by
  rw [Std.TreeMap.getElem?_filter', getElem?_traced hidle]
  cases hcell : heap.cells[ref]? with
  | none => rfl
  | some cell =>
    have hmarks := (traced_spec hidle roots).2.2 ref (mem_refs_of_cell hcell)
    have hunmarked := hidle.cell_marked hcell
    by_cases hreach : heap.Reachable roots ref
    · have hmark := hmarks.mpr hreach
      simp [Option.filter, hmark, hreach]
    · have hmark := Bool.eq_false_iff.mpr (mt hmarks.mp hreach)
      simp [Option.filter, hmark, hreach, ← hunmarked]

open Classical in
theorem newestFirst_collected (hidle : heap.Idle) (roots : List Value) :
    (heap.traced roots).sweep.1.newestFirst = heap.reached roots := by
  have hcells : (heap.traced roots).sweep.1.cells.Equiv
      (heap.cells.filter fun ref _ => decide (heap.Reachable roots ref)) :=
    .of_forall_constGet?_eq fun ref => by
      rw [Std.TreeMap.getElem?_filter']
      exact getElem?_collected hidle roots ref
  rw [newestFirst_eq, hcells.toList_eq, Std.TreeMap.toList_filter, reached, newestFirst_eq, List.filter_reverse]

/-- The bytes that a sweep gives up are those of the cells without a mark. -/
theorem bytes_sweep (heap : Heap) :
    heap.sweep.2 = trackedBytes (((heap.cells.filter fun _ cell => !cell.marked).toList.reverse).map (·.2)) := by
  have hfold (cells : List Cell) (bytes : UInt64) :
      cells.foldl (fun bytes cell => bytes + cell.trackedSize) bytes = bytes + trackedBytes cells := by
    induction cells generalizing bytes with
    | nil => exact (UInt64.add_zero bytes).symm
    | cons cell rest ih => exact (ih _).trans (UInt64.add_assoc ..)
  rw [sweep]
  dsimp only
  rw [hfold, UInt64.zero_add, dead_eq, oldestFirst, Std.TreeMap.toList_filter, List.map_reverse, List.filter_map]
  rfl

open Classical in
theorem bytes_collected (hidle : heap.Idle) (roots : List Value) :
    (heap.traced roots).sweep.2 = trackedBytes ((heap.unreached roots).map (·.2)) := by
  have hcells : ((heap.traced roots).cells.filter fun _ cell => !cell.marked).Equiv
      (heap.cells.filter fun ref _ => decide (¬ heap.Reachable roots ref)) :=
    .of_forall_constGet?_eq fun ref => by
      rw [Std.TreeMap.getElem?_filter' (t := heap.cells)]
      exact getElem?_unmarked hidle roots ref
  rw [bytes_sweep, hcells.toList_eq, Std.TreeMap.toList_filter, unreached, newestFirst_eq, List.filter_reverse]

theorem cells_collect (hidle : heap.Idle) (roots : List Value) :
    (heap.collect roots).1.cells = (heap.traced roots).sweep.1.cells := by
  rw [collect, if_neg (by simp [hidle.collecting])]
  rfl

theorem bytes_collect (hidle : heap.Idle) (roots : List Value) :
    (heap.collect roots).2 = (heap.traced roots).sweep.2 := by
  rw [collect, if_neg (by simp [hidle.collecting])]
  rfl

/-- A collection from any roots ends, and of the objects of the heap, however they refer to one another, exactly
those stay that the roots lead to. The list of objects is the one of before without the others, and what is
left of it, contents and sizes included, is as it was. No mark is left, nothing waits to be followed, and the
bytes reclaimed are those accounted for the objects that went. -/
theorem collect_keepsExactly (hidle : heap.Idle) (roots : List Value) :
    KeepsExactly heap roots (heap.collect roots) := by
  have hafter := (collect_spec hidle roots).idle
  refine ⟨?_, hafter.unmarked, hafter.gray, (bytes_collect hidle roots).trans (bytes_collected hidle roots)⟩
  rw [newestFirst_eq, cells_collect hidle, ← newestFirst_eq]
  exact newestFirst_collected hidle roots

/-- Two arrays that refer to each other, an open and a closed cell, a record that the closed cell holds, a closure in
the record that captures the closed cell, and a string. -/
def entangled : Heap :=
  [.array (.exactly #[.ofRef 1]), .array (.exactly #[.ofRef 0, .ofRef 3]), .upvalue (.opened 0),
    .upvalue (.closed (.ofRef 4)), .record (.ofLiteral ["peek", "again"] [.ofRef 5, .ofRef 0]),
    .closure none #[some 3], .string "lost"].foldl link (ofConfig {})

/-- From the first array everything but the open cell and the string is reached; from the open cell nothing else is. -/
theorem collect_keepsExactly_entangled :
    entangled.Idle ∧ KeepsExactly entangled [.ofRef 0] (entangled.collect [.ofRef 0]) ∧
      (entangled.collect [.ofRef 0]).1.newestFirst.map (·.1) = [5, 4, 3, 1, 0] ∧
      KeepsExactly entangled [.ofRef 2] (entangled.collect [.ofRef 2]) ∧
      (entangled.collect [.ofRef 2]).1.newestFirst.map (·.1) = [2] := by
  have hidle : entangled.Idle :=
    (((((((sound_ofConfig {}).idle.link _).link _).link _).link _).link _).link _).link _
  exact ⟨hidle, collect_keepsExactly hidle _, by decide +kernel, collect_keepsExactly hidle _, by decide +kernel⟩

end OwnScript.Heap
