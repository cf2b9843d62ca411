import OwnScript.Heap.Basic

/-!
Collection. A cycle marks the objects of its roots, follows their references until no marked
object is left to follow, and gives up the objects without a mark, newest first. Survivors keep
their references.
-/

namespace OwnScript.Heap

/-- Marks an object and puts it on the list of those to follow. -/
def markRef (heap : Heap) (ref : Ref) : Heap :=
  match heap.cells[ref]? with
  | some cell =>
    if cell.marked then heap
    else
      { heap with
        cells := heap.cells.insert ref { cell with marked := true }
        gray := ref :: heap.gray }
  | none => heap

/-- Marks the object of a value. -/
def markValue (heap : Heap) (value : Value) : Heap :=
  match value.ref? with
  | some ref => heap.markRef ref
  | none => heap

/-- Follows the objects on the list, one in each step. -/
def traceSteps : Nat → Heap → Heap
  | 0, heap => heap
  | steps + 1, heap =>
    match heap.gray with
    | [] => heap
    | ref :: gray =>
      let heap := { heap with gray }
      let references := ((heap.get? ref).map Object.references).getD []
      traceSteps steps (references.foldl markRef heap)

/-- Follows marked objects until none is left. Each object is put on the list once, when it is
marked, so there are at most as many steps as objects. -/
def traceReferences (heap : Heap) : Heap :=
  traceSteps heap.cells.size heap

/-- Gives up an object that is no longer entered: its bytes leave the account and its block may
be parked. -/
def retire (heap : Heap) (cell : Cell) : Heap :=
  { heap with
    statistics :=
      { heap.statistics with
        totalFreed := heap.statistics.totalFreed + cell.trackedSize
        bytesLive := heap.statistics.bytesLive - cell.trackedSize
        objects := heap.statistics.objects - 1 } }.releaseBlock cell.object.blockSize

/-- Gives up the objects without a mark and clears the marks of the others. The result is the
number of bytes reclaimed. -/
def sweep (heap : Heap) : Heap × UInt64 :=
  let dead := heap.newestFirst.filterMap fun (_, cell) => if cell.marked then none else some cell
  let survivors := (heap.cells.filter fun _ cell => cell.marked).map
    fun _ cell => { cell with marked := false }
  (dead.foldl retire { heap with cells := survivors },
    dead.foldl (fun bytes cell => bytes + cell.trackedSize) 0)

/-- The threshold after a collection: grown by the factor, at most the largest word. -/
def nextThreshold (heap : Heap) : UInt64 :=
  let next := heap.threshold.toFloat * heap.config.growthFactor
  if next ≥ 18446744073709551616.0 then 0xffffffffffffffff else next.toUInt64

/-- Starts a cycle. -/
def beginCycle (heap : Heap) : Heap :=
  { heap with collecting := true }

/-- Ends a cycle whose roots are marked. -/
def endCycle (heap : Heap) : Heap × UInt64 :=
  let (heap, reclaimed) := heap.traceReferences.sweep
  ({ heap with
      statistics.collections := heap.statistics.collections + 1
      bytesSinceCollection := 0
      collectionRequested := false
      threshold := heap.nextThreshold
      collecting := false }, reclaimed)

/-- A full cycle from the given roots. The result is the number of bytes reclaimed; a cycle that
is asked for during another does nothing. -/
def collect (heap : Heap) (roots : List Value) : Heap × UInt64 :=
  if heap.collecting then (heap, 0)
  else (roots.foldl markValue heap.beginCycle).endCycle

end OwnScript.Heap
