import Std.Data.TreeMap
import OwnScript.Config.Basic
import OwnScript.Heap.Object

/-!
The heap: objects under their references, and the account of the bytes that they occupy. Storage
of an object that is given up may be parked for reuse; parked blocks are counted by size. Byte
counts are 64-bit words.
-/

namespace OwnScript

/-- An object with what the heap keeps about it. -/
structure Cell where
  object : Object
  /-- The bytes accounted for the object. -/
  trackedSize : UInt64
  /-- Set during a collection on the objects that were reached. -/
  marked : Bool := false

/-- The account of a heap since its creation. -/
structure HeapStatistics where
  totalAllocated : UInt64 := 0
  totalFreed : UInt64 := 0
  bytesLive : UInt64 := 0
  objects : Nat := 0
  peakObjects : Nat := 0
  collections : Nat := 0
  reusedBlocks : Nat := 0
  deriving Repr, DecidableEq

/-- A heap. -/
structure Heap where
  config : HeapConfig
  cells : Std.TreeMap Ref Cell := {}
  /-- The reference of the next object. -/
  nextRef : Ref := 0
  /-- Objects that a collection has reached but not followed yet. -/
  gray : List Ref := []
  /-- The number of parked blocks of each size. -/
  freeBlocks : Std.TreeMap Nat Nat := {}
  freeListBytes : UInt64 := 0
  bytesSinceCollection : UInt64 := 0
  /-- The bytes allocated since a collection that call for the next. -/
  threshold : UInt64
  collectionRequested : Bool := false
  collecting : Bool := false
  statistics : HeapStatistics := {}

/-- An allocation that would pass the limit of a heap. -/
structure HeapExhausted where
  requested : UInt64
  deriving Repr, DecidableEq

namespace Heap

/-- An empty heap. The threshold is never zero and never shrinks. -/
def ofConfig (config : HeapConfig) : Heap where
  config := if config.growthFactor < 1.0 then { config with growthFactor := 1.0 } else config
  threshold := max config.initialThreshold 1

/-- The object of a reference. -/
def get? (heap : Heap) (ref : Ref) : Option Object :=
  heap.cells[ref]?.map (·.object)

/-- The object of a value. -/
def objectOf? (heap : Heap) (value : Value) : Option Object :=
  value.ref?.bind heap.get?

/-- A value that was kept out of sight of collections. A reference to an object that was given up
leads to none. -/
def surviving (heap : Heap) (value : Value) : Value :=
  match value.ref? with
  | some ref => if (heap.get? ref).isSome then value else .object none
  | none => value

/-- The objects, newest first, each with its reference. -/
def newestFirst (heap : Heap) : List (Ref × Cell) :=
  heap.cells.foldl (fun seen ref cell => (ref, cell) :: seen) []

/-- Takes a parked block of a size for a new object, if there is one. -/
def acquireBlock (heap : Heap) (size : Nat) : Heap :=
  match heap.freeBlocks[size]? with
  | some (count + 1) =>
    { heap with
      freeBlocks := heap.freeBlocks.insert size count
      freeListBytes := heap.freeListBytes - size.toUInt64
      statistics.reusedBlocks := heap.statistics.reusedBlocks + 1 }
  | _ => heap

/-- Parks the block of a former object, unless too much is parked already. -/
def releaseBlock (heap : Heap) (size : Nat) : Heap :=
  if heap.freeListBytes + size.toUInt64 > heap.config.maxFreeListBytes then heap
  else
    { heap with
      freeBlocks := heap.freeBlocks.insert size ((heap.freeBlocks[size]?.getD 0) + 1)
      freeListBytes := heap.freeListBytes + size.toUInt64 }

/-- Enters a new object and accounts for its bytes. -/
def link (heap : Heap) (object : Object) : Heap :=
  let size := object.memorySize.toUInt64
  let objects := heap.statistics.objects + 1
  { heap with
    cells := heap.cells.insert heap.nextRef { object, trackedSize := size }
    nextRef := heap.nextRef + 1
    bytesSinceCollection := heap.bytesSinceCollection + size
    statistics :=
      { heap.statistics with
        totalAllocated := heap.statistics.totalAllocated + size
        bytesLive := heap.statistics.bytesLive + size
        objects
        peakObjects := max heap.statistics.peakObjects objects } }

/-- Allocates an object. Both its block and all its bytes have to fit below the limit; an object
that does not fit gives its block back. -/
def allocate (object : Object) : EStateM HeapExhausted Heap Ref := do
  let heap ← get
  let block := object.blockSize
  let size := object.memorySize.toUInt64
  if heap.statistics.bytesLive + block.toUInt64 > heap.config.maxHeapBytes then
    throw ⟨block.toUInt64⟩
  let heap := heap.acquireBlock block
  if heap.statistics.bytesLive + size > heap.config.maxHeapBytes then
    set (heap.releaseBlock block)
    throw ⟨size⟩
  set (heap.link object)
  return heap.nextRef

/-- Fails if so many more bytes would pass the limit. -/
def ensureHeadroom (bytes : UInt64) : EStateM HeapExhausted Heap Unit := do
  let heap ← get
  if bytes > heap.config.maxHeapBytes
      || heap.statistics.bytesLive > heap.config.maxHeapBytes - bytes then
    throw ⟨bytes⟩

/-- Replaces the object of a reference. -/
def update (heap : Heap) (ref : Ref) (object : Object) : Heap :=
  { heap with cells := heap.cells.modify ref (fun cell => { cell with object }) }

/-- Accounts for a new size of an object. -/
def recordSize (heap : Heap) (ref : Ref) (size : UInt64) : Heap :=
  match heap.cells[ref]? with
  | none => heap
  | some cell =>
    let cells := heap.cells.insert ref { cell with trackedSize := size }
    if size > cell.trackedSize then
      let grown := size - cell.trackedSize
      { heap with
        cells
        bytesSinceCollection := heap.bytesSinceCollection + grown
        statistics :=
          { heap.statistics with
            totalAllocated := heap.statistics.totalAllocated + grown
            bytesLive := heap.statistics.bytesLive + grown } }
    else
      let shrunk := cell.trackedSize - size
      { heap with
        cells
        statistics :=
          { heap.statistics with
            totalFreed := heap.statistics.totalFreed + shrunk
            bytesLive := heap.statistics.bytesLive - shrunk } }

/-- Replaces the object of a reference and accounts for its size. -/
def store (heap : Heap) (ref : Ref) (object : Object) : Heap :=
  (heap.update ref object).recordSize ref object.memorySize.toUInt64

/-- Asks for a collection at the next safepoint. -/
def requestCollection (heap : Heap) : Heap :=
  { heap with collectionRequested := true }

/-- Whether a collection is due. During a collection none is. -/
def shouldCollect (heap : Heap) : Bool :=
  !heap.collecting
    && (heap.config.stress || heap.collectionRequested
      || heap.bytesSinceCollection > heap.threshold)

end Heap

end OwnScript
