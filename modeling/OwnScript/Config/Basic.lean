/-!
Settings of a machine and of its heap.
-/

namespace OwnScript

/-- Limits and switches of a machine. -/
structure MachineConfig where
  /-- Room set aside for the operand stack at the start. -/
  initialStackSize : UInt64 := 256
  /-- The largest height of the operand stack. -/
  maxStackSize : UInt64 := 65536
  /-- The largest number of active calls. -/
  maxCallDepth : UInt64 := 1024
  /-- Print memory statistics when the machine is given up. -/
  reportStatistics : Bool := false
  /-- List each instruction before it runs. -/
  traceExecution : Bool := false
  deriving DecidableEq

/-- The largest room that can be set aside for an operand stack. -/
def largestStackRoom : UInt64 := 0x7ffffffffffffff

/-- Whether a machine can be set up as wanted. -/
def MachineConfig.feasible (config : MachineConfig) : Bool :=
  config.initialStackSize ≤ largestStackRoom

/-- Limits and switches of a heap. -/
structure HeapConfig where
  /-- Bytes allocated before the first collection. -/
  initialThreshold : UInt64 := 1048576
  /-- How much the threshold grows with each collection. -/
  growthFactor : Float := 2.0
  /-- The largest number of live bytes. -/
  maxHeapBytes : UInt64 := 268435456
  /-- The largest number of bytes kept for reuse. -/
  maxFreeListBytes : UInt64 := 4194304
  /-- Collect at every safepoint. -/
  stress : Bool := false
  deriving DecidableEq

/-- All settings. -/
structure Config where
  machine : MachineConfig := {}
  heap : HeapConfig := {}
  deriving DecidableEq

end OwnScript
