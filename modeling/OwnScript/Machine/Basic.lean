import OwnScript.Code.Unit
import OwnScript.Heap.Collection
import OwnScript.Heap.View

/-!
Machines: an operand stack, the active calls, the global variables of the loaded unit and a heap.
Variables that closures have captured live in cells; the cells of slots that are still on the
stack are listed from the highest slot down.

The storage of the stack keeps what stood above its top. No instruction of compiled code looks there,
but an instruction that names a slot directly reads and writes whatever the slot holds.
-/

namespace OwnScript

/-- An active call. -/
structure Frame where
  /-- The slot of the first argument. -/
  base : Nat
  /-- Where the caller goes on. -/
  returnTo : Nat
  /-- The code of the caller; a call by the host has none. -/
  caller : Option Chunk
  /-- The closure that is executed. -/
  closure : Ref
  argumentCount : Nat

/-- A cell that stands for a slot of the stack. -/
structure OpenCell where
  slot : Nat
  cell : Ref
  deriving Repr, DecidableEq

/-- The storage of the stack above its top. -/
structure Leftovers where
  /-- The slots that there is storage for. -/
  room : Nat := 0
  /-- What is left in slots that were set before. Slots below the top do not count. -/
  values : Std.TreeMap Nat Value := {}

namespace Leftovers

/-- The room of a stack that may have grown up to a height: a full stack moves to new storage, which
has room for at least one more value. The first argument bounds the number of moves. -/
def roomFor : Nat → Nat → Nat → Nat
  | 0, room, _ => room
  | moves + 1, room, height =>
    if height ≤ room then room else roomFor moves (grownCapacity room) height

/-- What is left above a stack that has grown to a height since: nothing, if it moved. -/
def under (leftovers : Leftovers) (height : Nat) : Leftovers :=
  if height ≤ leftovers.room then leftovers
  else { room := roomFor height leftovers.room height }

/-- Sets a slot above the top. -/
def set (leftovers : Leftovers) (slot : Nat) (value : Value) : Leftovers :=
  { leftovers with values := leftovers.values.insert slot value }

/-- Leaves the values of a stack behind, a number of them from a slot on. -/
def leave (stack : Array Value) : Nat → Nat → Leftovers → Leftovers
  | 0, _, leftovers => leftovers
  | count + 1, slot, leftovers =>
    leave stack count (slot + 1) (stack[slot]?.elim leftovers (leftovers.set slot))

end Leftovers

/-- A machine. -/
structure Machine where
  config : MachineConfig
  heap : Heap
  /-- The loaded unit. -/
  unit : CodeUnit := {}
  /-- The global variables; those that are not defined yet have no value. -/
  globals : Array (Option Value) := #[]
  stack : Array Value := #[]
  /-- What the stack has left behind above its top. -/
  leftovers : Leftovers := {}
  /-- The active calls, outermost first. -/
  frames : Array Frame := #[]
  /-- The code of the innermost call. -/
  chunk : Option Chunk := none
  /-- The offset of the next byte of code. -/
  ip : Nat := 0
  /-- The offset of the instruction that runs. -/
  instructionStart : Nat := 0
  /-- The cells of slots on the stack, highest slot first. -/
  openCells : List OpenCell := []
  halted : Bool := false
  result : Value := .nil
  /-- Values of the host that live as long as a run. -/
  pinned : List Value := []
  /-- Strings made for the host and not handed in yet. -/
  hostValues : List Value := []
  /-- What was printed. -/
  output : String := ""
  /-- The listing of executed instructions. -/
  trace : String := ""

/-- Why an instruction does not end normally. -/
inductive Fault where
  /-- The program failed. -/
  | failure (diagnostic : Diagnostic)
  /-- The heap is full. -/
  | exhausted (request : HeapExhausted)
  /-- The instruction reaches outside its code, its tables or the storage of the stack, or reads
  storage that was never set, which verified code is meant never to do. -/
  | stray
  /-- The run was cut off. -/
  | outOfFuel
  deriving DecidableEq

/-- A step of a machine. The state at a fault is kept. -/
abbrev Exec := EStateM Fault Machine

namespace Machine

/-- A machine with nothing loaded. -/
def ofConfig (config : Config) : Machine :=
  { config := config.machine
    heap := Heap.ofConfig config.heap
    leftovers := { room := config.machine.initialStackSize.toNat } }

/-- A machine with nothing loaded, if it can be set up as wanted. -/
def ofConfig? (config : Config) : Option Machine :=
  if config.machine.feasible then some (ofConfig config) else none

/-- Everything that a collection must keep. -/
def roots (m : Machine) : List Value :=
  m.stack.toList ++ m.globals.toList.filterMap id
    ++ m.frames.toList.map (fun frame => .ofRef frame.closure)
    ++ m.openCells.map (fun entry => .ofRef entry.cell)
    ++ m.pinned ++ m.hostValues ++ [m.result]

/-- Collects garbage. -/
def collectGarbage (m : Machine) : Machine :=
  { m with heap := (m.heap.collect m.roots).1 }

/-- The value of a slot, nil if the stack does not reach it. -/
def slotOrNil (m : Machine) (slot : Nat) : Value :=
  m.stack[slot]?.getD .nil

/-- Closes the cells of a slot and of those above it. Each takes the value of its slot; a slot that
was captured before anything was pushed there has none. -/
def closeCells (m : Machine) (slot : Nat) : Machine :=
  let (closing, openCells) := m.openCells.span (fun entry => slot ≤ entry.slot)
  let heap := closing.foldl
    (fun heap entry => heap.update entry.cell (.upvalue (.closed (m.slotOrNil entry.slot)))) m.heap
  { m with heap, openCells }

/-- What is left above the top after the stack is cut to a height. -/
def leftBehind (m : Machine) (height : Nat) : Leftovers :=
  .leave m.stack (m.stack.size - height) height (m.leftovers.under m.stack.size)

/-- Cuts the stack to a height. What stood above stays in its storage. -/
def cut (m : Machine) (height : Nat) : Machine :=
  { m with leftovers := m.leftBehind height, stack := m.stack.shrink height }

/-- Gives up the active calls and the stack. Closures that got away keep what they captured. -/
def reset (m : Machine) : Machine :=
  { m.closeCells 0 with
    leftovers := m.leftBehind 0, stack := #[], frames := #[], chunk := none, ip := 0,
    instructionStart := 0, halted := false }

/-- Cuts the stack, or fills it up with nil, to a height. -/
def resizeStack (m : Machine) (height : Nat) : Machine :=
  let missing := height - m.stack.size
  let cut := m.cut height
  { cut with stack := cut.stack ++ Array.replicate missing .nil }

/-- What is left in a slot above the top. A reference to an object that was given up meanwhile leads
to none: collections do not look above the top. -/
def leftover? (m : Machine) (slot : Nat) : Option Value :=
  (m.leftovers.under m.stack.size).values[slot]?.map m.heap.surviving

/-- The value of a slot of the stack or above it. -/
def slot? (m : Machine) (slot : Nat) : Option Value :=
  m.stack[slot]?.or (m.leftover? slot)

/-- The name of the function of a call. -/
def functionName (m : Machine) (ref : Ref) : String :=
  match m.heap.get? ref with
  | some (.closure prototype _) => closureName prototype
  | _ => "<script>"

/-- A global variable that is defined. -/
def global? (m : Machine) (name : String) : Option Value :=
  (m.unit.findGlobal? name).bind fun slot => (m.globals[slot]?).join

end Machine

namespace Exec

/-- Fails with a diagnostic. -/
def fail {α : Type} (diagnostic : Diagnostic) : Exec α :=
  throw (.failure diagnostic)

/-- The stack has fewer values than the instruction needs. -/
def underflow {α : Type} : Exec α :=
  fail (.plain .malformedBytecode "stack underflow")

/-- What verified code always finds. -/
def expect {α : Type} (found : Option α) : Exec α :=
  match found with
  | some value => return value
  | none => throw .stray

/-- The result of a pure step. -/
def ofExcept {α : Type} (result : Except Diagnostic α) : Exec α :=
  match result with
  | .ok value => return value
  | .error diagnostic => fail diagnostic

/-- Pushes a value. -/
def push (value : Value) : Exec Unit := do
  let m ← get
  if m.config.maxStackSize.toNat ≤ m.stack.size then
    fail (.plain .stackOverflow "operand stack overflow")
  else set { m with stack := m.stack.push value }

/-- Pushes values in order. -/
def pushAll : List Value → Exec Unit
  | [] => return
  | value :: rest => do
    push value
    pushAll rest

/-- Pops a value. -/
def pop : Exec Value := do
  let m ← get
  match m.stack.back? with
  | some value =>
    set (m.cut (m.stack.size - 1))
    return value
  | none => underflow

/-- The value at a distance from the top. -/
def peek (distance : Nat) : Exec Value := do
  let m ← get
  if distance < m.stack.size then
    expect m.stack[m.stack.size - 1 - distance]?
  else underflow

/-- Replaces values on top of the stack by one. -/
def replaceTop (count : Nat) (value : Value) : Exec Unit := do
  modify fun m => m.cut (m.stack.size - count)
  push value

/-- The innermost call. -/
def frame : Exec Frame := do
  expect (← get).frames.back?

/-- The code of the innermost call. -/
def chunk : Exec Chunk := do
  expect (← get).chunk

/-- The index on the stack of a slot of the frame. -/
def localIndex (slot : Nat) : Exec Nat := do
  let index := (← frame).base + slot
  if index < (← get).stack.size then return index
  else fail (.plain .malformedBytecode "local slot beyond the operand stack")

/-- The value of a slot, which is not checked to lie below the top of the stack. -/
def readSlot (slot : Nat) : Exec Value := do
  expect ((← get).slot? slot)

/-- Changes a slot, which is not checked to lie below the top of the stack. -/
def writeSlot (slot : Nat) (value : Value) : Exec Unit := do
  let m ← get
  let leftovers := m.leftovers.under m.stack.size
  if slot < m.stack.size then
    modify fun m => { m with stack := m.stack.setIfInBounds slot value }
  else if slot < leftovers.room then
    modify fun m => { m with leftovers := leftovers.set slot value }
  else throw .stray

/-- Runs a step of the heap. -/
def onHeap {α : Type} (step : EStateM HeapExhausted Heap α) : Exec α := fun m =>
  match step m.heap with
  | .ok value heap => .ok value { m with heap }
  | .error request heap => .error (.exhausted request) { m with heap }

end Exec

end OwnScript
