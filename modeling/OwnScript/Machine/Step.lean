import OwnScript.Code.Listing
import OwnScript.Machine.Arithmetic
import OwnScript.Machine.Basic
import OwnScript.Machine.Matching

/-!
The instructions of the machine. An instruction that needs storage allocates before it changes
anything else, so that it can run again after a collection.
-/

namespace OwnScript.Exec

/-- Replaces two operands by the result of an operator. -/
def binary (operator : Heap → Value → Value → Except Diagnostic Value) : Exec Unit := do
  let b ← peek 0
  let a ← peek 1
  let result ← ofExcept (operator (← get).heap a b)
  replaceTop 2 result

/-- Replaces one operand by the result of an operator. -/
def unary (operator : Heap → Value → Except Diagnostic Value) : Exec Unit := do
  let value ← peek 0
  let result ← ofExcept (operator (← get).heap value)
  replaceTop 1 result

/-- Pops two values and pushes whether they are equal, or whether they are not. -/
def equality (negated : Bool) : Exec Unit := do
  let b ← pop
  let a ← pop
  push (.ofBool ((← get).heap.equals a b != negated))

/-- The value of a global variable that must be defined by now. -/
def definedGlobal (slot : Nat) (verb : String) : Exec Value := do
  let m ← get
  match ← expect m.globals[slot]? with
  | some value => return value
  | none =>
    let name ← expect m.unit.globalNames[slot]?
    fail (.about .undefinedGlobal name s!"global '{name}' {verb} before it was defined")

/-- Defines a global variable. -/
def setGlobal (slot : Nat) (value : Value) : Exec Unit :=
  modify fun m => { m with globals := m.globals.setIfInBounds slot (some value) }

/-- The cells of the variables that the running closure has captured. -/
def upvalues : Exec (Array (Option Ref)) := do
  match (← get).heap.get? (← frame).closure with
  | some (.closure _ upvalues) => return upvalues
  | _ => throw .stray

/-- The cell of a captured variable. -/
def upvalueCell (index : Nat) : Exec (Ref × Upvalue) := do
  let cell ← expect (← expect (← upvalues)[index]?)
  match (← get).heap.get? cell with
  | some (.upvalue state) => return (cell, state)
  | _ => throw .stray

/-- The value of a captured variable: that of its slot while the cell is open. -/
def readUpvalue (index : Nat) : Exec Value := do
  match (← upvalueCell index).2 with
  | .opened slot => readSlot slot
  | .closed value => return value

/-- Changes a captured variable. -/
def writeUpvalue (index : Nat) (value : Value) : Exec Unit := do
  match ← upvalueCell index with
  | (_, .opened slot) => writeSlot slot value
  | (cell, .closed _) =>
    modify fun m => { m with heap := m.heap.update cell (.upvalue (.closed value)) }

/-- Puts a new cell in its place among the open ones. -/
def insertCell (new : OpenCell) : List OpenCell → List OpenCell
  | [] => [new]
  | entry :: rest =>
    if new.slot < entry.slot then entry :: insertCell new rest else new :: entry :: rest

/-- The cell of a slot, which all closures share that capture the slot. -/
def captureCell (slot : Nat) : Exec Ref := do
  match (← get).openCells.find? (fun entry => entry.slot == slot) with
  | some entry => return entry.cell
  | none =>
    let cell ← onHeap (Heap.allocate (.upvalue (.opened slot)))
    modify fun m => { m with openCells := insertCell { slot, cell } m.openCells }
    return cell

/-- The cells of the variables that a new closure captures. -/
def captureAll (base : Nat) (outer : Array (Option Ref)) :
    List Capture → List (Option Ref) → Exec (List (Option Ref))
  | [], cells => return cells.reverse
  | capture :: rest, cells => do
    let cell ← if capture.isLocal then some <$> captureCell (base + capture.index)
      else expect outer[capture.index]?
    captureAll base outer rest (cell :: cells)

/-- Pushes a closure of a function. -/
def pushClosure (prototype : Prototype) : Exec Unit := do
  let closure ← onHeap (Heap.allocate (.unboundClosure (some prototype)))
  let base := (← frame).base
  let cells ← captureAll base (← upvalues) prototype.captures.toList []
  modify fun m =>
    { m with heap := m.heap.update closure (.closure (some prototype) cells.toArray) }
  push (.ofRef closure)

/-- Calls a closure with the arguments on top of the stack. -/
def callValue (callee : Value) (argumentCount : Nat) : Exec Unit := do
  let m ← get
  match callee.ref?, m.heap.objectOf? callee with
  | some closure, some (.closure prototype _) =>
    let name := closureName prototype
    if m.config.maxCallDepth.toNat ≤ m.frames.size then
      fail (.about .stackOverflow name s!"call depth limit of {m.config.maxCallDepth.toNat} exceeded")
    let base := m.stack.size - argumentCount
    let slots := (prototype.map (·.maxSlots)).getD 0
    if m.config.maxStackSize.toNat < (base + max argumentCount slots) % UInt64.size then
      fail (.about .stackOverflow name s!"operand stack limit exceeded calling '{name}'")
    set { m with
          frames := m.frames.push { base, returnTo := m.ip, caller := m.chunk, closure, argumentCount }
          chunk := prototype.bind (·.chunk)
          ip := 0 }
  | _, _ =>
    let name := m.heap.typeName callee
    fail (.about .notCallable name s!"cannot call a value of type {name}")

/-- Ends the innermost call. The result goes to the caller, or to the host. -/
def returnFromFrame (result : Value) : Exec Unit := do
  let frame ← frame
  modify fun m =>
    ({ m with frames := m.frames.pop }.closeCells frame.base).resizeStack (frame.base - 1)
  match frame.caller with
  | none => modify fun m => { m with result, halted := true, chunk := none }
  | some chunk =>
    modify fun m => { m with chunk := some chunk, ip := frame.returnTo }
    push result

/-- The values on top of the stack. -/
def topValues (count : Nat) : Exec (Array Value) := do
  let m ← get
  if m.stack.size < count then underflow
  return m.stack.extract (m.stack.size - count) m.stack.size

/-- Builds a record from the values on top of the stack. -/
def buildRecord (names : List String) : Exec Unit := do
  let values ← topValues names.length
  let bytes := 64 + names.length * fieldBytes + textsCapacity names
  onHeap (Heap.ensureHeadroom bytes.toUInt64)
  let ref ← onHeap (Heap.allocate (.record {}))
  let fields := Fields.ofLiteral names values.toList
  modify fun m => { m with heap := m.heap.store ref (.record fields) }
  replaceTop names.length (.ofRef ref)

/-- Builds an array from the values on top of the stack. -/
def buildArray (count : Nat) : Exec Unit := do
  let values ← topValues count
  onHeap (Heap.ensureHeadroom (64 + count * elementBytes).toUInt64)
  let ref ← onHeap (Heap.allocate (.array {}))
  modify fun m => { m with heap := m.heap.store ref (.array (.exactly values)) }
  replaceTop count (.ofRef ref)

/-- The record that a value refers to. -/
def expectRecord (value : Value) (what : String) : Exec (Ref × Fields) := do
  let heap := (← get).heap
  match value.ref?, heap.objectOf? value with
  | some ref, some (.record fields) => return (ref, fields)
  | _, _ => fail (typeError s!"{what} expects a Record, got {heap.typeName value}")

/-- The array that a value refers to. -/
def expectArray (value : Value) (what : String) : Exec (Ref × Elements) := do
  let heap := (← get).heap
  match value.ref?, heap.objectOf? value with
  | some ref, some (.array elements) => return (ref, elements)
  | _, _ => fail (typeError s!"{what} expects an Array, got {heap.typeName value}")

/-- Replaces a record by the value of a field. -/
def getField (name : String) : Exec Unit := do
  let (_, fields) ← expectRecord (← peek 0) "field access"
  match fields.find? name with
  | some value => replaceTop 1 value
  | none => fail (.about .unknownField name s!"record has no field '{name}'")

/-- Stores the top of the stack in a field of the record below it. -/
def setField (name : String) : Exec Unit := do
  let value ← peek 0
  let (ref, fields) ← expectRecord (← peek 1) "field assignment"
  if fields.contains name then
    modify fun m => { m with heap := m.heap.update ref (.record (fields.replace name value)) }
  else
    let bytes := (fields.roomForOneMore - fields.capacity) * fieldBytes + textCapacity name
    onHeap (Heap.ensureHeadroom bytes.toUInt64)
    modify fun m => { m with heap := m.heap.store ref (.record (fields.append name value)) }
  replaceTop 2 value

/-- The position in an array that a value stands for. -/
def checkedIndex (elements : Elements) (index : Value) : Exec Nat := do
  match index with
  | .scalar (.int i) =>
    if i < 0 || (elements.values.size : Int) ≤ i.toInt then
      fail (.plain .indexOutOfRange
        s!"index {i.toInt} out of range for array of length {elements.values.size}")
    return i.toInt.toNat
  | _ =>
    let name := (← get).heap.typeName index
    fail (typeError s!"array index must be Int, got {name}")

/-- Replaces an array and an index by an element. -/
def getIndex : Exec Unit := do
  let index ← peek 0
  let (_, elements) ← expectArray (← peek 1) "indexing"
  let position ← checkedIndex elements index
  replaceTop 2 (← expect elements.values[position]?)

/-- Stores the top of the stack in an element of the array below it. -/
def setIndex : Exec Unit := do
  let value ← peek 0
  let index ← peek 1
  let (ref, elements) ← expectArray (← peek 2) "index assignment"
  let position ← checkedIndex elements index
  let values := elements.values.setIfInBounds position value
  modify fun m => { m with heap := m.heap.update ref (.array { elements with values }) }
  replaceTop 3 value

/-- Pushes what a match has bound and true, or false. -/
def pushMatch (bound : Option (List Value)) : Exec Unit := do
  match bound with
  | none => push (.ofBool false)
  | some values =>
    pushAll values
    push (.ofBool true)

/-- Matches the values from a slot on against matchers, one after the other up to the first that
fails, after what is bound so far. A matcher that asks nothing does not look at its slot. -/
def matchSlots : List Matcher → Nat → List Value → Exec (Option (List Value))
  | [], _, bound => return some bound
  | matcher :: rest, slot, bound => do
    if matcher.test = .wildcard then matchSlots rest (slot + 1) bound
    else
      let value ← readSlot slot
      match (← get).heap.matchValue matcher value with
      | none => return none
      | some values => matchSlots rest (slot + 1) (bound ++ values)

/-- Matches the arguments of the innermost call against the parameters of a clause. -/
def matchArguments (parameters : List Matcher) : Exec Unit := do
  let frame ← frame
  if frame.argumentCount = parameters.length then
    pushMatch (← matchSlots parameters frame.base [])
  else pushMatch none

/-- No clause of the running function accepts its arguments. -/
def noMatchingOverload : Exec Unit := do
  let frame ← frame
  let name := (← get).functionName frame.closure
  fail (.about .noMatchingOverload name
    s!"no clause of '{name}' accepts {frame.argumentCount} argument(s)")

/-- Skips bytes of code. -/
def skip (distance : Nat) : Exec Unit :=
  modify fun m => { m with ip := m.ip + distance }

/-- Carries out an operation with its operands; the next instruction follows unless it says
otherwise. -/
def execute (op : Opcode) (a b : Nat) : Exec Unit := do
  match op with
  | .constant =>
    match ← expect (← chunk).constants[a]? with
    | .scalar value => push (.scalar value)
    | _ => throw .stray
  | .string =>
    let text ← expect (← chunk).strings[a]?
    push (.ofRef (← onHeap (Heap.allocate (.string text))))
  | .pushNil => push .nil
  | .pushTrue => push (.ofBool true)
  | .pushFalse => push (.ofBool false)
  | .pop => let _ ← pop
  | .popMany =>
    if (← get).stack.size < a then underflow
    modify fun m => m.resizeStack (m.stack.size - a)
  | .dup => push (← peek 0)
  | .add | .subtract | .multiply | .divide | .modulo => binary (·.arithmetic op)
  | .negate => unary Heap.negate
  | .bitwiseAnd | .bitwiseOr | .bitwiseXor | .leftShift | .rightShift => binary (·.bitwise op)
  | .bitwiseNot => unary Heap.complement
  | .equal => equality false
  | .notEqual => equality true
  | .less | .greater | .lessEqual | .greaterEqual => binary (·.comparison op)
  | .logicalNot => push (.ofBool (!(← pop).truthy))
  | .getGlobal => push (← definedGlobal a "read")
  | .setGlobal => setGlobal a (← peek 0)
  | .moveGlobal =>
    push (← definedGlobal a "moved")
    setGlobal a .nil
  | .getLocal => push (← readSlot (← localIndex a))
  | .setLocal =>
    let value ← peek 0
    writeSlot (← localIndex a) value
  | .moveLocal =>
    let index ← localIndex a
    push (← readSlot index)
    writeSlot index .nil
  | .getUpvalue => push (← readUpvalue a)
  | .setUpvalue =>
    let value ← peek 0
    writeUpvalue a value
  | .moveUpvalue =>
    push (← readUpvalue a)
    writeUpvalue a .nil
  | .closeUpvalue =>
    modify fun m => if m.stack.isEmpty then m else m.closeCells (m.stack.size - 1)
    let _ ← pop
  | .jump => skip a
  | .jumpIfFalse => unless (← peek 0).truthy do skip a
  | .jumpIfTrue => if (← peek 0).truthy then skip a
  | .loopBack => modify fun m => { m with ip := m.ip - a }
  | .call =>
    let m ← get
    if m.stack.size < a + 1 then
      fail (.plain .malformedBytecode "not enough values for function call")
    callValue (← peek a) a
  | .ret => returnFromFrame (← pop)
  | .closure => pushClosure (← expect (← expect (← chunk).functions[a]?))
  | .record => buildRecord (← expect (← chunk).shapes[a]?)
  | .getField => getField (← expect (← chunk).strings[a]?)
  | .setField => setField (← expect (← chunk).strings[a]?)
  | .array => buildArray a
  | .getIndex => getIndex
  | .setIndex => setIndex
  | .matchValue =>
    let matcher ← expect (← chunk).matchers[a]?
    let value ← readSlot (← localIndex b)
    pushMatch ((← get).heap.matchValue matcher value)
  | .matchArgs => matchArguments (← expect (← chunk).clauses[a]?)
  | .noMatchingArm => fail (.plain .noMatchingArm "no cond arm matched")
  | .noMatchingOverload => noMatchingOverload
  | .printTop =>
    let value ← pop
    modify fun m => { m with output := m.output ++ m.heap.text value ++ "\n" }
  | .halt => returnFromFrame .nil

/-- The operand of that number of the instruction at an offset; an operation without it has none. -/
def operand (chunk : Chunk) (op : Opcode) (offset i : Nat) : Exec Nat :=
  if i < op.operandCount then expect (chunk.readShort? (offset + 1 + 2 * i)) else return 0

/-- Reads the next instruction and carries it out. -/
def dispatch : Exec Unit := do
  let chunk ← chunk
  let offset := (← get).ip
  let byte ← expect chunk.code[offset]?
  match Opcode.ofByte? byte with
  | none => fail (.plain .malformedBytecode s!"unknown opcode {byte.toNat}")
  | some op =>
    let a ← operand chunk op offset 0
    let b ← operand chunk op offset 1
    modify fun m => { m with ip := offset + op.size }
    execute op a b

end OwnScript.Exec
