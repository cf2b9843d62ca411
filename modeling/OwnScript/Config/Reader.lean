import OwnScript.Config.Basic
import OwnScript.Json.Reader

/-!
Reading settings from a JSON document with optional sections for the machine and for the heap.
The document is merged into settings that are already there: keys that are absent keep their
value, unknown keys are ignored, and a document with any fault changes nothing. A library for JSON
reads the text and finds the keys.
-/

namespace OwnScript.Config

/-- Why settings were refused. -/
inductive Fault where
  | notJson
  | rootNotObject
  | sectionNotObject (name : String)
  | unexpected (name key kind : String)
  | growthBelowOne
  | limitNotPositive
  | unreadable (path : String)
  | inFile (path : String) (fault : Fault)

/-- The text of a fault. -/
def Fault.message : Fault → String
  | .notJson => "invalid JSON"
  | .rootNotObject => "configuration must be a JSON object"
  | .sectionNotObject name => s!"{name}: expected an object"
  | .unexpected name key kind => s!"{name}.{key}: unexpected {kind}"
  | .growthBelowOne => "gc.growth_factor: must be at least 1.0"
  | .limitNotPositive => "vm: stack and call depth limits must be positive"
  | .unreadable path => s!"cannot open: {path}"
  | .inFile path fault => s!"{path}: {fault.message}"

variable (library : Json.Library)

/-- The members of a section; an absent section has none. -/
def readSection (root : List (String × Json)) (name : String) :
    Except Fault (List (String × Json)) :=
  match library.find? root name with
  | none => .ok []
  | some (.object members) => .ok members
  | some _ => .error (.sectionNotObject name)

/-- The value of a key, or the current value if the key is absent. -/
def readField {α : Type} (view : Json → Option α) (name : String)
    (members : List (String × Json)) (key : String) (current : α) : Except Fault α :=
  match library.find? members key with
  | none => .ok current
  | some document =>
    match view document with
    | some value => .ok value
    | none => .error (.unexpected name key document.kindName)

/-- A switch is a boolean. -/
def asSwitch : Json → Option Bool
  | .bool value => some value
  | _ => none

/-- A factor is any number. -/
def asFactor : Json → Option Float
  | .number value => some value.toFloat
  | _ => none

/-- A size is a whole number that is not negative. -/
def asSize : Json → Option UInt64
  | .number value => value.toNat?.map Nat.toUInt64
  | _ => none

/-- The section of the machine merged into its settings. -/
def mergeMachine (members : List (String × Json)) (config : MachineConfig) :
    Except Fault MachineConfig := do
  let initialStackSize ← readField library asSize "vm" members "initial_stack_size" config.initialStackSize
  let maxStackSize ← readField library asSize "vm" members "max_stack_size" config.maxStackSize
  let maxCallDepth ← readField library asSize "vm" members "max_call_depth" config.maxCallDepth
  let reportStatistics ← readField library asSwitch "vm" members "enable_debug" config.reportStatistics
  let traceExecution ← readField library asSwitch "vm" members "trace_execution" config.traceExecution
  return { initialStackSize, maxStackSize, maxCallDepth, reportStatistics, traceExecution }

/-- The section of the heap merged into its settings. -/
def mergeHeap (members : List (String × Json)) (config : HeapConfig) : Except Fault HeapConfig := do
  let initialThreshold ← readField library asSize "gc" members "initial_threshold" config.initialThreshold
  let growthFactor ← readField library asFactor "gc" members "growth_factor" config.growthFactor
  let maxHeapBytes ← readField library asSize "gc" members "max_heap_bytes" config.maxHeapBytes
  let maxFreeListBytes ← readField library asSize "gc" members "max_free_list_bytes" config.maxFreeListBytes
  let stress ← readField library asSwitch "gc" members "stress" config.stress
  return { initialThreshold, growthFactor, maxHeapBytes, maxFreeListBytes, stress }

/-- Settings that read well may still make no sense: the heap must not shrink its threshold and
the machine must be able to run something. -/
def validate (config : Config) : Except Fault Config :=
  if config.heap.growthFactor < 1.0 then .error .growthBelowOne
  else if config.machine.maxStackSize == 0 || config.machine.maxCallDepth == 0 then
    .error .limitNotPositive
  else .ok config

/-- A document merged into settings. -/
def merge (config : Config) (document : Json) : Except Fault Config := do
  match document with
  | .object root =>
    let machine ← readSection library root "vm"
    let heap ← readSection library root "gc"
    let machine ← mergeMachine library machine config.machine
    let heap ← mergeHeap library heap config.heap
    validate { machine, heap }
  | _ => .error .rootNotObject

/-- The text of a document merged into settings. -/
def parseWith (config : Config) (text : String) : Except Fault Config :=
  match library.read? text with
  | some document => config.merge library document
  | none => .error .notJson

/-- What a host is left with that keeps its settings and the last complaint: whether the text was
taken over, the settings and the complaint. -/
def adopt (config : Config) (complaint text : String) : Bool × Config × String :=
  match config.parseWith library text with
  | .ok merged => (true, merged, complaint)
  | .error fault => (false, config, fault.message)

/-- The text of a document merged into settings by the library at hand. -/
def parse (config : Config) (text : String) : Except Fault Config :=
  config.parseWith Json.library text

/-- The contents of a file merged into settings; a file that cannot be read has none. -/
def load (config : Config) (path : String) (contents : Option String) : Except Fault Config :=
  match contents with
  | none => .error (.unreadable path)
  | some text =>
    match config.parse text with
    | .ok config => .ok config
    | .error fault => .error (.inFile path fault)

end OwnScript.Config
