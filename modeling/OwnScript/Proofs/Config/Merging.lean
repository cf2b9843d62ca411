import Mathlib
import OwnScript.Config.Reader

/-!
What reading settings comes to. There are ten settings in two parts. A document is merged into settings as a whole or
not at all: either it has no fault and replaces exactly the settings that it writes, or the first of its faults, in a
fixed order, is the complaint and the settings stay. What else stands in a document makes no difference.

All of this is stated in terms of the members of objects. The library that reads texts and finds members is not
looked into: of the members with a name it finds the last.
-/

namespace OwnScript

namespace Json

/-- A document is the last that the members of an object have under a name. -/
def IsLast (members : List (String × Json)) (name : String) (document : Json) : Prop :=
  ∃ before after, members = before ++ (name, document) :: after ∧ ∀ other, (name, other) ∉ after

/-- What the format says about a library: of the members with the same name the last one counts. -/
structure Library.Lawful (library : Library) : Prop where
  find?_iff : ∀ members name document, library.find? members name = some document ↔ IsLast members name document

theorem lastMember?_eq_some_iff {members : List (String × Json)} {name : String} {document : Json} :
    lastMember? members name = some document ↔ IsLast members name document := by
  simp only [lastMember?, Option.map_eq_some_iff, List.find?_eq_some_iff_append, beq_iff_eq]
  constructor
  · rintro ⟨⟨_, _⟩, ⟨rfl, after, before, hmembers, hothers⟩, rfl⟩
    refine ⟨before.reverse, after.reverse, ?_, fun other hother => ?_⟩
    · rw [← List.reverse_reverse members, hmembers]
      simp
    · simpa using hothers _ (List.mem_reverse.mp hother)
  · rintro ⟨before, after, rfl, hothers⟩
    refine ⟨(name, document), ⟨rfl, after.reverse, before.reverse, by simp, fun member hmember => ?_⟩, rfl⟩
    obtain ⟨other, value⟩ := member
    have hdifferent : other ≠ name := by
      rintro rfl
      exact hothers value (List.mem_reverse.mp hmember)
    simpa using hdifferent

theorem lawful_library : library.Lawful :=
  ⟨fun _ _ _ => lastMember?_eq_some_iff⟩

/-- There is only one way to find members. -/
theorem Library.Lawful.find?_eq {library : Library} (hlawful : library.Lawful) : library.find? = lastMember? := by
  funext members name
  refine Option.ext fun document => ?_
  rw [hlawful.find?_iff, lastMember?_eq_some_iff]

end Json

/-- A name leads to the same member if the others are left out. -/
theorem Json.lastMember?_filter {members : List (String × Json)} (keep : String → Bool) {name : String}
    (hkeep : keep name = true) :
    lastMember? (members.filter fun member => keep member.1) name = lastMember? members name := by
  unfold lastMember?
  rw [← List.filter_reverse, List.find?_filter]
  congr 2
  funext member
  by_cases hname : member.1 = name
  · simp [hname, hkeep]
  · simp [hname]

/-- A name leads to the same member as before, changed like all others. -/
theorem Json.lastMember?_map {members : List (String × Json)} (change : String → Json → Json) (name : String) :
    lastMember? (members.map fun member => (member.1, change member.1 member.2)) name =
      (lastMember? members name).map (change name) := by
  unfold lastMember?
  rw [← List.map_reverse, List.find?_map, Option.map_map, Option.map_map]
  cases hfound : members.reverse.find? (fun member => member.1 == name) with
  | none =>
    have hnone : members.reverse.find? ((fun member : String × Json => member.1 == name) ∘
        fun member => (member.1, change member.1 member.2)) = none := hfound
    rw [hnone]
    rfl
  | some member =>
    have hsome : members.reverse.find? ((fun member : String × Json => member.1 == name) ∘
        fun member => (member.1, change member.1 member.2)) = some member := hfound
    have hname : member.1 = name := by simpa using List.find?_some hfound
    rw [hsome]
    simp [hname]

namespace Config

/-- A part of the settings, which has a section of its own in a document. -/
inductive Part where
  | machine
  | heap
  deriving DecidableEq

/-- The name of the section of a part. -/
def Part.name : Part → String
  | .machine => "vm"
  | .heap => "gc"

/-- What a setting is: a switch, a factor or a size. -/
inductive Kind where
  | switch
  | factor
  | size

/-- The values of a kind. -/
abbrev Kind.Value : Kind → Type
  | .switch => Bool
  | .factor => Float
  | .size => UInt64

/-- A document writes a value of a kind. A factor is any number; a size is a whole number that is not negative. -/
inductive Kind.Writes : (kind : Kind) → Json → kind.Value → Prop where
  | switch (value : Bool) : Writes .switch (.bool value) value
  | factor (number : Json.Number) : Writes .factor (.number number) number.toFloat
  | unsigned (value : Nat) : Writes .size (.number (.unsigned value)) value.toUInt64
  | signed {value : Int} : 0 ≤ value → Writes .size (.number (.signed value)) value.toNat.toUInt64

/-- The reader of values of a kind. -/
def Kind.view : (kind : Kind) → Json → Option kind.Value
  | .switch => asSwitch
  | .factor => asFactor
  | .size => asSize

theorem Kind.view_eq_some_iff {kind : Kind} {document : Json} {value : kind.Value} :
    kind.view document = some value ↔ kind.Writes document value := by
  constructor
  · intro hview
    cases kind with
    | switch =>
      cases document <;> cases hview
      exact .switch _
    | factor =>
      cases document <;> cases hview
      exact .factor _
    | size =>
      cases document with
      | number number =>
        cases number with
        | unsigned written =>
          cases hview
          exact .unsigned written
        | signed written =>
          by_cases hsign : 0 ≤ written
          · simp only [view, asSize, Json.Number.toNat?, if_pos hsign] at hview
            cases hview
            exact .signed hsign
          · simp [view, asSize, Json.Number.toNat?, hsign] at hview
        | float => cases hview
      | _ => cases hview
  · rintro (⟨⟩ | ⟨⟩ | ⟨⟩ | hsign)
    · rfl
    · rfl
    · rfl
    · simp [view, asSize, Json.Number.toNat?, hsign]

/-- The settings, in the order in which they are read. -/
inductive Setting where
  | initialStackSize
  | maxStackSize
  | maxCallDepth
  | reportStatistics
  | traceExecution
  | initialThreshold
  | growthFactor
  | maxHeapBytes
  | maxFreeListBytes
  | stress
  deriving DecidableEq

namespace Setting

/-- The part that a setting belongs to. -/
def part : Setting → Part
  | .initialStackSize | .maxStackSize | .maxCallDepth | .reportStatistics | .traceExecution => .machine
  | .initialThreshold | .growthFactor | .maxHeapBytes | .maxFreeListBytes | .stress => .heap

/-- The key of a setting in the section of its part. -/
def key : Setting → String
  | .initialStackSize => "initial_stack_size"
  | .maxStackSize => "max_stack_size"
  | .maxCallDepth => "max_call_depth"
  | .reportStatistics => "enable_debug"
  | .traceExecution => "trace_execution"
  | .initialThreshold => "initial_threshold"
  | .growthFactor => "growth_factor"
  | .maxHeapBytes => "max_heap_bytes"
  | .maxFreeListBytes => "max_free_list_bytes"
  | .stress => "stress"

/-- What a setting is. -/
abbrev kind : Setting → Kind
  | .reportStatistics | .traceExecution | .stress => .switch
  | .growthFactor => .factor
  | _ => .size

/-- The settings of the machine. -/
def ofMachine : List Setting :=
  [.initialStackSize, .maxStackSize, .maxCallDepth, .reportStatistics, .traceExecution]

/-- The settings of the heap. -/
def ofHeap : List Setting :=
  [.initialThreshold, .growthFactor, .maxHeapBytes, .maxFreeListBytes, .stress]

/-- All settings. -/
def all : List Setting :=
  ofMachine ++ ofHeap

theorem mem_all (setting : Setting) : setting ∈ all := by
  cases setting <;> decide

/-- A document stands under the key of a setting in the section of its part. -/
def Stands (setting : Setting) (root : List (String × Json)) (document : Json) : Prop :=
  ∃ members, Json.IsLast root setting.part.name (.object members) ∧ Json.IsLast members setting.key document

/-- What stands under the key of a setting in the members of a document: nothing if the section or the key is
absent. -/
def document? (setting : Setting) (root : List (String × Json)) : Option Json :=
  match Json.lastMember? root setting.part.name with
  | some (.object members) => Json.lastMember? members setting.key
  | _ => none

theorem document?_eq_some_iff {setting : Setting} {root : List (String × Json)} {document : Json} :
    setting.document? root = some document ↔ setting.Stands root document := by
  unfold document? Stands
  simp only [← Json.lastMember?_eq_some_iff]
  cases Json.lastMember? root setting.part.name with
  | none => simp
  | some found => cases found <;> simp

/-- The value that a document writes for a setting. -/
def written? (setting : Setting) (root : List (String × Json)) : Option setting.kind.Value :=
  (setting.document? root).bind setting.kind.view

/-- The fault of a setting: something else than a value stands under its key. -/
def fault? (setting : Setting) (root : List (String × Json)) : Option Fault :=
  (setting.document? root).bind fun document =>
    if (setting.kind.view document).isSome then none
    else some (.unexpected setting.part.name setting.key document.kindName)

end Setting

/-- The fault of a part: its section is no object. -/
def Part.fault? (part : Part) (root : List (String × Json)) : Option Fault :=
  match Json.lastMember? root part.name with
  | none | some (.object _) => none
  | some _ => some (.sectionNotObject part.name)

/-- The value of a setting. -/
def get (config : Config) : (setting : Setting) → setting.kind.Value
  | .initialStackSize => config.machine.initialStackSize
  | .maxStackSize => config.machine.maxStackSize
  | .maxCallDepth => config.machine.maxCallDepth
  | .reportStatistics => config.machine.reportStatistics
  | .traceExecution => config.machine.traceExecution
  | .initialThreshold => config.heap.initialThreshold
  | .growthFactor => config.heap.growthFactor
  | .maxHeapBytes => config.heap.maxHeapBytes
  | .maxFreeListBytes => config.heap.maxFreeListBytes
  | .stress => config.heap.stress

/-- Settings are known by their values: there are no others than these ten. -/
theorem ext_get {config other : Config} (hsame : ∀ setting, config.get setting = other.get setting) :
    config = other := by
  obtain ⟨⟨_, _, _, _, _⟩, _, _, _, _, _⟩ := config
  obtain ⟨⟨_, _, _, _, _⟩, _, _, _, _, _⟩ := other
  obtain ⟨rfl, rfl, rfl, rfl, rfl⟩ : _ ∧ _ ∧ _ ∧ _ ∧ _ :=
    ⟨hsame .initialStackSize, hsame .maxStackSize, hsame .maxCallDepth, hsame .reportStatistics, hsame .traceExecution⟩
  obtain ⟨rfl, rfl, rfl, rfl, rfl⟩ : _ ∧ _ ∧ _ ∧ _ ∧ _ :=
    ⟨hsame .initialThreshold, hsame .growthFactor, hsame .maxHeapBytes, hsame .maxFreeListBytes, hsame .stress⟩
  rfl

/-- The settings with the given values. -/
def ofValues (value : (setting : Setting) → setting.kind.Value) : Config where
  machine :=
    { initialStackSize := value .initialStackSize
      maxStackSize := value .maxStackSize
      maxCallDepth := value .maxCallDepth
      reportStatistics := value .reportStatistics
      traceExecution := value .traceExecution }
  heap :=
    { initialThreshold := value .initialThreshold
      growthFactor := value .growthFactor
      maxHeapBytes := value .maxHeapBytes
      maxFreeListBytes := value .maxFreeListBytes
      stress := value .stress }

@[simp] theorem get_ofValues (value : (setting : Setting) → setting.kind.Value) (setting : Setting) :
    (ofValues value).get setting = value setting := by
  cases setting <;> rfl

/-- Settings with those replaced that a document writes. -/
def overlay (config : Config) (root : List (String × Json)) : Config :=
  ofValues fun setting => (setting.written? root).getD (config.get setting)

/-- Settings with those replaced that a document writes: each has the value written for it, and the others keep
theirs. -/
structure Overlays (config : Config) (root : List (String × Json)) (merged : Config) : Prop where
  written : ∀ setting document, Setting.Stands setting root document →
    setting.kind.Writes document (merged.get setting)
  kept : ∀ setting, (∀ document, ¬ Setting.Stands setting root document) → merged.get setting = config.get setting

/-- A document may be merged into settings and leads to others: its sections are objects, what it writes has the kind
of its setting, and the new settings make sense. -/
structure Admits (config : Config) (root : List (String × Json)) (merged : Config) : Prop where
  sections : ∀ part document, Json.IsLast root (Part.name part) document → ∃ members, document = .object members
  overlays : config.Overlays root merged
  growth : ¬ merged.heap.growthFactor < 1.0
  stack : merged.machine.maxStackSize ≠ 0
  depth : merged.machine.maxCallDepth ≠ 0

/-- What is checked of a text. -/
inductive Check where
  | readable
  | isObject
  | ofPart (part : Part)
  | ofSetting (setting : Setting)
  | growth
  | limits
  deriving DecidableEq

/-- All checks, in their order. -/
def Check.all : List Check :=
  [.readable, .isObject, .ofPart .machine, .ofPart .heap] ++ Setting.all.map .ofSetting ++ [.growth, .limits]

/-- A text does not pass a check, given the document that it writes, and this is its fault. The last checks are about
the settings as they would be. -/
inductive Violates (config : Config) : Option Json → Check → Fault → Prop where
  | readable : Violates config none .readable .notJson
  | isObject {document : Json} : (∀ members, document ≠ .object members) →
      Violates config (some document) .isObject .rootNotObject
  | ofPart {root : List (String × Json)} {part : Part} {document : Json} : Json.IsLast root part.name document →
      (∀ members, document ≠ .object members) →
      Violates config (some (.object root)) (.ofPart part) (.sectionNotObject part.name)
  | ofSetting {root : List (String × Json)} {setting : Setting} {document : Json} : setting.Stands root document →
      (∀ value, ¬ setting.kind.Writes document value) →
      Violates config (some (.object root)) (.ofSetting setting)
        (.unexpected setting.part.name setting.key document.kindName)
  | growth {root : List (String × Json)} {merged : Config} : config.Overlays root merged →
      merged.heap.growthFactor < 1.0 → Violates config (some (.object root)) .growth .growthBelowOne
  | limits {root : List (String × Json)} {merged : Config} : config.Overlays root merged →
      merged.machine.maxStackSize = 0 ∨ merged.machine.maxCallDepth = 0 →
      Violates config (some (.object root)) .limits .limitNotPositive

/-- The fault of the first check that a text does not pass. -/
def FirstViolation (config : Config) (document : Option Json) (fault : Fault) : Prop :=
  ∃ before check after, Check.all = before ++ check :: after ∧
    (∀ earlier ∈ before, ∀ other, ¬ config.Violates document earlier other) ∧ config.Violates document check fault

/-- The settings that a text leads to if it has no fault, given the document that it writes. -/
def after (config : Config) : Option Json → Config
  | some (.object root) => config.overlay root
  | _ => config

/-- The fault that a check finds. -/
def Check.fault? (config : Config) : Check → Option Json → Option Fault
  | .readable, none => some .notJson
  | .isObject, some (.object _) => none
  | .isObject, some _ => some .rootNotObject
  | .ofPart part, some (.object root) => part.fault? root
  | .ofSetting setting, some (.object root) => setting.fault? root
  | .growth, some (.object root) =>
    if (config.overlay root).heap.growthFactor < 1.0 then some .growthBelowOne else none
  | .limits, some (.object root) =>
    if (config.overlay root).machine.maxStackSize = 0 ∨ (config.overlay root).machine.maxCallDepth = 0 then
      some .limitNotPositive
    else none
  | _, _ => none

/-- The fault that the first check finds which finds one. -/
def firstFault (config : Config) (document : Option Json) : Option Fault :=
  Check.all.findSome? (·.fault? config document)

/-- A section without the keys that are not known. -/
def Part.known (part : Part) : Json → Json
  | .object members => .object (members.filter fun member =>
      Setting.all.any fun setting => setting.part = part ∧ setting.key = member.1)
  | document => document

/-- A section of that name without the keys that are not known. -/
def knownSection (name : String) (document : Json) : Json :=
  if name = Part.machine.name then Part.machine.known document
  else if name = Part.heap.name then Part.heap.known document
  else document

end Config

/-- The members of a document without the sections and keys that are not known. -/
def Json.knownMembers (root : List (String × Json)) : List (String × Json) :=
  (root.filter fun member => member.1 = Config.Part.machine.name ∨ member.1 = Config.Part.heap.name).map fun member =>
    (member.1, Config.knownSection member.1 member.2)

/-- A document without the sections and keys that are not known. -/
def Json.known : Json → Json
  | .object root => .object (knownMembers root)
  | document => document

namespace Config

/-- A value, unless there is a fault. -/
def unlessFault {α : Type} (fault : Option Fault) (value : α) : Except Fault α :=
  fault.elim (.ok value) .error

/-- What goes on with a value that there may be no fault with. -/
theorem unlessFault_bind {α β : Type} {fault other : Option Fault} {value : α} {result : β}
    {next : α → Except Fault β} (hnext : fault = none → next value = unlessFault other result) :
    (unlessFault fault value >>= next) = unlessFault (fault.or other) result := by
  cases fault with
  | none => exact hnext rfl
  | some fault => rfl

/-- The first of the faults of some settings. -/
def settingsFault (root : List (String × Json)) (settings : List Setting) : Option Fault :=
  settings.findSome? (·.fault? root)

theorem findSome?_cons_eq_or {α β : Type} (f : α → Option β) (a : α) (rest : List α) :
    (a :: rest).findSome? f = (f a).or (rest.findSome? f) := by
  rw [List.findSome?_cons]
  cases f a <;> rfl

/-- The first fault of an object, in the order in which its parts are read. -/
theorem firstFault_object (config : Config) (root : List (String × Json)) :
    firstFault config (some (.object root)) =
      (Part.fault? .machine root).or ((Part.fault? .heap root).or
        ((settingsFault root Setting.ofMachine).or ((settingsFault root Setting.ofHeap).or
          ((Check.growth.fault? config (some (.object root))).or
            (Check.limits.fault? config (some (.object root))))))) := by
  have hsettings (settings : List Setting) :
      (settings.map Check.ofSetting).findSome? (·.fault? config (some (.object root))) =
        settingsFault root settings := List.findSome?_map
  simp only [firstFault, Check.all, Setting.all, List.map_append, List.findSome?_append, hsettings,
    findSome?_cons_eq_or, List.findSome?_nil, Option.or_none, Option.or_assoc]
  rfl

section Merging

variable {library : Json.Library} (hlawful : library.Lawful) {root : List (String × Json)} {config : Config}

include hlawful

/-- A section is read, unless its part has a fault; its members are those that the settings of the part look at. -/
theorem readSection_eq (root : List (String × Json)) (part : Part) :
    ∃ members, readSection library root part.name = unlessFault (part.fault? root) members ∧
      (part.fault? root = none → ∀ setting : Setting, setting.part = part →
        library.find? members setting.key = setting.document? root) := by
  unfold readSection Part.fault?
  rw [hlawful.find?_eq]
  cases hfound : Json.lastMember? root part.name with
  | none =>
    refine ⟨[], rfl, fun _ setting hpart => ?_⟩
    rw [Setting.document?, hpart, hfound]
    rfl
  | some document =>
    cases document with
    | object members =>
      refine ⟨members, rfl, fun _ setting hpart => ?_⟩
      rw [Setting.document?, hpart, hfound]
    | _ => exact ⟨[], rfl, nofun⟩

omit hlawful in
/-- A field is read as the value that the document writes, unless its setting has a fault. -/
theorem readField_eq (setting : Setting) {members : List (String × Json)}
    (hmembers : library.find? members setting.key = setting.document? root) (current : setting.kind.Value) :
    readField library setting.kind.view setting.part.name members setting.key current =
      unlessFault (setting.fault? root) ((setting.written? root).getD current) := by
  unfold readField Setting.fault? Setting.written?
  rw [hmembers]
  cases setting.document? root with
  | none => rfl
  | some document =>
    cases hview : setting.kind.view document with
    | none => simp [hview, unlessFault]
    | some value => simp [hview, unlessFault]

omit hlawful in
/-- A field that is read is followed by what reads its setting and goes on. -/
theorem readField_bind (setting : Setting) {members : List (String × Json)}
    (hmembers : library.find? members setting.key = setting.document? root) {β : Type} {other : Option Fault}
    {result : β} {next : setting.kind.Value → Except Fault β}
    (hnext : next ((config.overlay root).get setting) = unlessFault other result) :
    (readField library setting.kind.view setting.part.name members setting.key (config.get setting) >>= next) =
      unlessFault ((setting.fault? root).or other) result := by
  rw [readField_eq setting hmembers]
  rw [overlay, get_ofValues] at hnext
  exact unlessFault_bind fun _ => hnext

omit hlawful in
/-- The settings of the machine are merged, unless one of them has a fault. -/
theorem mergeMachine_eq {members : List (String × Json)}
    (hmembers : ∀ setting : Setting, setting.part = .machine →
      library.find? members setting.key = setting.document? root) :
    mergeMachine library members config.machine =
      unlessFault (settingsFault root Setting.ofMachine) (config.overlay root).machine := by
  simp only [settingsFault, Setting.ofMachine, findSome?_cons_eq_or, List.findSome?_nil]
  exact readField_bind .initialStackSize (hmembers _ rfl) <| readField_bind .maxStackSize (hmembers _ rfl) <|
    readField_bind .maxCallDepth (hmembers _ rfl) <| readField_bind .reportStatistics (hmembers _ rfl) <|
    readField_bind .traceExecution (hmembers _ rfl) rfl

omit hlawful in
/-- The settings of the heap are merged, unless one of them has a fault. -/
theorem mergeHeap_eq {members : List (String × Json)}
    (hmembers : ∀ setting : Setting, setting.part = .heap →
      library.find? members setting.key = setting.document? root) :
    mergeHeap library members config.heap =
      unlessFault (settingsFault root Setting.ofHeap) (config.overlay root).heap := by
  simp only [settingsFault, Setting.ofHeap, findSome?_cons_eq_or, List.findSome?_nil]
  exact readField_bind .initialThreshold (hmembers _ rfl) <| readField_bind .growthFactor (hmembers _ rfl) <|
    readField_bind .maxHeapBytes (hmembers _ rfl) <| readField_bind .maxFreeListBytes (hmembers _ rfl) <|
    readField_bind .stress (hmembers _ rfl) rfl

omit hlawful in
/-- Settings that read well are taken, unless they make no sense. -/
theorem validate_overlay (config : Config) (root : List (String × Json)) :
    (config.overlay root).validate =
      unlessFault ((Check.growth.fault? config (some (.object root))).or
        (Check.limits.fault? config (some (.object root)))) (config.overlay root) := by
  unfold validate Check.fault?
  dsimp only
  by_cases hgrowth : (config.overlay root).heap.growthFactor < 1.0
  · simp [hgrowth, unlessFault]
  · by_cases hlimits : (config.overlay root).machine.maxStackSize = 0 ∨ (config.overlay root).machine.maxCallDepth = 0
    · simp [hgrowth, hlimits, unlessFault]
    · simp [hgrowth, hlimits, unlessFault]

/-- An object is merged, unless it has a fault. -/
theorem merge_object_eq (config : Config) (root : List (String × Json)) :
    config.merge library (.object root) =
      unlessFault (firstFault config (some (.object root))) (config.overlay root) := by
  obtain ⟨machine, hmachine, hmachineMembers⟩ := readSection_eq hlawful root .machine
  obtain ⟨heap, hheap, hheapMembers⟩ := readSection_eq hlawful root .heap
  rw [firstFault_object]
  show (readSection library root Part.machine.name >>= fun _ => _) = _
  rw [hmachine]
  refine unlessFault_bind fun hmachineSound => ?_
  show (readSection library root Part.heap.name >>= fun _ => _) = _
  rw [hheap]
  refine unlessFault_bind fun hheapSound => ?_
  rw [mergeMachine_eq (hmachineMembers hmachineSound)]
  refine unlessFault_bind fun _ => ?_
  rw [mergeHeap_eq (hheapMembers hheapSound)]
  exact unlessFault_bind fun _ => validate_overlay config root

/-- A text is merged, unless it has a fault. -/
theorem parseWith_eq (config : Config) (text : String) :
    config.parseWith library text =
      unlessFault (firstFault config (library.read? text)) (config.after (library.read? text)) := by
  unfold parseWith
  cases library.read? text with
  | none => rfl
  | some document =>
    cases document with
    | object root => exact merge_object_eq hlawful config root
    | _ => rfl

end Merging

section Overlaying

variable {root : List (String × Json)} {config merged : Config}

theorem Setting.fault?_eq_none_iff {setting : Setting} : setting.fault? root = none ↔
    ∀ document, setting.Stands root document → ∃ value, setting.kind.Writes document value := by
  simp only [← Setting.document?_eq_some_iff]
  unfold Setting.fault?
  cases setting.document? root with
  | none => simp
  | some document =>
    simp only [Option.bind_some, Option.some.injEq, forall_eq', ite_eq_left_iff, reduceCtorEq, imp_false,
      Classical.not_not, Option.isSome_iff_exists]
    exact exists_congr fun _ => Kind.view_eq_some_iff

/-- A document without faulty settings replaces those that it writes. -/
theorem overlays_overlay (hfine : ∀ setting : Setting, setting.fault? root = none) :
    config.Overlays root (config.overlay root) where
  written setting document hstands := by
    obtain ⟨value, hwrites⟩ := Setting.fault?_eq_none_iff.mp (hfine setting) document hstands
    have hwritten : setting.written? root = some value := by
      rw [Setting.written?, Setting.document?_eq_some_iff.mpr hstands, Option.bind_some, Kind.view_eq_some_iff]
      exact hwrites
    rw [overlay, get_ofValues, hwritten]
    exact hwrites
  kept setting hnone := by
    have habsent : setting.document? root = none :=
      Option.eq_none_iff_forall_ne_some.mpr fun document hfound =>
        hnone document (Setting.document?_eq_some_iff.mp hfound)
    rw [overlay, get_ofValues, Setting.written?, habsent]
    rfl

/-- The settings with those replaced that a document writes are determined. -/
theorem Overlays.eq_overlay (hoverlays : config.Overlays root merged) : merged = config.overlay root := by
  refine ext_get fun setting => ?_
  rw [overlay, get_ofValues, Setting.written?]
  cases hfound : setting.document? root with
  | none =>
    refine hoverlays.kept setting fun document hstands => ?_
    rw [Setting.document?_eq_some_iff.mpr hstands] at hfound
    cases hfound
  | some document =>
    have hwrites := hoverlays.written setting document (Setting.document?_eq_some_iff.mp hfound)
    rw [Option.bind_some, Kind.view_eq_some_iff.mpr hwrites]
    rfl

theorem Part.fault?_eq_none_iff {part : Part} : part.fault? root = none ↔
    ∀ document, Json.IsLast root part.name document → ∃ members, document = .object members := by
  simp only [← Json.lastMember?_eq_some_iff]
  unfold Part.fault?
  cases hfound : Json.lastMember? root part.name with
  | none => simp
  | some document => cases document <;> simp

end Overlaying

section Checking

variable {root : List (String × Json)} {config merged : Config} {document : Option Json} {check : Check} {fault : Fault}
  {before after : List Check}

theorem Check.mem_all (check : Check) : check ∈ all := by
  cases check with
  | ofPart part => cases part <;> decide
  | ofSetting setting => cases setting <;> decide
  | _ => decide

/-- A check finds the fault of a text that does not pass it. -/
theorem Violates.fault?_eq (hviolates : config.Violates document check fault) :
    check.fault? config document = some fault := by
  cases hviolates with
  | readable => rfl
  | @isObject document hother =>
    cases document with
    | object members => exact absurd rfl (hother members)
    | _ => rfl
  | @ofPart root part document hlast hother =>
    simp only [Check.fault?, Part.fault?]
    rw [Json.lastMember?_eq_some_iff.mpr hlast]
    cases document with
    | object members => exact absurd rfl (hother members)
    | _ => rfl
  | @ofSetting root setting document hstands hnone =>
    have hview : ¬ (setting.kind.view document).isSome := by
      intro hsome
      obtain ⟨value, hvalue⟩ := Option.isSome_iff_exists.mp hsome
      exact hnone value (Kind.view_eq_some_iff.mp hvalue)
    simp only [Check.fault?, Setting.fault?]
    rw [Setting.document?_eq_some_iff.mpr hstands, Option.bind_some, if_neg hview]
  | growth hoverlays hlow =>
    rw [hoverlays.eq_overlay] at hlow
    exact if_pos hlow
  | limits hoverlays hzero =>
    rw [hoverlays.eq_overlay] at hzero
    exact if_pos hzero

/-- A text does not pass a check that finds a fault; the last checks look at settings that were read without faults. -/
theorem violates_of_fault? (hfound : check.fault? config document = some fault)
    (hfine : ∀ root, document = some (.object root) → check = .growth ∨ check = .limits →
      ∀ setting : Setting, setting.fault? root = none) : config.Violates document check fault := by
  unfold Check.fault? at hfound
  split at hfound
  · cases hfound
    exact .readable
  · cases hfound
  · rename_i hother
    cases hfound
    exact .isObject fun members h => hother members h
  · rename_i part root
    unfold Part.fault? at hfound
    split at hfound
    · cases hfound
    · cases hfound
    · rename_i document hother hlast
      cases hfound
      exact .ofPart (Json.lastMember?_eq_some_iff.mp hlast) fun members h => hother members h
  · rename_i setting root
    obtain ⟨document, hdocument, hfound⟩ := Option.bind_eq_some_iff.mp hfound
    split at hfound
    · cases hfound
    · rename_i hview
      cases hfound
      refine .ofSetting (Setting.document?_eq_some_iff.mp hdocument) fun value hwrites => hview ?_
      rw [Kind.view_eq_some_iff.mpr hwrites]
      rfl
  · rename_i root
    have hoverlays : config.Overlays root (config.overlay root) := overlays_overlay (hfine root rfl (.inl rfl))
    split at hfound
    · rename_i hlow
      cases hfound
      exact .growth hoverlays hlow
    · cases hfound
  · rename_i root
    have hoverlays : config.Overlays root (config.overlay root) := overlays_overlay (hfine root rfl (.inr rfl))
    split at hfound
    · rename_i hzero
      cases hfound
      exact .limits hoverlays hzero
    · cases hfound
  · cases hfound

/-- The settings are checked before what they come to. -/
theorem ofSetting_mem_before (hall : Check.all = before ++ check :: after) (hlate : check = .growth ∨ check = .limits)
    (setting : Setting) : .ofSetting setting ∈ before := by
  have hplaces : ∀ n < Check.all.length, Check.all[n]? = some .growth ∨ Check.all[n]? = some .limits →
      ∀ setting ∈ Setting.all, Check.ofSetting setting ∈ Check.all.take n := by decide
  have hbefore : Check.all.take before.length = before := by
    rw [hall]
    exact List.take_left
  have hcheck : Check.all[before.length]? = some check := by
    rw [hall]
    simp
  have hlength : before.length < Check.all.length := (List.getElem?_eq_some_iff.mp hcheck).1
  rw [← hbefore]
  refine hplaces _ hlength ?_ setting setting.mem_all
  rcases hlate with rfl | rfl
  · exact .inl hcheck
  · exact .inr hcheck

/-- The first fault that a check finds is that of the first check that the text does not pass. -/
theorem firstViolation_of_firstFault (hfault : firstFault config document = some fault) :
    config.FirstViolation document fault := by
  obtain ⟨before, check, after, hall, hfound, hnone⟩ := List.findSome?_eq_some_iff.mp hfault
  refine ⟨before, check, after, hall, fun earlier hearlier other hviolates => ?_,
    violates_of_fault? hfound fun root hroot hlate setting => ?_⟩
  · have hpassed := hnone earlier hearlier
    rw [hviolates.fault?_eq] at hpassed
    cases hpassed
  · have hpassed := hnone _ (ofSetting_mem_before hall hlate setting)
    subst hroot
    exact hpassed

/-- No check finds a fault if and only if the text is that of an object that may be merged. -/
theorem firstFault_eq_none_iff : firstFault config document = none ↔
    ∃ root merged, document = some (.object root) ∧ config.Admits root merged := by
  simp only [firstFault, List.findSome?_eq_none_iff, Check.mem_all, true_imp_iff]
  constructor
  · intro hpasses
    match document with
    | none => cases hpasses .readable
    | some (.object root) =>
      have hlow := hpasses .growth
      have hzero := hpasses .limits
      simp only [Check.fault?, ite_eq_right_iff, reduceCtorEq, imp_false, not_or] at hlow hzero
      exact ⟨root, config.overlay root, rfl, fun part => Part.fault?_eq_none_iff.mp (hpasses (.ofPart part)),
        overlays_overlay fun setting => hpasses (.ofSetting setting), hlow, hzero.1, hzero.2⟩
    | some .null | some (.bool _) | some (.number _) | some (.string _) | some (.array _) => cases hpasses .isObject
  · rintro ⟨root, merged, rfl, hadmits⟩ check
    have hmerged := hadmits.overlays.eq_overlay
    cases check with
    | readable => rfl
    | isObject => rfl
    | ofPart part => exact Part.fault?_eq_none_iff.mpr (hadmits.sections part)
    | ofSetting setting =>
      exact Setting.fault?_eq_none_iff.mpr fun document hstands =>
        ⟨_, hadmits.overlays.written setting document hstands⟩
    | growth => exact if_neg (hmerged ▸ hadmits.growth)
    | limits => exact if_neg (hmerged ▸ not_or.mpr ⟨hadmits.stack, hadmits.depth⟩)

end Checking

section Unknown

/-- What stands under the name of a part, without the keys that are not known. -/
theorem lastMember?_knownMembers (root : List (String × Json)) (part : Part) :
    Json.lastMember? (Json.knownMembers root) part.name = (Json.lastMember? root part.name).map part.known := by
  have hkept : part.name = Part.machine.name ∨ part.name = Part.heap.name := by
    cases part
    · exact .inl rfl
    · exact .inr rfl
  have hsection : knownSection part.name = part.known := by
    funext document
    cases part <;> rfl
  rw [Json.knownMembers, Json.lastMember?_map, hsection]
  congr 1
  exact Json.lastMember?_filter (fun name => name = Part.machine.name ∨ name = Part.heap.name)
    (decide_eq_true hkept)

theorem Part.fault?_knownMembers (root : List (String × Json)) (part : Part) :
    part.fault? (Json.knownMembers root) = part.fault? root := by
  unfold Part.fault?
  rw [lastMember?_knownMembers]
  cases Json.lastMember? root part.name with
  | none => rfl
  | some document => cases document <;> rfl

theorem Setting.document?_knownMembers (root : List (String × Json)) (setting : Setting) :
    setting.document? (Json.knownMembers root) = setting.document? root := by
  unfold Setting.document?
  rw [lastMember?_knownMembers]
  cases Json.lastMember? root setting.part.name with
  | none => rfl
  | some document =>
    cases document with
    | object members =>
      have hkept : (Setting.all.any fun other => other.part = setting.part ∧ other.key = setting.key) = true :=
        List.any_eq_true.mpr ⟨setting, setting.mem_all, by simp⟩
      exact Json.lastMember?_filter
        (fun name => Setting.all.any fun other => other.part = setting.part ∧ other.key = name) hkept
    | _ => rfl

theorem overlay_knownMembers (config : Config) (root : List (String × Json)) :
    config.overlay (Json.knownMembers root) = config.overlay root := by
  simp only [overlay, Setting.written?, Setting.document?_knownMembers]

/-- A check finds the same in a document as in what is known of it. -/
theorem Check.fault?_known (config : Config) (check : Check) (document : Option Json) :
    check.fault? config (document.map Json.known) = check.fault? config document := by
  match document with
  | none => rfl
  | some (.object root) =>
    cases check <;> simp only [Option.map_some, Json.known, Check.fault?, Part.fault?_knownMembers, Setting.fault?,
      Setting.document?_knownMembers, overlay_knownMembers]
  | some .null | some (.bool _) | some (.number _) | some (.string _) | some (.array _) => rfl

/-- The settings that a document leads to are those that what is known of it leads to. -/
theorem after_known (config : Config) (document : Option Json) :
    config.after (document.map Json.known) = config.after document := by
  match document with
  | none => rfl
  | some (.object root) => exact overlay_knownMembers config root
  | some .null | some (.bool _) | some (.number _) | some (.string _) | some (.array _) => rfl

/-- Texts whose documents differ in what is not known come to the same. -/
theorem parseWith_eq_of_known_eq {library : Json.Library} (hlawful : library.Lawful) (config : Config)
    {text other : String} (hknown : (library.read? other).map Json.known = (library.read? text).map Json.known) :
    config.parseWith library other = config.parseWith library text := by
  have hfaults (document : Option Json) : firstFault config (document.map Json.known) = firstFault config document := by
    simp only [firstFault, Check.fault?_known]
  rw [parseWith_eq hlawful, parseWith_eq hlawful, ← hfaults, ← after_known, hknown, hfaults, after_known]

end Unknown

/-- Reading settings is all or nothing, whatever texts the library reads. It succeeds if and only if the text is that
of an object that may be merged, and then the settings are the merged ones: those that the object mentions have the
values written for them, the others stay and there is no new complaint. Otherwise the settings stay and the complaint
is the fault of the first check that the text does not pass. Sections and keys that are not known make no
difference. -/
theorem adopt_allOrNothing {library : Json.Library} (hlawful : library.Lawful) (config : Config)
    (complaint text : String) :
    ((config.adopt library complaint text).1 = true ↔
      ∃ root merged, library.read? text = some (.object root) ∧ config.Admits root merged) ∧
    (∀ root merged, library.read? text = some (.object root) → config.Admits root merged →
      config.adopt library complaint text = (true, merged, complaint)) ∧
    ((config.adopt library complaint text).1 = false →
      ∃ fault, config.FirstViolation (library.read? text) fault ∧
        config.adopt library complaint text = (false, config, fault.message)) ∧
    ∀ other, (library.read? other).map Json.known = (library.read? text).map Json.known →
      config.adopt library complaint other = config.adopt library complaint text := by
  have hparse := parseWith_eq hlawful config text
  refine ⟨?_, fun root merged hread hadmits => ?_, fun hfailed => ?_, fun other hknown => ?_⟩
  · rw [← firstFault_eq_none_iff, adopt, hparse]
    cases firstFault config (library.read? text) <;> simp [unlessFault]
  · have hnone := firstFault_eq_none_iff.mpr ⟨root, merged, hread, hadmits⟩
    rw [adopt, hparse, hnone, hread, hadmits.overlays.eq_overlay]
    rfl
  · rw [adopt, hparse] at hfailed ⊢
    cases hfault : firstFault config (library.read? text) with
    | none => simp [hfault, unlessFault] at hfailed
    | some fault => exact ⟨fault, firstViolation_of_firstFault hfault, rfl⟩
  · rw [adopt, adopt, parseWith_eq_of_known_eq hlawful config hknown]

/-- A depth below zero is refused, although another stands before it: the last counts. A section and a key that are
not known do not change the complaint. -/
theorem adopt_allOrNothing_negativeDepth :
    let text := "\x7b\"vm\":\x7b\"max_call_depth\":8,\"max_call_depth\":-1\x7d\x7d"
    let other := "\x7b\"ui\":0,\"vm\":\x7b\"max_call_depth\":8,\"x\":1,\"max_call_depth\":-1\x7d\x7d"
    ∃ fault, FirstViolation {} (Json.library.read? text) fault ∧
      fault.message = "vm.max_call_depth: unexpected number" ∧
      adopt Json.library {} "" text = (false, {}, fault.message) ∧
      adopt Json.library {} "" other = (false, {}, fault.message) ∧
      ¬ ∃ root merged, Json.library.read? text = some (.object root) ∧ Admits {} root merged := by
  intro text other
  have hread : Json.library.read? text = some (.object [("vm", .object
      [("max_call_depth", .number (.unsigned 8)), ("max_call_depth", .number (.signed (-1)))])]) := by cbv
  have hreadOther : Json.library.read? other = some (.object [("ui", .number (.unsigned 0)), ("vm", .object
      [("max_call_depth", .number (.unsigned 8)), ("x", .number (.unsigned 1)),
        ("max_call_depth", .number (.signed (-1)))])]) := by cbv
  have hknown : (Json.library.read? other).map Json.known = (Json.library.read? text).map Json.known := by
    rw [hread, hreadOther]
    simp [Json.known, Json.knownMembers, knownSection, Part.known, Part.name, Setting.all, Setting.ofMachine,
      Setting.ofHeap, Setting.part, Setting.key]
  have hrefused : (adopt Json.library {} "" text).1 = false := by decide +kernel
  have hcomplaint : (adopt Json.library {} "" text).2.2 = "vm.max_call_depth: unexpected number" := by decide +kernel
  obtain ⟨hadmitted, -, hfailed, hothers⟩ := adopt_allOrNothing Json.lawful_library {} "" text
  obtain ⟨fault, hfirst, hadopt⟩ := hfailed hrefused
  refine ⟨fault, hfirst, ?_, hadopt, (hothers other hknown).trans hadopt, fun hadmits => ?_⟩
  · rw [hadopt] at hcomplaint
    exact hcomplaint
  · rw [hadmitted.mpr hadmits] at hrefused
    cases hrefused

end Config

end OwnScript
