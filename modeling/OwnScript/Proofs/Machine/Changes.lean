import OwnScript.Proofs.Machine.Moves

/-!
What instructions do to a machine, one thing after the other. Every instruction is a sequence of
changes from one short list, whether it ends, fails or gives up; what each change keeps, every
instruction keeps.
-/

namespace OwnScript

open Stateful

/-- An object that is entered as it is. -/
inductive Object.Whole : Object → Prop where
  | string (text : String) : Whole (.string text)
  | closure (prototype : Prototype) : Whole (.unboundClosure (some prototype))

/-- The bytes of a record that is built from a literal, repeated names included. -/
def recordBytes (names : List String) : Nat :=
  64 + names.length * fieldBytes + textsCapacity names

/-- A container that is entered empty and filled at once: the bytes that are made sure of, the empty
container and the full one. -/
inductive Object.Filled : Nat → Object → Object → Prop where
  | record {names : List String} {values : List Value} : values.length = names.length →
      Filled (recordBytes names) (.record {}) (.record (.ofLiteral names values))
  | array (values : Array Value) :
      Filled (64 + values.size * elementBytes) (.array {}) (.array (.exactly values))

/-- What may become of an object that keeps its size. -/
inductive Object.Edited : Object → Object → Prop where
  | field {fields : Fields} {name : String} (value : Value) : fields.contains name = true →
      Edited (.record fields) (.record (fields.replace name value))
  | element (elements : Elements) (position : Nat) (value : Value) :
      Edited (.array elements)
        (.array { elements with values := elements.values.setIfInBounds position value })
  | cell (held value : Value) : Edited (.upvalue (.closed held)) (.upvalue (.closed value))
  | captures {prototype : Prototype} {cells : Array (Option Ref)} :
      cells.size = prototype.captures.size →
      Edited (.unboundClosure (some prototype)) (.closure (some prototype) cells)

/-- The bytes by which a record grows with a field that it does not have yet. -/
def Fields.growth (fields : Fields) (name : String) : Nat :=
  (fields.roomForOneMore - fields.capacity) * fieldBytes + textCapacity name

namespace Machine

/-- The record that the next assignment to a field is to. -/
def assignedRecord? (m : Machine) : Option Fields :=
  match (m.stack[m.stack.size - 2]?).bind m.heap.objectOf? with
  | some (.record fields) => if 2 ≤ m.stack.size then some fields else none
  | _ => none

/-- The bytes that an operation makes sure of before it builds a container or lets one grow. -/
def reservedBy (m : Machine) (op : Opcode) (a : Nat) : Option Nat := do
  match op with
  | .record =>
    let names ← (← m.chunk).shapes[a]?
    if names.length ≤ m.stack.size then some (recordBytes names) else none
  | .array => if a ≤ m.stack.size then some (64 + a * elementBytes) else none
  | .setField =>
    let name ← (← m.chunk).strings[a]?
    let fields ← m.assignedRecord?
    if fields.contains name then none else some (fields.growth name)
  | _ => none

/-- The bytes that the next instruction makes sure of. -/
def reserved? (m : Machine) : Option Nat :=
  m.instruction?.bind fun (op, a, _) => m.reservedBy op a

/-- A slot that belongs to the innermost call. -/
def InReach (m : Machine) (slot : Nat) : Prop :=
  ∃ frame, m.frames.back? = some frame ∧ frame.base ≤ slot

/-- One thing that an instruction does to a machine. A container is built where there is room for as
many bytes as were asked for. A call has its function on the stack, below the arguments. -/
inductive Change (asked : Nat → Prop) (m : Machine) : Machine → Prop where
  | pushed (value : Value) : m.stack.size < m.config.maxStackSize.toNat →
      Change asked m { m with stack := m.stack.push value }
  | cut (height : Nat) : Change asked m (m.cut height)
  | leftBehind (leftovers : Leftovers) : Change asked m { m with leftovers }
  | assigned (slot : Nat) (value : Value) :
      Change asked m { m with stack := m.stack.setIfInBounds slot value }
  | defined (slot : Nat) (value : Value) :
      Change asked m { m with globals := m.globals.setIfInBounds slot (some value) }
  | printed (line : String) : Change asked m { m with output := m.output ++ line ++ "\n" }
  | jumped (ip : Nat) : Change asked m { m with ip }
  | parked {heap : Heap} : Heap.Alike m.heap heap → Change asked m { m with heap }
  | linked {object : Object} : object.Whole →
      m.heap.statistics.bytesLive + object.memorySize.toUInt64 ≤ m.heap.config.maxHeapBytes →
      Change asked m { m with heap := m.heap.link object }
  | built {bytes : Nat} {empty object : Object} : Object.Filled bytes empty object → asked bytes →
      m.live + bytes.toUInt64.toNat ≤ m.limit →
      Change asked m { m with heap := (m.heap.link empty).store m.heap.nextRef object }
  | edited {ref : Ref} {old new : Object} : m.heap.get? ref = some old → old.Edited new →
      Change asked m { m with heap := m.heap.update ref new }
  | appended {ref : Ref} {fields : Fields} {name : String} (value : Value) :
      m.heap.get? ref = some (.record fields) → fields.contains name = false →
      m.live + (fields.growth name).toUInt64.toNat ≤ m.limit →
      Change asked m { m with heap := m.heap.store ref (.record (fields.append name value)) }
  | captured (slot : Nat) : m.InReach slot → slot ∉ m.openSlots →
      m.heap.statistics.bytesLive + (Object.upvalue (.opened slot)).memorySize.toUInt64 ≤
        m.heap.config.maxHeapBytes →
      Change asked m (m.capturing m.heap slot)
  | closed (slot : Nat) : Change asked m (m.closeCells slot)
  | entered {closure : Ref} {prototype : Option Prototype} {cells : Array (Option Ref)}
      (argumentCount : Nat) : m.heap.get? closure = some (.closure prototype cells) →
      m.frames.size < m.config.maxCallDepth.toNat → argumentCount < m.stack.size →
      Change asked m (Exec.entered m closure prototype argumentCount)
  | returned {frame : Frame} {chunk : Chunk} : m.frames.back? = some frame →
      frame.caller = some chunk →
      Change asked m { Exec.left m frame with chunk := some chunk, ip := frame.returnTo }
  | finished {frame : Frame} (result : Value) : m.frames.back? = some frame → frame.caller = none →
      Change asked m { Exec.left m frame with result, halted := true, chunk := none }

/-- A machine after any number of changes. -/
abbrev Changes (asked : Nat → Prop) : Machine → Machine → Prop :=
  Relation.ReflTransGen (Change asked)

variable {asked : Nat → Prop} {m middle after : Machine}

theorem Change.changes (hchange : Change asked m after) : Changes asked m after :=
  .single hchange

/-- Values leave the stack, as many as there are at most. -/
theorem Change.dropped (m : Machine) (count : Nat) :
    Change asked m (m.resizeStack (m.stack.size - count)) := by
  rw [m.resizeStack_of_le (Nat.sub_le ..)]
  exact .cut _

end Machine

namespace Exec

open Machine

variable {asked : Nat → Prop} {α β : Type} {m : Machine} {x : Exec α} {f : α → Exec β}

theorem changes_bind (hfirst : Changes asked m (stateAfter (x m)))
    (hnext : ∀ a middle, x m = .ok a middle → Changes asked middle (stateAfter (f a middle))) :
    Changes asked m (stateAfter ((x >>= f) m)) := by
  rw [stateAfter_bind]
  cases hresult : x m with
  | ok a middle =>
    rw [hresult] at hfirst
    exact hfirst.trans (hnext a middle hresult)
  | error fault after =>
    rw [hresult] at hfirst
    exact hfirst

theorem Looks.bind_changes (hlooks : Looks x)
    (hnext : ∀ a, x m = .ok a m → Changes asked m (stateAfter (f a m))) :
    Changes asked m (stateAfter ((x >>= f) m)) := by
  have hsame := hlooks m
  refine changes_bind (by rw [hsame]) fun a middle hresult => ?_
  rw [hresult] at hsame
  obtain rfl : middle = m := hsame
  exact hnext a hresult

theorem changes_push (value : Value) : Changes asked m (stateAfter (push value m)) := by
  simp only [push]
  rw [get_bind_apply]
  split
  · exact .refl
  · rename_i hroom
    exact (Change.pushed value (Nat.not_le.mp hroom)).changes

theorem changes_pushAll (values : List Value) : Changes asked m (stateAfter (pushAll values m)) := by
  induction values generalizing m with
  | nil => exact .refl
  | cons value rest ih => exact changes_bind (changes_push value) fun _ _ _ => ih

theorem push_ok {value : Value} {after : Machine} (hresult : push value m = .ok () after) :
    after = { m with stack := m.stack.push value } := by
  simp only [push] at hresult
  rw [get_bind_apply] at hresult
  split at hresult
  · cases hresult
  · cases hresult
    rfl

theorem pushAll_ok {values : List Value} {after : Machine} (hresult : pushAll values m = .ok () after) :
    after = { m with stack := m.stack ++ values.toArray } := by
  induction values generalizing m with
  | nil =>
    cases hresult
    simp
  | cons value rest ih =>
    simp only [pushAll] at hresult
    rw [bind_apply] at hresult
    cases hpush : push value m with
    | error fault middle =>
      rw [hpush] at hresult
      cases hresult
    | ok _ middle =>
      rw [hpush] at hresult
      rw [ih hresult, push_ok hpush]
      simp

theorem changes_pop : Changes asked m (stateAfter (pop m)) := by
  rw [pop_eq]
  cases m.stack.back? with
  | some value => exact (Change.cut (m.stack.size - 1)).changes
  | none => exact .refl

theorem changes_replaceTop (count : Nat) (value : Value) :
    Changes asked m (stateAfter (replaceTop count value m)) :=
  (Change.cut (m.stack.size - count)).changes.trans (changes_push value)

theorem changes_writeSlot (slot : Nat) (value : Value) :
    Changes asked m (stateAfter (writeSlot slot value m)) := by
  simp only [writeSlot]
  rw [get_bind_apply]
  split
  · exact (Change.assigned slot value).changes
  · split
    · exact (Change.leftBehind _).changes
    · exact .refl

theorem changes_setGlobal (slot : Nat) (value : Value) :
    Changes asked m (stateAfter (setGlobal slot value m)) :=
  (Change.defined slot value).changes

theorem changes_writeUpvalue (index : Nat) (value : Value) :
    Changes asked m (stateAfter (writeUpvalue index value m)) := by
  refine (looks_upvalueCell index).bind_changes fun entry hentry => ?_
  obtain ⟨cell, state⟩ := entry
  have hget := upvalueCell_get? hentry
  cases state with
  | opened slot => exact changes_writeSlot slot value
  | closed held => exact (Change.edited hget (.cell held value)).changes

/-- An allocation moves blocks first, and then enters its object or gives up. -/
theorem onHeap_allocate_parks (object : Object) (m : Machine) :
    ∃ parked, Heap.Alike m.heap parked ∧
      ((∃ fault, onHeap (Heap.allocate object) m = .error fault { m with heap := parked }) ∨
        (parked.statistics.bytesLive + object.memorySize.toUInt64 ≤ parked.config.maxHeapBytes ∧
          onHeap (Heap.allocate object) m = .ok parked.nextRef { m with heap := parked.link object })) := by
  rcases Heap.allocate_cases object m.heap with
    ⟨parked, halike, -, hroom, hresult⟩ | ⟨-, hresult⟩ | ⟨parked, halike, -, -, hresult⟩
  · refine ⟨parked, halike, .inr ⟨?_, ?_⟩⟩
    · rw [halike.bytesLive, halike.config]
      exact hroom
    · simp [onHeap, hresult, halike.nextRef]
  · exact ⟨m.heap, .refl _, .inl ⟨_, by rw [onHeap, hresult]⟩⟩
  · exact ⟨parked, halike, .inl ⟨_, by rw [onHeap, hresult]⟩⟩

theorem changes_allocate {object : Object} (hwhole : object.Whole) :
    Changes asked m (stateAfter (onHeap (Heap.allocate object) m)) := by
  obtain ⟨parked, halike, ⟨fault, hresult⟩ | ⟨hroom, hresult⟩⟩ := onHeap_allocate_parks object m
  · rw [hresult]
    exact (Change.parked halike).changes
  · rw [hresult]
    have hlinked : Change asked { m with heap := parked } { m with heap := parked.link object } :=
      .linked hwhole hroom
    exact (Change.parked halike).changes.tail hlinked

theorem changes_captureCell {slot : Nat} (hreach : m.InReach slot) :
    Changes asked m (stateAfter (captureCell slot m)) := by
  simp only [captureCell]
  rw [get_bind_apply]
  cases hfind : m.openCells.find? (fun entry => entry.slot == slot) with
  | some entry => exact .refl
  | none =>
    have hnew : slot ∉ m.openSlots := by
      rw [Machine.mem_openSlots]
      rintro ⟨entry, hentry, hslot⟩
      exact absurd hslot (by simpa using List.find?_eq_none.mp hfind entry hentry)
    dsimp only
    rw [stateAfter_bind]
    obtain ⟨parked, halike, ⟨fault, hresult⟩ | ⟨hroom, hresult⟩⟩ :=
      onHeap_allocate_parks (.upvalue (.opened slot)) m
    · rw [hresult]
      exact (Change.parked halike).changes
    · rw [hresult]
      have hcaptured : Change asked { m with heap := parked }
          (Machine.capturing { m with heap := parked } parked slot) := .captured slot hreach hnew hroom
      exact (Change.parked halike).changes.tail hcaptured

theorem changes_captureAll {base : Nat} (hreach : m.InReach base) (outer : Array (Option Ref))
    (captures : List Capture) (cells : List (Option Ref)) :
    Changes asked m (stateAfter (captureAll base outer captures cells m)) := by
  induction captures generalizing m cells with
  | nil => exact .refl
  | cons capture rest ih =>
    simp only [captureAll]
    split
    · obtain ⟨frame, hframe, hbase⟩ := hreach
      have hcell : Changes asked m (stateAfter (captureCell (base + capture.index) m)) :=
        changes_captureCell ⟨frame, hframe, by omega⟩
      have hsteady : Steady (fun _ _ => True) m (stateAfter (captureCell (base + capture.index) m)) :=
        steady_captureCell _
      rw [stateAfter_bind, map_apply]
      generalize captureCell (base + capture.index) m = result at hcell hsteady ⊢
      cases result with
      | ok cell middle => exact hcell.trans (ih ⟨frame, hsteady.frames ▸ hframe, hbase⟩ _)
      | error => exact hcell
    · exact (looks_expect _).bind_changes fun _ _ => ih hreach _

/-- The closure that is being made stays as it was entered until its variables are captured. -/
theorem changes_pushClosure (hintact : m.Intact) (prototype : Prototype) :
    Changes asked m (stateAfter (pushClosure prototype m)) := by
  rw [pushClosure_eq]
  refine changes_bind (changes_allocate (.closure prototype)) fun closure linked hresult => ?_
  obtain ⟨-, hget⟩ := get?_of_allocate hresult
  have hlinked : Steady (fun _ _ => True) m linked := by
    have hsteady : Steady (fun _ _ => True) m
        (stateAfter (onHeap (Heap.allocate (.unboundClosure (some prototype))) m)) :=
      steady_allocate _ fun _ _ _ => trivial
    rwa [hresult] at hsteady
  by_cases hrunning : ∃ frame outer, Running linked frame outer
  · obtain ⟨frame, outer, hrunning⟩ := hrunning
    rw [hrunning.bindClosure]
    refine changes_bind (changes_captureAll ⟨frame, hrunning.innermost, le_rfl⟩ _ _ _) fun cells middle hcells => ?_
    have hcaptured : Steady (fun _ _ => True) linked middle := by
      have hsteady : Steady (fun _ _ => True) linked
        (stateAfter (captureAll frame.base outer prototype.captures.toList [] linked)) :=
        steady_captureAll _ _ _ _
      rwa [hcells] at hsteady
    obtain ⟨now, hnow, hkept⟩ := hcaptured.kept (hlinked.intact hintact) closure _ hget
    have hsame : now = .unboundClosure (some prototype) := by
      cases hkept
      rfl
    have hsize : cells.toArray.size = prototype.captures.size := by
      simpa using length_captureAll hcells
    rw [hsame] at hnow
    exact (Change.edited hnow (.captures hsize)).changes.trans (changes_push _)
  · rw [(bindClosure_of_not_running (fun frame outer h => hrunning ⟨frame, outer, h⟩) prototype closure).2]
    exact .refl

theorem changes_binary (operator : Heap → Value → Value → Except Diagnostic Value) :
    Changes asked m (stateAfter (binary operator m)) :=
  (looks_peek 0).bind_changes fun _ _ => (looks_peek 1).bind_changes fun _ _ =>
    looks_get.bind_changes fun _ _ => (looks_ofExcept _).bind_changes fun _ _ => changes_replaceTop 2 _

theorem changes_unary (operator : Heap → Value → Except Diagnostic Value) :
    Changes asked m (stateAfter (unary operator m)) :=
  (looks_peek 0).bind_changes fun _ _ => looks_get.bind_changes fun _ _ =>
    (looks_ofExcept _).bind_changes fun _ _ => changes_replaceTop 1 _

theorem changes_equality (negated : Bool) : Changes asked m (stateAfter (equality negated m)) :=
  changes_bind changes_pop fun _ _ _ => changes_bind changes_pop fun _ _ _ =>
    looks_get.bind_changes fun _ _ => changes_push _

/-- A step on the record that a value refers to. -/
theorem changes_record {value : Value} {what : String} {f : Ref × Fields → Exec β}
    (hnext : ∀ ref fields, m.heap.get? ref = some (.record fields) →
      Changes asked m (stateAfter (f (ref, fields) m))) :
    Changes asked m (stateAfter ((expectRecord value what >>= f) m)) := by
  rw [stateAfter_bind]
  rcases expectRecord_cases value what m with ⟨ref, fields, hget, hresult⟩ | ⟨message, hresult⟩
  · rw [hresult]
    exact hnext ref fields hget
  · rw [hresult]

/-- A step on the array that a value refers to. -/
theorem changes_array {value : Value} {what : String} {f : Ref × Elements → Exec β}
    (hnext : ∀ ref elements, m.heap.get? ref = some (.array elements) →
      Changes asked m (stateAfter (f (ref, elements) m))) :
    Changes asked m (stateAfter ((expectArray value what >>= f) m)) := by
  rw [stateAfter_bind]
  rcases expectArray_cases value what m with ⟨ref, elements, hget, hresult⟩ | ⟨message, hresult⟩
  · rw [hresult]
    exact hnext ref elements hget
  · rw [hresult]

theorem changes_getField (name : String) : Changes asked m (stateAfter (getField name m)) := by
  refine (looks_peek 0).bind_changes fun value _ => changes_record fun ref fields _ => ?_
  dsimp only
  cases fields.find? name with
  | some value => exact changes_replaceTop 1 value
  | none => exact .refl

theorem changes_setField (name : String) : Changes asked m (stateAfter (setField name m)) := by
  refine (looks_peek 0).bind_changes fun value _ => (looks_peek 1).bind_changes fun record _ =>
    changes_record fun ref fields hget => ?_
  dsimp only
  split
  · rename_i hthere
    exact (Change.edited hget (.field value hthere)).changes.trans (changes_replaceTop 2 value)
  · rename_i hnew
    refine changes_bind (by rw [looks_ensureHeadroom]) fun _ middle hroom => ?_
    rcases onHeap_ensureHeadroom_cases (fields.growth name).toUInt64 m with ⟨hresult, hfits⟩ | ⟨hresult, -⟩
    · change onHeap (Heap.ensureHeadroom (fields.growth name).toUInt64) m = _ at hroom
      rw [hresult] at hroom
      cases hroom
      exact (Change.appended value hget (by simpa using hnew) hfits).changes.trans
        (changes_replaceTop 2 value)
    · change onHeap (Heap.ensureHeadroom (fields.growth name).toUInt64) m = _ at hroom
      rw [hresult] at hroom
      cases hroom

theorem changes_getIndex : Changes asked m (stateAfter (getIndex m)) :=
  (looks_peek 0).bind_changes fun _ _ => (looks_peek 1).bind_changes fun _ _ =>
    changes_array fun _ _ _ => (looks_checkedIndex _ _).bind_changes fun _ _ =>
      (looks_expect _).bind_changes fun _ _ => changes_replaceTop 2 _

theorem changes_setIndex : Changes asked m (stateAfter (setIndex m)) := by
  refine (looks_peek 0).bind_changes fun value _ => (looks_peek 1).bind_changes fun _ _ =>
    (looks_peek 2).bind_changes fun _ _ => changes_array fun ref elements hget =>
      (looks_checkedIndex _ _).bind_changes fun position _ => ?_
  exact (Change.edited hget (.element elements position value)).changes.trans
    (changes_replaceTop 3 value)

theorem size_topValues {count : Nat} {values : Array Value} {after : Machine}
    (hvalues : topValues count m = .ok values after) : values.size = count ∧ count ≤ m.stack.size := by
  simp only [topValues] at hvalues
  rw [get_bind_apply] at hvalues
  split at hvalues
  · cases hvalues
  · rename_i henough
    cases hvalues
    rw [Array.size_extract]
    exact ⟨by omega, by omega⟩

/-- A container is built at once, where there was room for all of it. -/
theorem changes_build {bytes : Nat} {empty object : Object} (hfilled : Object.Filled bytes empty object)
    (hasked : asked bytes) (count : Nat) :
    Changes asked m (stateAfter (build bytes.toUInt64 empty object count m)) := by
  refine (looks_ensureHeadroom _).bind_changes fun _ hroom => ?_
  have hfits : m.live + bytes.toUInt64.toNat ≤ m.limit := by
    rcases onHeap_ensureHeadroom_cases bytes.toUInt64 m with ⟨-, hfits⟩ | ⟨hresult, -⟩
    · exact hfits
    · rw [hresult] at hroom
      cases hroom
  rw [stateAfter_bind]
  obtain ⟨parked, halike, ⟨fault, hresult⟩ | ⟨-, hresult⟩⟩ := onHeap_allocate_parks empty m
  · rw [hresult]
    exact (Change.parked halike).changes
  · rw [hresult]
    have hlive : Machine.live { m with heap := parked } = m.live := congrArg UInt64.toNat halike.bytesLive
    have hlimit : Machine.limit { m with heap := parked } = m.limit :=
      congrArg (fun config => config.maxHeapBytes.toNat) halike.config
    have hbuilt : Change asked { m with heap := parked }
        { m with heap := (parked.link empty).store parked.nextRef object } :=
      .built hfilled hasked (by rw [hlive, hlimit]; exact hfits)
    exact ((Change.parked halike).changes.tail hbuilt).trans (changes_replaceTop count _)

theorem changes_pushMatch (bound : Option (List Value)) :
    Changes asked m (stateAfter (pushMatch bound m)) := by
  cases bound with
  | none => exact changes_push _
  | some values => exact changes_bind (changes_pushAll values) fun _ _ _ => changes_push _

theorem changes_matchArguments (parameters : List Matcher) :
    Changes asked m (stateAfter (matchArguments parameters m)) := by
  refine looks_frame.bind_changes fun frame _ => ?_
  split
  · exact (looks_matchSlots _ _ _).bind_changes fun bound _ => changes_pushMatch bound
  · exact changes_pushMatch none

theorem changes_jumpIf {op : Opcode} (hop : op = .jumpIfFalse ∨ op = .jumpIfTrue) (a b : Nat) :
    Changes asked m (stateAfter (execute op a b m)) := by
  rcases execute_jumpIf b m hop with ⟨_, taken, -, hresult⟩ | ⟨fault, -, hresult⟩
  · rw [hresult]
    exact (Change.jumped _).changes
  · rw [hresult]
    exact .refl

theorem changes_callValue (callee : Value) {argumentCount : Nat} (hheight : argumentCount < m.stack.size) :
    Changes asked m (stateAfter (callValue callee argumentCount m)) := by
  by_cases hclosure : ∃ prototype cells, m.heap.objectOf? callee = some (.closure prototype cells)
  · obtain ⟨prototype, cells, hobject⟩ := hclosure
    obtain ⟨closure, href, hget⟩ := Option.bind_eq_some_iff.mp hobject
    obtain rfl : callee = .object (some closure) := by
      cases callee with
      | scalar value => cases href
      | object target =>
        cases href
        rfl
    rw [callValue_closure hget]
    split
    · exact .refl
    · rename_i hdepth
      split
      · exact .refl
      · exact (Change.entered argumentCount hget (Nat.not_le.mp hdepth) hheight).changes
  · have hother (prototype : Option Prototype) (cells : Array (Option Ref)) :
        m.heap.objectOf? callee ≠ some (.closure prototype cells) :=
      fun h => hclosure ⟨prototype, cells, h⟩
    rw [callValue_other hother]
    exact .refl

/-- A host puts the function and its arguments on the stack before it calls. -/
theorem changes_callFromHost (callee : Value) (arguments : List Value) :
    Changes asked m (stateAfter ((push callee >>= fun _ => pushAll arguments >>= fun _ =>
      callValue callee arguments.length) m)) := by
  refine changes_bind (changes_push callee) fun _ middle hpush =>
    changes_bind (changes_pushAll arguments) fun _ after hpushAll => changes_callValue callee ?_
  have hheight : (m.stack.push callee ++ arguments.toArray).size = m.stack.size + (arguments.length + 1) := by simp
  rw [pushAll_ok hpushAll, push_ok hpush]
  dsimp only
  omega

theorem changes_returnFromFrame (result : Value) : Changes asked m (stateAfter (returnFromFrame result m)) := by
  rw [returnFromFrame_eq]
  cases hframe : m.frames.back? with
  | none => exact .refl
  | some frame =>
    dsimp only
    cases hcaller : frame.caller with
    | none => exact (Change.finished result hframe hcaller).changes
    | some chunk => exact (Change.returned hframe hcaller).changes.trans (changes_push result)

/-- Every operation is a sequence of changes. -/
theorem changes_execute (hintact : m.Intact) {op : Opcode} {a : Nat} (b : Nat)
    (hasked : ∀ bytes, m.reservedBy op a = some bytes → asked bytes) :
    Changes asked m (stateAfter (execute op a b m)) := by
  cases op with
  | constant =>
    refine looks_chunk.bind_changes fun chunk _ => (looks_expect _).bind_changes fun value _ => ?_
    cases value with
    | scalar value => exact changes_push _
    | _ => exact .refl
  | string =>
    refine looks_chunk.bind_changes fun chunk _ => (looks_expect _).bind_changes fun text _ => ?_
    exact changes_bind (changes_allocate (.string text)) fun _ _ _ => changes_push _
  | pushNil => exact changes_push _
  | pushTrue => exact changes_push _
  | pushFalse => exact changes_push _
  | pop => exact changes_bind changes_pop fun _ _ _ => .refl
  | popMany =>
    refine looks_get.bind_changes fun _ hsame => ?_
    split
    · exact .refl
    · exact (Change.dropped m a).changes
  | dup => exact (looks_peek 0).bind_changes fun _ _ => changes_push _
  | add | subtract | multiply | divide | modulo => exact changes_binary (·.arithmetic _)
  | negate => exact changes_unary _
  | bitwiseAnd | bitwiseOr | bitwiseXor | leftShift | rightShift => exact changes_binary (·.bitwise _)
  | bitwiseNot => exact changes_unary _
  | equal => exact changes_equality false
  | notEqual => exact changes_equality true
  | less | greater | lessEqual | greaterEqual => exact changes_binary (·.comparison _)
  | logicalNot => exact changes_bind changes_pop fun _ _ _ => changes_push _
  | getGlobal => exact (looks_definedGlobal a _).bind_changes fun _ _ => changes_push _
  | setGlobal => exact (looks_peek 0).bind_changes fun _ _ => changes_setGlobal a _
  | moveGlobal =>
    exact (looks_definedGlobal a _).bind_changes fun _ _ =>
      changes_bind (changes_push _) fun _ _ _ => changes_setGlobal a _
  | getLocal =>
    exact (looks_localIndex a).bind_changes fun _ _ => (looks_readSlot _).bind_changes fun _ _ =>
      changes_push _
  | setLocal =>
    exact (looks_peek 0).bind_changes fun _ _ => (looks_localIndex a).bind_changes fun _ _ =>
      changes_writeSlot _ _
  | moveLocal =>
    exact (looks_localIndex a).bind_changes fun _ _ => (looks_readSlot _).bind_changes fun _ _ =>
      changes_bind (changes_push _) fun _ _ _ => changes_writeSlot _ _
  | getUpvalue => exact (looks_readUpvalue a).bind_changes fun _ _ => changes_push _
  | setUpvalue => exact (looks_peek 0).bind_changes fun _ _ => changes_writeUpvalue a _
  | moveUpvalue =>
    exact (looks_readUpvalue a).bind_changes fun _ _ =>
      changes_bind (changes_push _) fun _ _ _ => changes_writeUpvalue a _
  | closeUpvalue =>
    refine changes_bind ?_ fun _ _ _ => changes_bind changes_pop fun _ _ _ => .refl
    rw [modify_apply]
    dsimp only [stateAfter]
    split
    · exact .refl
    · exact (Change.closed _).changes
  | jump => exact (Change.jumped _).changes
  | jumpIfFalse => exact changes_jumpIf (.inl rfl) a b
  | jumpIfTrue => exact changes_jumpIf (.inr rfl) a b
  | loopBack => exact (Change.jumped _).changes
  | call =>
    rw [execute_call]
    split
    · exact .refl
    · rename_i hheight
      exact (looks_peek a).bind_changes fun callee _ => changes_callValue callee (Nat.not_lt.mp hheight)
  | ret => exact changes_bind changes_pop fun result _ _ => changes_returnFromFrame result
  | closure =>
    exact looks_chunk.bind_changes fun _ _ => (looks_expect _).bind_changes fun _ _ =>
      (looks_expect _).bind_changes fun prototype _ => changes_pushClosure hintact prototype
  | record =>
    refine looks_chunk.bind_changes fun chunk hchunk => (looks_expect _).bind_changes fun names hnames =>
      (looks_topValues _).bind_changes fun values hvalues => ?_
    obtain ⟨hsize, hroom⟩ := size_topValues hvalues
    refine changes_build (.record hsize) (hasked _ ?_) names.length
    simp [Machine.reservedBy, chunk_eq_some hchunk, expect_eq_some hnames, hroom]
  | getField =>
    exact looks_chunk.bind_changes fun _ _ => (looks_expect _).bind_changes fun _ _ => changes_getField _
  | setField =>
    exact looks_chunk.bind_changes fun _ _ => (looks_expect _).bind_changes fun _ _ => changes_setField _
  | array =>
    refine (looks_topValues a).bind_changes fun values hvalues => ?_
    obtain ⟨rfl, hroom⟩ := size_topValues hvalues
    exact changes_build (.array values) (hasked _ (if_pos hroom)) values.size
  | getIndex => exact changes_getIndex
  | setIndex => exact changes_setIndex
  | matchValue =>
    exact looks_chunk.bind_changes fun _ _ => (looks_expect _).bind_changes fun _ _ =>
      (looks_localIndex b).bind_changes fun _ _ => (looks_readSlot _).bind_changes fun _ _ =>
        looks_get.bind_changes fun _ _ => changes_pushMatch _
  | matchArgs =>
    exact looks_chunk.bind_changes fun _ _ => (looks_expect _).bind_changes fun _ _ =>
      changes_matchArguments _
  | noMatchingArm => exact .refl
  | noMatchingOverload =>
    exact looks_frame.bind_changes fun _ _ => looks_get.bind_changes fun _ _ => .refl
  | printTop =>
    exact changes_bind changes_pop fun _ _ _ => (Change.printed _).changes
  | halt => exact changes_returnFromFrame .nil

/-- Every instruction is a sequence of changes. -/
theorem changes_dispatch (hintact : m.Intact)
    (hasked : ∀ bytes, m.reserved? = some bytes → asked bytes) :
    Changes asked m (stateAfter (dispatch m)) := by
  rw [dispatch_eq]
  cases hinstruction : m.instruction? with
  | none => exact .refl
  | some instruction =>
    obtain ⟨op, a, b⟩ := instruction
    simp only [Machine.reserved?, hinstruction, Option.bind_some] at hasked
    have hmoved : Change asked m { m with ip := m.ip + op.size } := .jumped _
    have hready : Intact { m with ip := m.ip + op.size } := ⟨hintact.bounded, hintact.cells⟩
    exact hmoved.changes.trans (changes_execute hready b hasked)

end Exec

end OwnScript
