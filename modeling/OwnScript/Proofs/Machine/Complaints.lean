import OwnScript.Proofs.Machine.Moves

/-!
What instructions complain about. An instruction that fails says nothing about where it stands and which
calls are active; that is added when the failure is raised. Only the two operations that read a global
complain about an undefined one, and only if it is undefined.
-/

namespace OwnScript

open Stateful

namespace Exec

open Machine

variable {α β : Type} {m : Machine} {undefined : Prop}

/-- What an instruction says that fails: nothing about the place and the active calls, and nothing about
an undefined global unless there is one. -/
structure Complaint (undefined : Prop) (diagnostic : Diagnostic) : Prop where
  location : diagnostic.location = {}
  frames : diagnostic.frames = []
  global : diagnostic.kind = .undefinedGlobal → undefined

theorem complaint_plain {kind : ErrorKind} (message : String) (hkind : kind ≠ .undefinedGlobal) :
    Complaint undefined (.plain kind message) :=
  ⟨rfl, rfl, fun h => absurd h hkind⟩

theorem complaint_about {kind : ErrorKind} (name message : String) (hkind : kind ≠ .undefinedGlobal) :
    Complaint undefined (.about kind name message) :=
  ⟨rfl, rfl, fun h => absurd h hkind⟩

theorem complaint_typeError (message : String) : Complaint undefined (typeError message) :=
  complaint_plain message (by decide)

/-- If a step fails, it does so with a complaint. -/
def Complains (undefined : Prop) : EStateM.Result Fault Machine α → Prop
  | .error (.failure diagnostic) _ => Complaint undefined diagnostic
  | _ => True

/-- A step that never complains about an undefined global. -/
def Modest (x : Exec α) : Prop :=
  ∀ m, Complains False (x m)

theorem Complains.mono {weaker : Prop} {result : EStateM.Result Fault Machine α}
    (hcomplains : Complains undefined result) (himp : undefined → weaker) : Complains weaker result := by
  cases result with
  | ok value after => trivial
  | error fault after =>
    cases fault with
    | failure diagnostic =>
      obtain ⟨hlocation, hframes, hglobal⟩ : Complaint undefined diagnostic := hcomplains
      exact ⟨hlocation, hframes, fun h => himp (hglobal h)⟩
    | _ => trivial

theorem Complains.bind {x : Exec α} {f : α → Exec β} (hfirst : Complains undefined (x m))
    (hnext : ∀ value, Modest (f value)) : Complains undefined ((x >>= f) m) := by
  rw [bind_apply]
  cases hresult : x m with
  | ok value after => exact (hnext value after).mono False.elim
  | error fault after =>
    rw [hresult] at hfirst
    cases fault with
    | failure diagnostic => exact hfirst
    | _ => trivial

theorem Modest.bind {x : Exec α} {f : α → Exec β} (hfirst : Modest x) (hnext : ∀ value, Modest (f value)) :
    Modest (x >>= f) :=
  fun m => (hfirst m).bind hnext

theorem modest_pure (value : α) : Modest (pure value : Exec α) := fun _ => trivial

theorem modest_get : Modest (get : Exec Machine) := fun _ => trivial

theorem modest_modify (f : Machine → Machine) : Modest (modify f : Exec PUnit) := fun _ => trivial

theorem modest_stray : Modest (throw .stray : Exec α) := fun _ => trivial

theorem modest_plain {kind : ErrorKind} (message : String) (hkind : kind ≠ .undefinedGlobal) :
    Modest (fail (.plain kind message) : Exec α) :=
  fun _ => complaint_plain message hkind

theorem modest_about {kind : ErrorKind} (name message : String) (hkind : kind ≠ .undefinedGlobal) :
    Modest (fail (.about kind name message) : Exec α) :=
  fun _ => complaint_about name message hkind

theorem modest_expect (found : Option α) : Modest (expect found) := by
  cases found
  · exact modest_stray
  · exact modest_pure _

theorem modest_onHeap (step : EStateM HeapExhausted Heap α) : Modest (onHeap step) := by
  intro m
  unfold onHeap
  split
  · trivial
  · trivial

theorem modest_underflow : Modest (underflow : Exec α) :=
  modest_plain _ (by decide)

section Stack

theorem modest_push (value : Value) : Modest (push value) := by
  refine modest_get.bind fun m => ?_
  split
  · exact modest_plain _ (by decide)
  · exact fun _ => trivial

theorem modest_pushAll (values : List Value) : Modest (pushAll values) := by
  induction values with
  | nil => exact modest_pure _
  | cons value rest ih => exact (modest_push value).bind fun _ => ih

theorem modest_pop : Modest pop := by
  refine modest_get.bind fun m => ?_
  split
  · exact Modest.bind (fun _ => trivial) fun _ => modest_pure _
  · exact modest_underflow

theorem modest_peek (distance : Nat) : Modest (peek distance) := by
  refine modest_get.bind fun m => ?_
  split
  · exact modest_expect _
  · exact modest_underflow

theorem modest_replaceTop (count : Nat) (value : Value) : Modest (replaceTop count value) :=
  (modest_modify _).bind fun _ => modest_push value

theorem modest_frame : Modest frame :=
  modest_get.bind fun _ => modest_expect _

theorem modest_chunk : Modest chunk :=
  modest_get.bind fun _ => modest_expect _

theorem modest_localIndex (slot : Nat) : Modest (localIndex slot) := by
  refine modest_frame.bind fun frame => modest_get.bind fun m => ?_
  split
  · exact modest_pure _
  · exact modest_plain _ (by decide)

theorem modest_readSlot (slot : Nat) : Modest (readSlot slot) :=
  modest_get.bind fun _ => modest_expect _

theorem modest_writeSlot (slot : Nat) (value : Value) : Modest (writeSlot slot value) := by
  refine modest_get.bind fun m => ?_
  split
  · exact modest_modify _
  · dsimp only
    split
    · exact modest_modify _
    · exact modest_stray

theorem modest_topValues (count : Nat) : Modest (topValues count) := by
  refine modest_get.bind fun m => ?_
  split
  · exact modest_underflow.bind fun _ => modest_pure _
  · exact modest_pure _

end Stack

section Variables

theorem modest_upvalues : Modest upvalues := by
  refine modest_get.bind fun m => modest_frame.bind fun frame => ?_
  split
  · exact modest_pure _
  · exact modest_stray

theorem modest_upvalueCell (index : Nat) : Modest (upvalueCell index) := by
  refine modest_upvalues.bind fun cells => (modest_expect _).bind fun found => ?_
  refine (modest_expect _).bind fun cell => modest_get.bind fun m => ?_
  split
  · exact modest_pure _
  · exact modest_stray

theorem modest_readUpvalue (index : Nat) : Modest (readUpvalue index) := by
  refine (modest_upvalueCell index).bind fun found => ?_
  split
  · exact modest_readSlot _
  · exact modest_pure _

theorem modest_writeUpvalue (index : Nat) (value : Value) : Modest (writeUpvalue index value) := by
  refine (modest_upvalueCell index).bind fun found => ?_
  split
  · exact modest_writeSlot _ _
  · exact modest_modify _

theorem modest_setGlobal (slot : Nat) (value : Value) : Modest (setGlobal slot value) :=
  modest_modify _

/-- A global that is undefined can be complained about. -/
theorem complains_definedGlobal {slot : Nat} (hundefined : m.globals[slot]? = some none → undefined)
    (verb : String) : Complains undefined (definedGlobal slot verb m) := by
  simp only [definedGlobal]
  rw [get_bind_apply, bind_apply]
  cases hslot : m.globals[slot]? with
  | none => trivial
  | some found =>
    cases found with
    | none =>
      change Complains undefined ((expect m.unit.globalNames[slot]? >>= fun name => _) m)
      rw [bind_apply]
      cases m.unit.globalNames[slot]? with
      | none => trivial
      | some name => exact ⟨rfl, rfl, fun _ => hundefined hslot⟩
    | some value => trivial

end Variables

section Operators

variable {heap : Heap} {op : Opcode} {a b : Value}

/-- A computation that fails with type errors alone. -/
def Typed (result : Except Diagnostic α) : Prop :=
  ∀ diagnostic, result = .error diagnostic → ∃ message, diagnostic = typeError message

theorem typed_ok (value : α) : Typed (.ok value) := fun _ h => by cases h

theorem typed_error (message : String) : Typed (.error (typeError message) : Except Diagnostic α) := by
  intro diagnostic h
  cases h
  exact ⟨message, rfl⟩

theorem Typed.map {result : Except Diagnostic α} (htyped : Typed result) (f : α → β) :
    Typed (result.map f) := by
  cases result with
  | ok value => exact typed_ok _
  | error complaint =>
    obtain ⟨message, rfl⟩ := htyped complaint rfl
    exact typed_error message

theorem typed_integerResult (op : Opcode) (a b : Int64) : Typed (op.integerResult a b) := by
  unfold Opcode.integerResult
  split
  any_goals exact typed_ok _
  all_goals
    split
    · exact typed_error _
    · exact typed_ok _

theorem typed_shiftCount (count : Int64) : Typed (shiftCount count) := by
  unfold shiftCount
  split
  · exact typed_error _
  · exact typed_ok _

theorem typed_bitResult (op : Opcode) (a b : Int64) : Typed (op.bitResult a b) := by
  unfold Opcode.bitResult
  split
  any_goals exact typed_ok _
  all_goals exact (typed_shiftCount b).map _

theorem typed_arithmetic (heap : Heap) (op : Opcode) (a b : Value) : Typed (heap.arithmetic op a b) := by
  unfold Heap.arithmetic
  split
  · exact Typed.map (typed_integerResult op _ _) _
  · exact typed_ok _
  · exact typed_error _

theorem typed_bitwise (heap : Heap) (op : Opcode) (a b : Value) : Typed (heap.bitwise op a b) := by
  unfold Heap.bitwise
  split
  · exact Typed.map (typed_bitResult op _ _) _
  · exact typed_error _

theorem typed_comparison (heap : Heap) (op : Opcode) (a b : Value) : Typed (heap.comparison op a b) := by
  unfold Heap.comparison
  split
  · exact typed_ok _
  · exact typed_ok _
  · exact typed_error _

theorem typed_negate (heap : Heap) (value : Value) : Typed (heap.negate value) := by
  unfold Heap.negate
  split
  · exact typed_ok _
  · exact typed_ok _
  · exact typed_error _

theorem typed_complement (heap : Heap) (value : Value) : Typed (heap.complement value) := by
  unfold Heap.complement
  split
  · exact typed_ok _
  · exact typed_error _

theorem modest_ofExcept {result : Except Diagnostic α} (htyped : Typed result) : Modest (ofExcept result) := by
  cases result with
  | ok value => exact modest_pure value
  | error diagnostic =>
    obtain ⟨message, rfl⟩ := htyped diagnostic rfl
    exact fun _ => complaint_typeError message

theorem modest_binary {operator : Heap → Value → Value → Except Diagnostic Value}
    (htyped : ∀ heap a b, Typed (operator heap a b)) : Modest (binary operator) := by
  refine (modest_peek 0).bind fun b => (modest_peek 1).bind fun a => modest_get.bind fun m => ?_
  exact (modest_ofExcept (htyped _ a b)).bind fun _ => modest_replaceTop 2 _

theorem modest_unary {operator : Heap → Value → Except Diagnostic Value}
    (htyped : ∀ heap value, Typed (operator heap value)) : Modest (unary operator) := by
  refine (modest_peek 0).bind fun value => modest_get.bind fun m => ?_
  exact (modest_ofExcept (htyped _ value)).bind fun _ => modest_replaceTop 1 _

theorem modest_equality (negated : Bool) : Modest (equality negated) :=
  modest_pop.bind fun _ => modest_pop.bind fun _ => modest_get.bind fun _ => modest_push _

end Operators

section Objects

theorem modest_captureCell (slot : Nat) : Modest (captureCell slot) := by
  refine modest_get.bind fun m => ?_
  split
  · exact modest_pure _
  · exact (modest_onHeap _).bind fun _ => (modest_modify _).bind fun _ => modest_pure _

theorem modest_captureAll (base : Nat) (outer : Array (Option Ref)) (captures : List Capture)
    (cells : List (Option Ref)) : Modest (captureAll base outer captures cells) := by
  induction captures generalizing cells with
  | nil => exact modest_pure _
  | cons capture rest ih =>
    simp only [captureAll]
    split
    · exact ((modest_captureCell _).bind fun _ => modest_pure _).bind fun _ => ih _
    · exact (modest_expect _).bind fun _ => ih _

theorem modest_pushClosure (prototype : Prototype) : Modest (pushClosure prototype) := by
  refine (modest_onHeap _).bind fun closure => modest_frame.bind fun frame => ?_
  refine modest_upvalues.bind fun outer => (modest_captureAll _ _ _ _).bind fun cells => ?_
  exact (modest_modify _).bind fun _ => modest_push _

theorem modest_callValue (callee : Value) (argumentCount : Nat) : Modest (callValue callee argumentCount) := by
  refine modest_get.bind fun m => ?_
  split
  · rename_i closure prototype cells _ _
    have hroom : Modest (do
        let base := m.stack.size - argumentCount
        let slots := (prototype.map (·.maxSlots)).getD 0
        if m.config.maxStackSize.toNat < (base + max argumentCount slots) % UInt64.size then
          fail (.about .stackOverflow (closureName prototype)
            s!"operand stack limit exceeded calling '{closureName prototype}'")
        set (entered m closure prototype argumentCount)) := by
      dsimp only
      split
      · exact (modest_about _ _ (by decide)).bind fun _ _ => trivial
      · exact fun _ => trivial
    dsimp only
    split
    · exact (modest_about _ _ (by decide)).bind fun _ => hroom
    · exact hroom
  · exact modest_about _ _ (by decide)

theorem modest_returnFromFrame (result : Value) : Modest (returnFromFrame result) := by
  refine modest_frame.bind fun frame => (modest_modify _).bind fun _ => ?_
  split
  · exact modest_modify _
  · exact (modest_modify _).bind fun _ => modest_push result

theorem modest_buildRecord (names : List String) : Modest (buildRecord names) := by
  refine (modest_topValues _).bind fun values => (modest_onHeap _).bind fun _ => ?_
  exact (modest_onHeap _).bind fun ref => (modest_modify _).bind fun _ => modest_replaceTop _ _

theorem modest_buildArray (count : Nat) : Modest (buildArray count) := by
  refine (modest_topValues _).bind fun values => (modest_onHeap _).bind fun _ => ?_
  exact (modest_onHeap _).bind fun ref => (modest_modify _).bind fun _ => modest_replaceTop _ _

theorem modest_expectRecord (value : Value) (what : String) : Modest (expectRecord value what) := by
  refine modest_get.bind fun m => ?_
  dsimp only
  split
  · exact modest_pure _
  · exact modest_plain _ (by decide)

theorem modest_expectArray (value : Value) (what : String) : Modest (expectArray value what) := by
  refine modest_get.bind fun m => ?_
  dsimp only
  split
  · exact modest_pure _
  · exact modest_plain _ (by decide)

theorem modest_getField (name : String) : Modest (getField name) := by
  refine (modest_peek 0).bind fun value => (modest_expectRecord _ _).bind fun found => ?_
  obtain ⟨ref, fields⟩ := found
  dsimp only
  split
  · exact modest_replaceTop _ _
  · exact modest_about _ _ (by decide)

theorem modest_setField (name : String) : Modest (setField name) := by
  refine (modest_peek 0).bind fun value => (modest_peek 1).bind fun record => ?_
  refine (modest_expectRecord _ _).bind fun found => ?_
  dsimp only
  split
  · exact (modest_modify _).bind fun _ => modest_replaceTop _ _
  · exact (modest_onHeap _).bind fun _ => (modest_modify _).bind fun _ => modest_replaceTop _ _

theorem modest_checkedIndex (elements : Elements) (index : Value) : Modest (checkedIndex elements index) := by
  unfold checkedIndex
  split
  · split
    · exact (modest_plain _ (by decide)).bind fun _ => modest_pure _
    · exact modest_pure _
  · exact modest_get.bind fun _ => modest_plain _ (by decide)

theorem modest_getIndex : Modest getIndex := by
  refine (modest_peek 0).bind fun index => (modest_peek 1).bind fun array => ?_
  refine (modest_expectArray _ _).bind fun found => (modest_checkedIndex _ _).bind fun position => ?_
  exact (modest_expect _).bind fun _ => modest_replaceTop _ _

theorem modest_setIndex : Modest setIndex := by
  refine (modest_peek 0).bind fun value => (modest_peek 1).bind fun index => ?_
  refine (modest_peek 2).bind fun array => (modest_expectArray _ _).bind fun found => ?_
  refine (modest_checkedIndex _ _).bind fun position => ?_
  exact (modest_modify _).bind fun _ => modest_replaceTop _ _

end Objects

section Matching

theorem modest_pushMatch (bound : Option (List Value)) : Modest (pushMatch bound) := by
  cases bound with
  | none => exact modest_push _
  | some values => exact (modest_pushAll values).bind fun _ => modest_push _

theorem modest_matchSlots (matchers : List Matcher) (slot : Nat) (bound : List Value) :
    Modest (matchSlots matchers slot bound) := by
  induction matchers generalizing slot bound with
  | nil => exact modest_pure _
  | cons matcher rest ih =>
    simp only [matchSlots]
    split
    · exact ih _ _
    · refine (modest_readSlot _).bind fun value => modest_get.bind fun m => ?_
      split
      · exact modest_pure _
      · exact ih _ _

theorem modest_matchArguments (parameters : List Matcher) : Modest (matchArguments parameters) := by
  refine modest_frame.bind fun frame => ?_
  split
  · exact (modest_matchSlots _ _ _).bind fun _ => modest_pushMatch _
  · exact modest_pushMatch _

end Matching

/-- An operation that does not read a global never complains about one. -/
theorem modest_execute {op : Opcode} (hother : op ≠ .getGlobal ∧ op ≠ .moveGlobal) (a b : Nat) :
    Modest (execute op a b) := by
  cases op with
  | constant =>
    refine modest_chunk.bind fun chunk => (modest_expect _).bind fun value => ?_
    split
    · exact modest_push _
    · exact modest_stray
  | string =>
    refine modest_chunk.bind fun chunk => (modest_expect _).bind fun text => ?_
    exact (modest_onHeap _).bind fun _ => modest_push _
  | pushNil | pushTrue | pushFalse => exact modest_push _
  | pop => exact modest_pop.bind fun _ => modest_pure _
  | popMany =>
    refine modest_get.bind fun m => ?_
    split
    · exact modest_underflow.bind fun _ => modest_modify _
    · exact modest_modify _
  | dup => exact (modest_peek 0).bind fun _ => modest_push _
  | add | subtract | multiply | divide | modulo => exact modest_binary fun heap => typed_arithmetic heap _
  | negate => exact modest_unary typed_negate
  | bitwiseAnd | bitwiseOr | bitwiseXor | leftShift | rightShift =>
    exact modest_binary fun heap => typed_bitwise heap _
  | bitwiseNot => exact modest_unary typed_complement
  | equal | notEqual => exact modest_equality _
  | less | greater | lessEqual | greaterEqual => exact modest_binary fun heap => typed_comparison heap _
  | logicalNot => exact modest_pop.bind fun _ => modest_push _
  | getGlobal => exact absurd rfl hother.1
  | setGlobal => exact (modest_peek 0).bind fun _ => modest_setGlobal _ _
  | moveGlobal => exact absurd rfl hother.2
  | getLocal => exact (modest_localIndex _).bind fun _ => (modest_readSlot _).bind fun _ => modest_push _
  | setLocal => exact (modest_peek 0).bind fun _ => (modest_localIndex _).bind fun _ => modest_writeSlot _ _
  | moveLocal =>
    refine (modest_localIndex _).bind fun index => (modest_readSlot _).bind fun value => ?_
    exact (modest_push _).bind fun _ => modest_writeSlot _ _
  | getUpvalue => exact (modest_readUpvalue _).bind fun _ => modest_push _
  | setUpvalue => exact (modest_peek 0).bind fun _ => modest_writeUpvalue _ _
  | moveUpvalue =>
    exact (modest_readUpvalue _).bind fun _ => (modest_push _).bind fun _ => modest_writeUpvalue _ _
  | closeUpvalue => exact (modest_modify _).bind fun _ => modest_pop.bind fun _ => modest_pure _
  | jump | loopBack => exact modest_modify _
  | jumpIfFalse =>
    refine (modest_peek 0).bind fun value => ?_
    split
    · exact modest_pure _
    · exact modest_modify _
  | jumpIfTrue =>
    refine (modest_peek 0).bind fun value => ?_
    split
    · exact modest_modify _
    · exact modest_pure _
  | call =>
    refine modest_get.bind fun m => ?_
    split
    · exact (modest_plain _ (by decide)).bind fun _ => (modest_peek _).bind fun _ => modest_callValue _ _
    · exact (modest_peek _).bind fun _ => modest_callValue _ _
  | ret => exact modest_pop.bind fun _ => modest_returnFromFrame _
  | closure =>
    refine modest_chunk.bind fun chunk => (modest_expect _).bind fun found => ?_
    exact (modest_expect _).bind fun _ => modest_pushClosure _
  | record => exact modest_chunk.bind fun chunk => (modest_expect _).bind fun _ => modest_buildRecord _
  | getField => exact modest_chunk.bind fun chunk => (modest_expect _).bind fun _ => modest_getField _
  | setField => exact modest_chunk.bind fun chunk => (modest_expect _).bind fun _ => modest_setField _
  | array => exact modest_buildArray _
  | getIndex => exact modest_getIndex
  | setIndex => exact modest_setIndex
  | matchValue =>
    refine modest_chunk.bind fun chunk => (modest_expect _).bind fun matcher => ?_
    refine (modest_localIndex _).bind fun index => (modest_readSlot _).bind fun value => ?_
    exact modest_get.bind fun _ => modest_pushMatch _
  | matchArgs => exact modest_chunk.bind fun chunk => (modest_expect _).bind fun _ => modest_matchArguments _
  | noMatchingArm => exact modest_plain _ (by decide)
  | noMatchingOverload =>
    exact modest_frame.bind fun frame => modest_get.bind fun _ => modest_about _ _ (by decide)
  | printTop => exact modest_pop.bind fun _ => modest_modify _
  | halt => exact modest_returnFromFrame _

/-- An instruction complains about an undefined global only if it reads one. -/
theorem complains_execute {op : Opcode} {a : Nat} (b : Nat)
    (hundefined : op = .getGlobal ∨ op = .moveGlobal → m.globals[a]? = some none → undefined) :
    Complains undefined (execute op a b m) := by
  by_cases hget : op = .getGlobal
  · subst hget
    exact (complains_definedGlobal (hundefined (.inl rfl)) _).bind fun _ => modest_push _
  · by_cases hmove : op = .moveGlobal
    · subst hmove
      refine (complains_definedGlobal (hundefined (.inr rfl)) _).bind fun value => ?_
      exact (modest_push _).bind fun _ => modest_setGlobal _ _
    · exact (modest_execute ⟨hget, hmove⟩ a b m).mono False.elim

end Exec

end OwnScript
