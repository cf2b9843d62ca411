import OwnScript.Proofs.Machine.Effects

/-!
The instructions that need no storage, carried out on machines that correspond: both sides end in
the same way and still correspond.
-/

namespace OwnScript

open Stateful

/-- The operations that may find the heap full. -/
def Opcode.needsStorage : Opcode → Bool
  | .string | .closure | .record | .setField | .array => true
  | _ => false

theorem Value.Related.truthy {ρ : Renaming} {a b : Value} (hrel : Value.Related ρ a b) :
    a.truthy = b.truthy := by
  cases hrel <;> rfl

namespace Exec

variable {ρ : Renaming} {left right : Machine}

theorem calm_binary (hcorr : Machine.Corresponds ρ left right)
    (operator : Heap → Value → Value → Except Diagnostic Value)
    (hsame : ∀ {a b c d}, Value.Related ρ a b → Value.Related ρ c d →
      Heap.Corresponds.SameScalar (operator left.heap a c) (operator right.heap b d)) :
    Together ρ (binary operator left) (binary operator right) := by
  refine (reads_peek hcorr.toSimilar 0).bind_calm hcorr fun c d hcd => ?_
  refine (reads_peek hcorr.toSimilar 1).bind_calm hcorr fun a b hab => ?_
  rw [get_bind_apply, get_bind_apply]
  refine (reads_ofExcept ρ (hsame hab hcd)).bind_calm hcorr fun x y hxy => ?_
  exact calm_replaceTop hcorr 2 hxy

theorem calm_unary (hcorr : Machine.Corresponds ρ left right)
    (operator : Heap → Value → Except Diagnostic Value)
    (hsame : ∀ {a b}, Value.Related ρ a b →
      Heap.Corresponds.SameScalar (operator left.heap a) (operator right.heap b)) :
    Together ρ (unary operator left) (unary operator right) := by
  refine (reads_peek hcorr.toSimilar 0).bind_calm hcorr fun a b hab => ?_
  rw [get_bind_apply, get_bind_apply]
  refine (reads_ofExcept ρ (hsame hab)).bind_calm hcorr fun x y hxy => ?_
  exact calm_replaceTop hcorr 1 hxy

theorem calm_equality (hcorr : Machine.Corresponds ρ left right) (negated : Bool) :
    Together ρ (equality negated left) (equality negated right) := by
  refine (calm_pop hcorr).bind fun c d _ _ hcd hpopped => ?_
  refine (calm_pop hpopped).bind fun a b left' right' hab hpopped' => ?_
  rw [get_bind_apply, get_bind_apply]
  refine calm_push hpopped' ?_
  rw [hpopped'.heap.equals hab hcd]
  exact Value.related_ofBool ρ _

/-- The machine after entering a call. -/
def entered (m : Machine) (closure : Ref) (prototype : Option Prototype) (argumentCount : Nat) : Machine :=
  { m with
    frames := m.frames.push
      { base := m.stack.size - argumentCount, returnTo := m.ip, caller := m.chunk, closure,
        argumentCount }
    chunk := prototype.bind (·.chunk)
    ip := 0 }

/-- A call of a closure is entered unless it would pass a limit. -/
theorem callValue_closure {m : Machine} {closure : Ref} {prototype : Option Prototype}
    {cells : Array (Option Ref)} (hobject : m.heap.get? closure = some (.closure prototype cells))
    (argumentCount : Nat) :
    callValue (.object (some closure)) argumentCount m =
      if m.config.maxCallDepth.toNat ≤ m.frames.size then
        fail (.about .stackOverflow (closureName prototype)
          s!"call depth limit of {m.config.maxCallDepth.toNat} exceeded") m
      else if m.config.maxStackSize.toNat <
          (m.stack.size - argumentCount + max argumentCount ((prototype.map (·.maxSlots)).getD 0))
            % UInt64.size then
        fail (.about .stackOverflow (closureName prototype)
          s!"operand stack limit exceeded calling '{closureName prototype}'") m
      else .ok () (entered m closure prototype argumentCount) := by
  simp only [callValue]
  rw [bind_apply, get_apply]
  simp only [Value.ref?, Heap.objectOf?, Option.bind_some, hobject]
  split
  · rfl
  · split
    · rfl
    · rfl

/-- Nothing but a closure can be called. -/
theorem callValue_other {m : Machine} {value : Value}
    (hother : ∀ prototype cells, m.heap.objectOf? value ≠ some (.closure prototype cells))
    (argumentCount : Nat) :
    callValue value argumentCount m =
      fail (.about .notCallable (m.heap.typeName value)
        s!"cannot call a value of type {m.heap.typeName value}") m := by
  simp only [callValue]
  rw [bind_apply, get_apply]
  dsimp only
  cases hobject : m.heap.objectOf? value with
  | none => cases value.ref? <;> rfl
  | some object =>
    cases object with
    | closure prototype cells => exact absurd hobject (hother prototype cells)
    | string text => cases value.ref? <;> rfl
    | record fields => cases value.ref? <;> rfl
    | array elements => cases value.ref? <;> rfl
    | upvalue state => cases value.ref? <;> rfl

theorem calm_callValue (hcorr : Machine.Corresponds ρ left right) {a b : Value}
    (hrel : Value.Related ρ a b) (argumentCount : Nat) :
    Together ρ (callValue a argumentCount left) (callValue b argumentCount right) := by
  have htype := hcorr.heap.typeName hrel
  have hobjects := hcorr.heap.objectOf? hrel
  by_cases hclosure : ∃ prototype cells, left.heap.objectOf? a = some (.closure prototype cells)
  · cases hrel with
    | scalar value =>
      obtain ⟨prototype, cells, hnone⟩ := hclosure
      cases hnone
    | object h =>
      cases h with
      | none =>
        obtain ⟨prototype, cells, hnone⟩ := hclosure
        cases hnone
      | @some c d hpair =>
        obtain ⟨prototype, cells, hleft⟩ := hclosure
        simp only [Heap.objectOf?, Value.ref?, Option.bind_some] at hleft
        obtain ⟨first, second, hfirst, hright, hxy⟩ := hcorr.heap.objects c d hpair
        rw [hleft, Option.some.injEq] at hfirst
        subst hfirst
        cases hxy
        rw [callValue_closure hleft, callValue_closure hright, hcorr.config, rel_size hcorr.stack,
          rel_size hcorr.frames]
        split
        · exact calm_fail rfl hcorr
        · split
          · exact calm_fail rfl hcorr
          · have hframe : Frame.Related ρ
                { base := left.stack.size - argumentCount, returnTo := left.ip, caller := left.chunk,
                  closure := c, argumentCount }
                { base := right.stack.size - argumentCount, returnTo := right.ip,
                  caller := right.chunk, closure := d, argumentCount } :=
              ⟨by rw [rel_size hcorr.stack], hcorr.ip, hcorr.chunk, rfl, hpair⟩
            exact .ok trivial { hcorr with
              frames := rel_push hcorr.frames hframe, chunk := rfl, ip := rfl }
  · have hother : ∀ prototype cells, right.heap.objectOf? b ≠ some (.closure prototype cells) := by
      intro prototype cells hright
      rw [hright] at hobjects
      generalize hleft : left.heap.objectOf? a = x at hobjects
      cases hobjects with
      | some hxy =>
        cases hxy
        exact hclosure ⟨_, _, hleft⟩
    rw [callValue_other (fun prototype cells h => hclosure ⟨prototype, cells, h⟩),
      callValue_other hother]
    exact calm_fail (by rw [htype]) hcorr

theorem calm_returnFromFrame (hcorr : Machine.Corresponds ρ left right) {a b : Value}
    (hrel : Value.Related ρ a b) :
    Together ρ (returnFromFrame a left) (returnFromFrame b right) := by
  refine (reads_frame hcorr.toSimilar).bind_calm hcorr fun first second hframe => ?_
  have hpopped : Machine.Corresponds ρ { left with frames := left.frames.pop }
      { right with frames := right.frames.pop } := { hcorr with frames := rel_pop hcorr.frames }
  refine (calm_modify ?_).bind fun _ _ left' right' _ hclosed => ?_
  · rw [hframe.base]
    exact (hpopped.closeCells second.base).resizeStack (second.base - 1)
  · rw [hframe.caller, hframe.returnTo]
    cases second.caller with
    | none => exact calm_modify { hclosed with result := hrel, halted := rfl, chunk := rfl }
    | some chunk =>
      refine (calm_modify ?_).bind fun _ _ _ _ _ hnext => calm_push hnext hrel
      exact { hclosed with chunk := rfl, ip := rfl }

theorem calm_getField (hcorr : Machine.Corresponds ρ left right) (name : String) :
    Together ρ (getField name left) (getField name right) := by
  refine (reads_peek hcorr.toSimilar 0).bind_calm hcorr fun a b hab => ?_
  refine (reads_expectRecord hcorr.toSimilar hab _).bind_calm hcorr fun first second hrecord => ?_
  have hfound := Heap.Corresponds.find? name hrecord.entries
  simp only
  generalize first.2.find? name = x at hfound ⊢
  generalize second.2.find? name = y at hfound ⊢
  cases hfound with
  | none => exact calm_fail rfl hcorr
  | some h => exact calm_replaceTop hcorr 1 h

theorem calm_getIndex (hcorr : Machine.Corresponds ρ left right) :
    Together ρ (getIndex left) (getIndex right) := by
  refine (reads_peek hcorr.toSimilar 0).bind_calm hcorr fun c d hcd => ?_
  refine (reads_peek hcorr.toSimilar 1).bind_calm hcorr fun a b hab => ?_
  refine (reads_expectArray hcorr.toSimilar hab _).bind_calm hcorr fun first second harray => ?_
  refine (reads_checkedIndex hcorr.toSimilar (rel_size harray.values) hcd).bind_calm hcorr
    fun i j hij => ?_
  subst hij
  refine (reads_expect (rel_array_getElem? harray.values i)).bind_calm hcorr fun x y hxy => ?_
  exact calm_replaceTop hcorr 2 hxy

theorem calm_setIndex (hcorr : Machine.Corresponds ρ left right) :
    Together ρ (setIndex left) (setIndex right) := by
  refine (reads_peek hcorr.toSimilar 0).bind_calm hcorr fun v w hvw => ?_
  refine (reads_peek hcorr.toSimilar 1).bind_calm hcorr fun c d hcd => ?_
  refine (reads_peek hcorr.toSimilar 2).bind_calm hcorr fun a b hab => ?_
  refine (reads_expectArray hcorr.toSimilar hab _).bind_calm hcorr fun first second harray => ?_
  refine (reads_checkedIndex hcorr.toSimilar (rel_size harray.values) hcd).bind_calm hcorr
    fun i j hij => ?_
  subst hij
  refine (calm_modify (hcorr.withUpdate harray.pair ?_ harray.left ?_)).bind
    fun _ _ _ _ _ hnext => calm_replaceTop hnext 3 hvw
  · exact .array harray.capacity (rel_setIfInBounds harray.values i hvw)
  · rfl

theorem calm_pushMatch (hcorr : Machine.Corresponds ρ left right) {first second : Option (List Value)}
    (hrel : Option.Rel (List.Forall₂ (Value.Related ρ)) first second) :
    Together ρ (pushMatch first left) (pushMatch second right) := by
  cases hrel with
  | none => exact calm_push hcorr (Value.related_ofBool ρ false)
  | some h =>
    refine (calm_pushAll hcorr h).bind fun _ _ _ _ _ hnext => ?_
    exact calm_push hnext (Value.related_ofBool ρ true)

theorem calm_matchArguments (hcorr : Machine.Corresponds ρ left right) (parameters : List Matcher)
    (hseen : ∀ frame, left.frames.back? = some frame → frame.argumentCount = parameters.length →
      ∀ slot ∈ List.range' frame.base parameters.length, Machine.SeenAlike left right slot) :
    Together ρ (matchArguments parameters left) (matchArguments parameters right) := by
  refine (reads_frame hcorr.toSimilar).noted.bind_calm hcorr fun first second hnoted => ?_
  obtain ⟨hframe, hfound, -⟩ := hnoted
  have hslots := hseen first (expect_eq_some hfound)
  rw [hframe.argumentCount, hframe.base] at hslots ⊢
  split
  case isTrue hcount =>
    refine (reads_matchSlots hcorr.toSimilar parameters second.base (hslots hcount) .nil).bind_calm hcorr
      fun a b hab => ?_
    exact calm_pushMatch hcorr hab
  case isFalse => exact calm_pushMatch hcorr .none

theorem calm_noMatchingOverload (hcorr : Machine.Corresponds ρ left right) :
    Together ρ (noMatchingOverload left) (noMatchingOverload right) := by
  refine (reads_frame hcorr.toSimilar).bind_calm hcorr fun first second hframe => ?_
  have hname := Machine.functionName_eq hcorr.toSimilar hframe.closure
  rw [get_bind_apply, get_bind_apply]
  exact calm_fail (by rw [hname, hframe.argumentCount]) hcorr

theorem calm_moveGlobal (hcorr : Machine.Corresponds ρ left right) (a b : Nat) :
    Together ρ (execute .moveGlobal a b left) (execute .moveGlobal a b right) := by
  refine (reads_definedGlobal hcorr.toSimilar a "moved").bind_calm hcorr fun x y hxy => ?_
  refine (calm_push hcorr hxy).bind fun _ _ _ _ _ hnext => ?_
  exact calm_setGlobal hnext a (Value.related_nil ρ)

theorem calm_moveLocal (hcorr : Machine.Corresponds ρ left right) (a b : Nat) :
    Together ρ (execute .moveLocal a b left) (execute .moveLocal a b right) := by
  refine (reads_localIndex hcorr.toSimilar a).bind_calm hcorr fun i j hindex => ?_
  obtain ⟨rfl, hbelow⟩ := hindex
  have hseen : Machine.SeenAlike left right i := .inl hbelow
  refine (reads_readSlot hcorr.toSimilar hseen).bind_calm hcorr fun x y hxy => ?_
  refine calm_push_bind hcorr ?_
  exact calm_writeSlot (hcorr.withStack (rel_push hcorr.stack hxy)) (hseen.push x y) (Value.related_nil ρ)

theorem calm_moveUpvalue (hcorr : Machine.Corresponds ρ left right) {a : Nat} (b : Nat)
    (hseen : ∀ slot, left.upvalueSlot? a = some slot → Machine.SeenAlike left right slot) :
    Together ρ (execute .moveUpvalue a b left) (execute .moveUpvalue a b right) := by
  refine (reads_readUpvalue hcorr.toSimilar a hseen).bind_calm hcorr fun x y hxy => ?_
  refine calm_push_bind hcorr ?_
  exact calm_writeUpvalue (hcorr.withStack (rel_push hcorr.stack hxy)) (fun slot hslot => (hseen slot hslot).push x y)
    (Value.related_nil ρ)

theorem calm_closeUpvalue (hcorr : Machine.Corresponds ρ left right) (a b : Nat) :
    Together ρ (execute .closeUpvalue a b left) (execute .closeUpvalue a b right) := by
  have hempty : left.stack.isEmpty = right.stack.isEmpty := by
    simp only [Array.isEmpty, rel_size hcorr.stack]
  refine (calm_modify ?_).bind fun _ _ _ _ _ hnext => ?_
  · rw [hempty, rel_size hcorr.stack]
    split
    · exact hcorr
    · exact hcorr.closeCells _
  · exact (calm_pop hnext).bind fun _ _ _ _ _ hpopped => .ok trivial hpopped

theorem calm_popMany (hcorr : Machine.Corresponds ρ left right) (a b : Nat) :
    Together ρ (execute .popMany a b left) (execute .popMany a b right) := by
  simp only [execute]
  rw [get_bind_apply, get_bind_apply, rel_size hcorr.stack]
  split
  · exact calm_fail rfl hcorr
  · refine calm_modify ?_
    rw [rel_size hcorr.stack]
    exact hcorr.resizeStack _

theorem calm_call (hcorr : Machine.Corresponds ρ left right) (a b : Nat) :
    Together ρ (execute .call a b left) (execute .call a b right) := by
  simp only [execute]
  rw [get_bind_apply, get_bind_apply, rel_size hcorr.stack]
  split
  · exact calm_fail rfl hcorr
  · exact (reads_peek hcorr.toSimilar a).bind_calm hcorr fun x y hxy => calm_callValue hcorr hxy a

/-- The jumps on a condition, which stay or skip on both sides alike. -/
theorem calm_conditionalJump (hcorr : Machine.Corresponds ρ left right) {op : Opcode}
    (hop : op = .jumpIfFalse ∨ op = .jumpIfTrue) (a b : Nat) :
    Together ρ (execute op a b left) (execute op a b right) := by
  have hskip : Together ρ (skip a left) (skip a right) :=
    .ok trivial (hcorr.withIp (by rw [hcorr.ip]))
  have hstay : Together ρ ((pure () : Exec Unit) left) ((pure () : Exec Unit) right) :=
    .ok trivial hcorr
  rcases hop with rfl | rfl
  · refine (reads_peek hcorr.toSimilar 0).bind_calm hcorr fun x y hxy => ?_
    rw [hxy.truthy]
    split
    · exact hstay
    · exact hskip
  · refine (reads_peek hcorr.toSimilar 0).bind_calm hcorr fun x y hxy => ?_
    rw [hxy.truthy]
    split
    · exact hskip
    · exact hstay

theorem calm_matchValue (hcorr : Machine.Corresponds ρ left right) (a b : Nat) :
    Together ρ (execute .matchValue a b left) (execute .matchValue a b right) := by
  refine (reads_chunk hcorr.toSimilar).bind_calm hcorr fun first second hchunk => ?_
  subst hchunk
  refine (reads_expect_same _).bind_calm hcorr fun matcher other hmatcher => ?_
  subst hmatcher
  refine (reads_localIndex hcorr.toSimilar b).bind_calm hcorr fun i j hindex => ?_
  obtain ⟨rfl, hbelow⟩ := hindex
  refine (reads_readSlot hcorr.toSimilar (.inl hbelow)).bind_calm hcorr fun x y hxy => ?_
  rw [get_bind_apply, get_bind_apply]
  exact calm_pushMatch hcorr (hcorr.heap.matchValue matcher hxy)

theorem calm_constant (hcorr : Machine.Corresponds ρ left right) (a b : Nat) :
    Together ρ (execute .constant a b left) (execute .constant a b right) := by
  refine (reads_chunk hcorr.toSimilar).bind_calm hcorr fun first second hchunk => ?_
  subst hchunk
  refine (reads_expect_same _).bind_calm hcorr fun constant other hconstant => ?_
  subst hconstant
  cases constant with
  | scalar value => exact calm_push hcorr (.scalar value)
  | text value => exact reads_stray.calm hcorr
  | noObject => exact reads_stray.calm hcorr

theorem calm_printTop (hcorr : Machine.Corresponds ρ left right) (a b : Nat) :
    Together ρ (execute .printTop a b left) (execute .printTop a b right) := by
  refine (calm_pop hcorr).bind fun x y left' right' hxy hnext => ?_
  have houtput : left'.output ++ left'.heap.text x ++ "\n" =
      right'.output ++ right'.heap.text y ++ "\n" := by
    rw [hnext.output, hnext.heap.text hxy]
  exact .ok trivial { hnext with output := houtput }

/-- The slots that a match of the arguments looks at. -/
theorem namedSlots_matchArgs {m : Machine} {frame : Frame} {chunk : Chunk} {parameters : List Matcher} {a : Nat}
    (hframe : m.frames.back? = some frame) (hchunk : m.chunk = some chunk)
    (hparameters : chunk.clauses[a]? = some parameters) (hcount : frame.argumentCount = parameters.length) :
    m.namedSlots .matchArgs a = List.range' frame.base parameters.length := by
  simp [Machine.namedSlots, hframe, hchunk, hparameters, hcount]

/-- An instruction that needs no storage keeps machines together, if they find the slots alike that it
names. -/
theorem calm_execute (hcorr : Machine.Corresponds ρ left right) {op : Opcode}
    (hstorage : op.needsStorage = false) (a b : Nat)
    (hseen : ∀ slot ∈ left.namedSlots op a, Machine.SeenAlike left right slot) :
    Together ρ (execute op a b left) (execute op a b right) := by
  have hsim := hcorr.toSimilar
  have hupvalue (hnames : left.namedSlots op a = (left.upvalueSlot? a).toList) (slot : Nat)
      (hslot : left.upvalueSlot? a = some slot) : Machine.SeenAlike left right slot :=
    hseen slot (by simp [hnames, hslot])
  cases op with
  | string | closure | record | setField | array => simp [Opcode.needsStorage] at hstorage
  | constant => exact calm_constant hcorr a b
  | pushNil => exact calm_push hcorr (Value.related_nil ρ)
  | pushTrue => exact calm_push hcorr (Value.related_ofBool ρ true)
  | pushFalse => exact calm_push hcorr (Value.related_ofBool ρ false)
  | pop => exact (calm_pop hcorr).bind fun _ _ _ _ _ hnext => .ok trivial hnext
  | popMany => exact calm_popMany hcorr a b
  | dup => exact (reads_peek hsim 0).bind_calm hcorr fun _ _ hxy => calm_push hcorr hxy
  | add | subtract | multiply | divide | modulo =>
    exact calm_binary hcorr (·.arithmetic _) fun hab hcd => hcorr.heap.arithmetic _ hab hcd
  | negate => exact calm_unary hcorr Heap.negate fun hab => hcorr.heap.negate hab
  | bitwiseAnd | bitwiseOr | bitwiseXor | leftShift | rightShift =>
    exact calm_binary hcorr (·.bitwise _) fun hab hcd => hcorr.heap.bitwise _ hab hcd
  | bitwiseNot => exact calm_unary hcorr Heap.complement fun hab => hcorr.heap.complement hab
  | equal => exact calm_equality hcorr false
  | notEqual => exact calm_equality hcorr true
  | less | greater | lessEqual | greaterEqual =>
    exact calm_binary hcorr (·.comparison _) fun hab hcd => hcorr.heap.comparison _ hab hcd
  | logicalNot =>
    refine (calm_pop hcorr).bind fun x y _ _ hxy hnext => calm_push hnext ?_
    rw [hxy.truthy]
    exact Value.related_ofBool ρ _
  | getGlobal =>
    exact (reads_definedGlobal hsim a "read").bind_calm hcorr fun _ _ hxy => calm_push hcorr hxy
  | setGlobal => exact (reads_peek hsim 0).bind_calm hcorr fun _ _ hxy => calm_setGlobal hcorr a hxy
  | moveGlobal => exact calm_moveGlobal hcorr a b
  | getLocal =>
    refine (reads_localIndex hsim a).bind_calm hcorr fun i j hindex => ?_
    obtain ⟨rfl, hbelow⟩ := hindex
    exact (reads_readSlot hsim (.inl hbelow)).bind_calm hcorr fun _ _ hxy => calm_push hcorr hxy
  | setLocal =>
    refine (reads_peek hsim 0).bind_calm hcorr fun x y hxy => ?_
    refine (reads_localIndex hsim a).bind_calm hcorr fun i j hindex => ?_
    obtain ⟨rfl, hbelow⟩ := hindex
    exact calm_writeSlot hcorr (.inl hbelow) hxy
  | moveLocal => exact calm_moveLocal hcorr a b
  | getUpvalue =>
    exact (reads_readUpvalue hsim a (hupvalue rfl)).bind_calm hcorr fun _ _ hxy => calm_push hcorr hxy
  | setUpvalue =>
    exact (reads_peek hsim 0).bind_calm hcorr fun _ _ hxy => calm_writeUpvalue hcorr (hupvalue rfl) hxy
  | moveUpvalue => exact calm_moveUpvalue hcorr b (hupvalue rfl)
  | closeUpvalue => exact calm_closeUpvalue hcorr a b
  | jump => exact .ok trivial (hcorr.withIp (by rw [hcorr.ip]))
  | jumpIfFalse => exact calm_conditionalJump hcorr (.inl rfl) a b
  | jumpIfTrue => exact calm_conditionalJump hcorr (.inr rfl) a b
  | loopBack => exact .ok trivial (hcorr.withIp (by rw [hcorr.ip]))
  | call => exact calm_call hcorr a b
  | ret => exact (calm_pop hcorr).bind fun _ _ _ _ hxy hnext => calm_returnFromFrame hnext hxy
  | getField =>
    refine (reads_chunk hsim).bind_calm hcorr fun first second hchunk => ?_
    subst hchunk
    refine (reads_expect_same _).bind_calm hcorr fun name other hname => ?_
    subst hname
    exact calm_getField hcorr name
  | getIndex => exact calm_getIndex hcorr
  | setIndex => exact calm_setIndex hcorr
  | matchValue => exact calm_matchValue hcorr a b
  | matchArgs =>
    refine (reads_chunk hsim).noted.bind_calm hcorr fun first second hnoted => ?_
    obtain ⟨rfl, hchunk, -⟩ := hnoted
    refine (reads_expect_same _).noted.bind_calm hcorr fun parameters other hnoted => ?_
    obtain ⟨rfl, hparameters, -⟩ := hnoted
    refine calm_matchArguments hcorr parameters fun frame hframe hcount slot hslot => hseen slot ?_
    rwa [namedSlots_matchArgs hframe (chunk_eq_some hchunk) (expect_eq_some hparameters) hcount]
  | noMatchingArm => exact calm_fail rfl hcorr
  | noMatchingOverload => exact calm_noMatchingOverload hcorr
  | printTop => exact calm_printTop hcorr a b
  | halt => exact calm_returnFromFrame hcorr (Value.related_nil ρ)

end Exec

end OwnScript
