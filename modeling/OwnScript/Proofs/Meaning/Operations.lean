import OwnScript.Proofs.Meaning.Mirrors
import OwnScript.Proofs.Stack.Prologues

/-!
What the instructions do that need no storage. Each takes a machine that mirrors one point of the evaluation to a
machine that mirrors the point which the instruction stands for, or both fail in the same way.
-/

namespace OwnScript

open Stateful Machine

variable {T : Translation} {ρ σ : Renaming} {stack above below : List Value} {w : World} {m start : Machine}
  {value other : Value} {next : Nat}

namespace Mirrors

theorem push (hmirrors : Mirrors T ρ stack w m) (hrel : Value.Related ρ value other) :
    Mirrors T ρ (value :: stack) w { m with stack := m.stack.push other } := by
  obtain ⟨script, values, hstack, hvalues⟩ := hmirrors.stack
  exact { hmirrors with stack := ⟨script, other :: values, by simp [hstack], .cons hrel hvalues⟩ }

theorem stack_cut_pile {script : Value} {tops values : List Value} (hstack : m.stack = pile script (tops ++ values)) :
    (m.cut (values.length + 1)).stack = pile script values := by
  rw [stack_cut, hstack, shrink_pile]

/-- The values on top of the stack and the machine without them. -/
theorem split (above : List Value) (hmirrors : Mirrors T ρ (above ++ stack) w m) :
    ∃ script tops values, m.stack = pile script (tops ++ values) ∧ List.Forall₂ (Value.Related ρ) above tops ∧
      values.length = stack.length ∧ Mirrors T ρ stack w (m.cut (values.length + 1)) := by
  obtain ⟨script, values, hstack, hvalues⟩ := hmirrors.stack
  have htops := List.forall₂_take above.length hvalues
  have hrest := List.forall₂_drop above.length hvalues
  rw [List.take_left' rfl] at htops
  rw [List.drop_left' rfl] at hrest
  have hsplit : m.stack = pile script (values.take above.length ++ values.drop above.length) := by
    rw [List.take_append_drop]
    exact hstack
  refine ⟨script, values.take above.length, values.drop above.length, hsplit, htops, hrest.length_eq.symm, ?_⟩
  exact { hmirrors with stack := ⟨script, _, stack_cut_pile hsplit, hrest⟩ }

/-- The value on top of the stack and the machine without it. -/
theorem top (hmirrors : Mirrors T ρ (value :: stack) w m) :
    ∃ script other values, m.stack = pile script (other :: values) ∧ Value.Related ρ value other ∧
      Mirrors T ρ stack w (m.cut (values.length + 1)) := by
  obtain ⟨script, tops, values, hstack, htops, -, hrest⟩ := hmirrors.split [value]
  cases htops with
  | cons hrel hnone =>
    cases hnone
    exact ⟨script, _, values, hstack, hrel, hrest⟩

/-- The two values on top of the stack and the machine without them. -/
theorem topTwo {second : Value} (hmirrors : Mirrors T ρ (value :: second :: stack) w m) :
    ∃ script other copy values, m.stack = pile script (other :: copy :: values) ∧ Value.Related ρ value other ∧
      Value.Related ρ second copy ∧ Mirrors T ρ stack w (m.cut (values.length + 1)) := by
  obtain ⟨script, tops, values, hstack, htops, -, hrest⟩ := hmirrors.split [value, second]
  cases htops with
  | cons hfirst hothers =>
    cases hothers with
    | cons hsecond hnone =>
      cases hnone
      exact ⟨script, _, _, values, hstack, hfirst, hsecond, hrest⟩

/-- A value inside the stack, which may be replaced. -/
theorem slot (hmirrors : Mirrors T ρ (above ++ value :: below) w m) :
    ∃ other, Value.Related ρ value other ∧ m.stack[1 + below.length]? = some other ∧
      ∀ new copy, Value.Related ρ new copy → Mirrors T ρ (above ++ new :: below) w
        { m with stack := m.stack.setIfInBounds (1 + below.length) copy } := by
  obtain ⟨script, tops, values, hstack, htops, hlength, hrest⟩ := hmirrors.split above
  obtain ⟨_, kept, hkept, hvalues⟩ := hrest.stack
  obtain ⟨-, rfl⟩ : script = _ ∧ values = kept := by
    have hsame := congrArg Array.toList ((stack_cut_pile hstack).symm.trans hkept)
    simpa [pile] using hsame
  cases hvalues with
  | @cons _ other _ kept hrel hbelow =>
    have hsize : below.length = kept.length := hbelow.length_eq
    refine ⟨other, hrel, by rw [hstack, hsize, pile_slot], fun new copy hnew => ?_⟩
    refine { hmirrors with stack := ⟨script, tops ++ copy :: kept, ?_, List.rel_append htops (.cons hnew hbelow)⟩ }
    simp only [hstack, hsize, set_pile]

/-- A global variable takes a new value. -/
theorem define {id : BindingId} {a : Nat} (hmirrors : Mirrors T ρ stack w m) (hslot : T.table.slots[id]? = some a)
    (hrel : Value.Related ρ value other) :
    Mirrors T ρ stack { w with globals := (T.nameOf id, value) :: w.globals }
      { m with globals := m.globals.setIfInBounds a (some other) } := by
  refine { hmirrors with globals := fun wanted slot hwanted => ?_, named := ?_ }
  · obtain ⟨found, hfound, hold⟩ := hmirrors.globals wanted slot hwanted
    by_cases hsame : wanted = id
    · subst hsame
      cases hslot.symm.trans hwanted
      obtain ⟨hsize, -⟩ := Array.getElem?_eq_some_iff.mp hfound
      refine ⟨some other, by simp [hsize], ?_⟩
      simpa using Option.Rel.some hrel
    · have hname : T.nameOf wanted ≠ T.nameOf id := fun h => hsame (T.namesApart wanted id slot a hwanted hslot h)
      have hplace : a ≠ slot := fun h => hsame (T.slotsApart wanted id slot hwanted (h ▸ hslot))
      refine ⟨found, by simpa [hplace] using hfound, ?_⟩
      simpa [List.lookup_cons, beq_false_of_ne hname] using hold
  · simpa using hmirrors.named

end Mirrors

namespace Exec

variable {fails : Option ErrorKind} {goal : Machine → Prop}

section Steps

variable {script : Value} {values tops : List Value}

theorem peek_pile (distance : Nat) (hstack : m.stack = pile script values) (hvalue : values[distance]? = some value) :
    peek distance m = .ok value m := by
  obtain ⟨hdistance, -⟩ := List.getElem?_eq_some_iff.mp hvalue
  have hindex : values.length + 1 - 1 - distance = values.length - distance := by omega
  rw [peek_eq, hstack, size_pile, hindex, pile_top script values distance hdistance, hvalue]
  dsimp only
  rw [if_pos (by omega)]

theorem pop_pile (hstack : m.stack = pile script (value :: values)) :
    pop m = .ok value (m.cut (values.length + 1)) := by
  have hback : m.stack.back? = some value := by
    rw [Array.back?_eq_getElem?, hstack]
    simpa using pile_top script (value :: values) 0 (by simp)
  have hheight : m.stack.size - 1 = values.length + 1 := by
    rw [hstack, size_pile, List.length_cons, Nat.add_sub_cancel]
  rw [pop_eq, hback, hheight]

theorem replaceTop_pile (tops : List Value) (hstack : m.stack = pile script (tops ++ values)) {count : Nat}
    (hcount : tops.length = count) (value : Value) :
    replaceTop count value m = push value (m.cut (values.length + 1)) := by
  have hheight : m.stack.size - count = values.length + 1 := by
    rw [hstack, size_pile, List.length_append]
    omega
  simp only [replaceTop]
  rw [bind_apply, modify_apply]
  dsimp only
  rw [hheight]

theorem push_cases (value : Value) (m : Machine) :
    push value m = .ok () { m with stack := m.stack.push value } ∨ push value m = .error overflowFault m := by
  unfold push
  rw [get_bind_apply]
  split
  · exact .inr rfl
  · exact .inl rfl

/-- A value finds room on the stack, or the stack is full. -/
theorem comesOut_push_bind {k : Exec Unit} (hchunk : m.chunk = start.chunk)
    (hstart : m.instructionStart = start.instructionStart) (houtput : m.output = start.output)
    (hnext : ComesOut fails goal start (k { m with stack := m.stack.push value })) :
    ComesOut fails goal start ((push value >>= fun _ => k) m) := by
  rw [bind_apply]
  rcases push_cases value m with hpush | hpush
  · rw [hpush]
    exact hnext
  · rw [hpush]
    exact .overflows ⟨rfl, rfl, hchunk, hstart, houtput⟩

theorem comesOut_push (hchunk : m.chunk = start.chunk) (hstart : m.instructionStart = start.instructionStart)
    (houtput : m.output = start.output) (hgoal : goal { m with stack := m.stack.push value }) :
    ComesOut fails goal start (push value m) := by
  rcases push_cases value m with hpush | hpush
  · rw [hpush]
    exact .passes hgoal
  · rw [hpush]
    exact .overflows ⟨rfl, rfl, hchunk, hstart, houtput⟩

theorem localIndex_eq {frame : Frame} (hframes : m.frames = #[frame]) (hbase : frame.base = 1) {slot : Nat}
    (hslot : m.stack[1 + slot]? = some value) : localIndex slot m = .ok (1 + slot) m := by
  have hframe : Exec.frame m = .ok frame m := by
    unfold Exec.frame
    rw [get_bind_apply, hframes]
    rfl
  obtain ⟨hsize, -⟩ := Array.getElem?_eq_some_iff.mp hslot
  simp only [localIndex]
  rw [bind_apply, hframe]
  dsimp only
  rw [get_bind_apply, hbase, if_pos hsize]
  rfl

theorem readSlot_eq {slot : Nat} (hslot : m.stack[slot]? = some value) : readSlot slot m = .ok value m := by
  unfold readSlot
  rw [get_bind_apply, slot?, hslot]
  rfl

theorem writeSlot_eq {slot : Nat} (hslot : slot < m.stack.size) (value : Value) :
    writeSlot slot value m = .ok () { m with stack := m.stack.setIfInBounds slot value } := by
  unfold writeSlot
  rw [get_bind_apply, if_pos hslot]
  rfl

theorem chunk_bind {α : Type} (hmirrors : Mirrors T ρ stack w m) (k : Chunk → Exec α) :
    (chunk >>= k) m = k T.code.chunk m := by
  have hchunk : chunk m = .ok T.code.chunk m := by
    unfold chunk
    rw [get_bind_apply, hmirrors.chunk]
    rfl
  rw [bind_apply, hchunk]

theorem expect_bind {α β : Type} (found : α) (k : α → Exec β) : (expect (some found) >>= k) m = k found m :=
  rfl

end Steps

section Values

theorem always_push (hrel : ∀ ρ, Value.Related ρ value other) :
    Always T stack w next none (Stands T next (value :: stack) w) (push other) := by
  intro ρ m hmirrors hip
  exact comesOut_push rfl rfl rfl ⟨hip, ρ, hmirrors.push (hrel ρ)⟩

/-- A literal without storage. -/
theorem always_load {scalar : Scalar} {op : Opcode} {a : Nat} (hloads : Loads T.code.chunk (.scalar scalar) op a) :
    Always T stack w next none (Stands T next (.scalar scalar :: stack) w) (execute op a 0) := by
  cases hloads with
  | nil | true | false => exact always_push fun _ => .scalar _
  | constant hconstant =>
    intro ρ m hmirrors hip
    simp only [execute]
    rw [chunk_bind hmirrors, hconstant, expect_bind]
    exact always_push (fun _ => .scalar _) ρ m hmirrors hip

theorem always_pop (a b : Nat) : Always T (value :: stack) w next none (Stands T next stack w) (execute .pop a b) := by
  intro ρ m hmirrors hip
  obtain ⟨script, other, values, hstack, -, hrest⟩ := hmirrors.top
  simp only [execute]
  rw [bind_apply, pop_pile hstack]
  exact .passes ⟨hip, ρ, hrest⟩

end Values

section Variables

theorem always_getLocal {a : Nat} (ha : a = below.length) (b : Nat) :
    Always T (above ++ value :: below) w next none (Stands T next (value :: (above ++ value :: below)) w)
      (execute .getLocal a b) := by
  intro ρ m hmirrors hip
  obtain ⟨other, hrel, hslot, -⟩ := hmirrors.slot
  obtain ⟨frame, hframes, hbase, -⟩ := hmirrors.frames
  rw [← ha] at hslot
  simp only [execute]
  rw [bind_apply, localIndex_eq hframes hbase hslot]
  dsimp only
  rw [bind_apply, readSlot_eq hslot]
  exact comesOut_push rfl rfl rfl ⟨hip, ρ, hmirrors.push hrel⟩

theorem always_setLocal {new : Value} {a : Nat} (ha : a = below.length) (b : Nat) :
    Always T (new :: (above ++ value :: below)) w next none (Stands T next (new :: (above ++ new :: below)) w)
      (execute .setLocal a b) := by
  intro ρ m hmirrors hip
  obtain ⟨script, copy, values, hstack, hnew, -⟩ := hmirrors.top
  have hwhole : Mirrors T ρ ((new :: above) ++ value :: below) w m := hmirrors
  obtain ⟨other, -, hslot, hset⟩ := hwhole.slot
  obtain ⟨frame, hframes, hbase, -⟩ := hmirrors.frames
  rw [← ha] at hslot hset
  obtain ⟨hsize, -⟩ := Array.getElem?_eq_some_iff.mp hslot
  simp only [execute]
  rw [bind_apply, peek_pile 0 hstack rfl]
  dsimp only
  rw [bind_apply, localIndex_eq hframes hbase hslot]
  dsimp only
  rw [writeSlot_eq hsize]
  exact .passes ⟨hip, ρ, hset new copy hnew⟩

theorem always_moveLocal {a : Nat} (ha : a = below.length) (b : Nat) :
    Always T (above ++ value :: below) w next none (Stands T next (value :: (above ++ .nil :: below)) w)
      (execute .moveLocal a b) := by
  intro ρ m hmirrors hip
  obtain ⟨other, hrel, hslot, -⟩ := hmirrors.slot
  obtain ⟨frame, hframes, hbase, -⟩ := hmirrors.frames
  rw [← ha] at hslot
  obtain ⟨hsize, -⟩ := Array.getElem?_eq_some_iff.mp hslot
  simp only [execute]
  rw [bind_apply, localIndex_eq hframes hbase hslot]
  dsimp only
  rw [bind_apply, readSlot_eq hslot]
  dsimp only
  refine comesOut_push_bind rfl rfl rfl ?_
  have hpushed : Mirrors T ρ ((value :: above) ++ value :: below) w { m with stack := m.stack.push other } :=
    hmirrors.push hrel
  obtain ⟨-, -, -, hset⟩ := hpushed.slot
  rw [← ha] at hset
  rw [writeSlot_eq (by simpa using Nat.lt_succ_of_lt hsize)]
  exact .passes ⟨hip, ρ, hset .nil .nil (Value.related_nil ρ)⟩

end Variables

/-- What becomes of an instruction whose result the evaluation knows. -/
def Answers {α : Type} (T : Translation) (stack : List Value) (w : World) (next : Nat) (result : Except ErrorKind α)
    (goal : α → Machine → Prop) (step : Exec Unit) : Prop :=
  match result with
  | .ok value => Always T stack w next none (goal value) step
  | .error kind => Always T stack w next (some kind) (fun _ => False) step

/-- On every machine the instruction has the result that the evaluation knows. -/
theorem answers_intro {α : Type} {result : Except ErrorKind α} {goal : α → Machine → Prop} {step : Exec Unit}
    (hcases : ∀ ρ m, Mirrors T ρ stack w m → m.ip = next →
      (∃ value, result = .ok value ∧ ComesOut none (goal value) m (step m)) ∨
        ∃ diagnostic, result = .error diagnostic.kind ∧ diagnostic.location = {} ∧
          step m = .error (.failure diagnostic) m) :
    Answers T stack w next result goal step := by
  cases result with
  | ok value =>
    intro ρ m hmirrors hip
    rcases hcases ρ m hmirrors hip with ⟨_, hresult, houtcome⟩ | ⟨_, hresult, -⟩
    · cases hresult
      exact houtcome
    · cases hresult
  | error kind =>
    intro ρ m hmirrors hip
    rcases hcases ρ m hmirrors hip with ⟨_, hresult, -⟩ | ⟨diagnostic, hresult, hplace, hstep⟩
    · cases hresult
    · cases hresult
      rw [hstep]
      exact .fails rfl ⟨rfl, hplace, rfl, rfl, rfl⟩

section Globals

variable {id : BindingId} {a : Nat}

/-- What reading a global variable gives. -/
def globalOf (w : World) (name : String) : Except ErrorKind Value :=
  match w.globals.lookup name with
  | some value => .ok value
  | none => .error .undefinedGlobal

theorem definedGlobal_cases (hmirrors : Mirrors T ρ stack w m) (hslot : T.table.slots[id]? = some a) (verb : String) :
    (∃ value other, globalOf w (T.nameOf id) = .ok value ∧ Value.Related ρ value other ∧
      definedGlobal a verb m = .ok other m) ∨
    ∃ diagnostic, globalOf w (T.nameOf id) = .error diagnostic.kind ∧ diagnostic.location = {} ∧
      definedGlobal a verb m = .error (.failure diagnostic) m := by
  obtain ⟨found, hfound, hrel⟩ := hmirrors.globals id a hslot
  simp only [definedGlobal, globalOf]
  rw [get_bind_apply, hfound, expect_bind]
  generalize w.globals.lookup (T.nameOf id) = wanted at hrel ⊢
  cases hrel with
  | some hvalue => exact .inl ⟨_, _, rfl, hvalue, rfl⟩
  | none =>
    obtain ⟨hsize, -⟩ := Array.getElem?_eq_some_iff.mp hfound
    have hname := Array.getElem?_eq_getElem (Nat.lt_of_lt_of_le hsize hmirrors.named)
    dsimp only
    rw [hname, expect_bind]
    exact .inr ⟨_, rfl, rfl, rfl⟩

theorem answers_getGlobal (hslot : T.table.slots[id]? = some a) (b : Nat) :
    Answers T stack w next (globalOf w (T.nameOf id)) (fun value => Stands T next (value :: stack) w)
      (execute .getGlobal a b) := by
  refine answers_intro fun ρ m hmirrors hip => ?_
  simp only [execute]
  rcases definedGlobal_cases hmirrors hslot "read" with
    ⟨value, other, hresult, hrel, hread⟩ | ⟨diagnostic, hresult, hplace, hread⟩
  · refine .inl ⟨value, hresult, ?_⟩
    rw [bind_apply, hread]
    exact comesOut_push rfl rfl rfl ⟨hip, ρ, hmirrors.push hrel⟩
  · refine .inr ⟨diagnostic, hresult, hplace, ?_⟩
    rw [bind_apply, hread]

theorem always_setGlobal (hslot : T.table.slots[id]? = some a) (b : Nat) :
    Always T (value :: stack) w next none
      (Stands T next (value :: stack) { w with globals := (T.nameOf id, value) :: w.globals })
      (execute .setGlobal a b) := by
  intro ρ m hmirrors hip
  obtain ⟨script, other, values, hstack, hrel, -⟩ := hmirrors.top
  simp only [execute]
  rw [bind_apply, peek_pile 0 hstack rfl]
  exact .passes ⟨hip, ρ, hmirrors.define hslot hrel⟩

theorem answers_moveGlobal (hslot : T.table.slots[id]? = some a) (b : Nat) :
    Answers T stack w next (globalOf w (T.nameOf id))
      (fun value => Stands T next (value :: stack) { w with globals := (T.nameOf id, .nil) :: w.globals })
      (execute .moveGlobal a b) := by
  refine answers_intro fun ρ m hmirrors hip => ?_
  simp only [execute]
  rcases definedGlobal_cases hmirrors hslot "moved" with
    ⟨value, other, hresult, hrel, hread⟩ | ⟨diagnostic, hresult, hplace, hread⟩
  · refine .inl ⟨value, hresult, ?_⟩
    rw [bind_apply, hread]
    refine comesOut_push_bind rfl rfl rfl (.passes ⟨hip, ρ, ?_⟩)
    exact (hmirrors.push hrel).define hslot (Value.related_nil ρ)
  · refine .inr ⟨diagnostic, hresult, hplace, ?_⟩
    rw [bind_apply, hread]

end Globals

section Operators

variable {left right : Value}

theorem unary_eq (hmirrors : Mirrors T ρ (value :: stack) w m) (operator : Heap → Value → Except Diagnostic Value) :
    ∃ other height, Value.Related ρ value other ∧ Mirrors T ρ stack w (m.cut height) ∧
      unary operator m =
        match operator m.heap other with
        | .ok result => push result (m.cut height)
        | .error diagnostic => .error (.failure diagnostic) m := by
  obtain ⟨script, other, values, hstack, hrel, hrest⟩ := hmirrors.top
  refine ⟨other, values.length + 1, hrel, hrest, ?_⟩
  simp only [unary]
  rw [bind_apply, peek_pile 0 hstack rfl]
  dsimp only
  rw [get_bind_apply, bind_apply]
  cases operator m.heap other with
  | error diagnostic => rfl
  | ok result => exact replaceTop_pile [other] hstack rfl result

theorem binary_eq (hmirrors : Mirrors T ρ (right :: left :: stack) w m)
    (operator : Heap → Value → Value → Except Diagnostic Value) :
    ∃ first second height, Value.Related ρ left first ∧ Value.Related ρ right second ∧
      Mirrors T ρ stack w (m.cut height) ∧
      binary operator m =
        match operator m.heap first second with
        | .ok result => push result (m.cut height)
        | .error diagnostic => .error (.failure diagnostic) m := by
  obtain ⟨script, second, first, values, hstack, hright, hleft, hrest⟩ := hmirrors.topTwo
  refine ⟨first, second, values.length + 1, hleft, hright, hrest, ?_⟩
  simp only [binary]
  rw [bind_apply, peek_pile 0 hstack rfl]
  dsimp only
  rw [bind_apply, peek_pile 1 hstack rfl]
  dsimp only
  rw [get_bind_apply, bind_apply]
  cases operator m.heap first second with
  | error diagnostic => rfl
  | ok result => exact replaceTop_pile [second, first] hstack rfl result

/-- An operator with one operand that gives the same scalar in all heaps that correspond. -/
theorem answers_unary (operator : Heap → Value → Except Diagnostic Value)
    (hunplaced : ∀ diagnostic, operator w.heap value = .error diagnostic → diagnostic.location = {})
    (hagree : ∀ ρ config heap other, Heap.Corresponds ρ { w.heap with config } heap → Value.Related ρ value other →
      Heap.Corresponds.SameScalar (operator w.heap value) (operator heap other)) :
    Answers T (value :: stack) w next (complaintKind (operator w.heap value))
      (fun result => Stands T next (result :: stack) w) (unary operator) := by
  refine answers_intro fun ρ m hmirrors hip => ?_
  obtain ⟨other, height, hrel, hrest, hrun⟩ := unary_eq hmirrors operator
  obtain ⟨config, hheap⟩ := hmirrors.heap
  obtain ⟨result, hfirst, hsecond⟩ := hagree ρ config m.heap other hheap hrel
  rw [hrun, hsecond]
  cases result with
  | error diagnostic => exact .inr ⟨diagnostic, by rw [hfirst]; rfl, hunplaced diagnostic hfirst, rfl⟩
  | ok scalar =>
    refine .inl ⟨.scalar scalar, by rw [hfirst]; rfl, ?_⟩
    exact comesOut_push rfl rfl rfl ⟨hip, ρ, hrest.push (.scalar scalar)⟩

/-- An operator with two operands that gives the same scalar in all heaps that correspond. -/
theorem answers_binary (operator : Heap → Value → Value → Except Diagnostic Value)
    (hunplaced : ∀ diagnostic, operator w.heap left right = .error diagnostic → diagnostic.location = {})
    (hagree : ∀ ρ config heap first second, Heap.Corresponds ρ { w.heap with config } heap →
      Value.Related ρ left first → Value.Related ρ right second →
      Heap.Corresponds.SameScalar (operator w.heap left right) (operator heap first second)) :
    Answers T (right :: left :: stack) w next (complaintKind (operator w.heap left right))
      (fun result => Stands T next (result :: stack) w) (binary operator) := by
  refine answers_intro fun ρ m hmirrors hip => ?_
  obtain ⟨first, second, height, hleft, hright, hrest, hrun⟩ := binary_eq hmirrors operator
  obtain ⟨config, hheap⟩ := hmirrors.heap
  obtain ⟨result, hfirst, hsecond⟩ := hagree ρ config m.heap first second hheap hleft hright
  rw [hrun, hsecond]
  cases result with
  | error diagnostic => exact .inr ⟨diagnostic, by rw [hfirst]; rfl, hunplaced diagnostic hfirst, rfl⟩
  | ok scalar =>
    refine .inl ⟨.scalar scalar, by rw [hfirst]; rfl, ?_⟩
    exact comesOut_push rfl rfl rfl ⟨hip, ρ, hrest.push (.scalar scalar)⟩

theorem always_equality (negated : Bool) :
    Always T (right :: left :: stack) w next none
      (Stands T next (.ofBool (w.heap.equals left right != negated) :: stack) w) (equality negated) := by
  intro ρ m hmirrors hip
  obtain ⟨script, second, values, hstack, hright, hrest⟩ := hmirrors.top
  obtain ⟨_, first, others, hothers, hleft, hlast⟩ := hrest.top
  obtain ⟨config, hheap⟩ := hmirrors.heap
  have hequals : w.heap.equals left right = m.heap.equals first second := hheap.equals hleft hright
  simp only [equality]
  rw [bind_apply, pop_pile hstack]
  dsimp only
  rw [bind_apply, pop_pile hothers]
  dsimp only
  rw [get_bind_apply]
  refine comesOut_push rfl rfl rfl ⟨hip, ρ, ?_⟩
  rw [hequals]
  exact hlast.push (Value.related_ofBool ρ _)

theorem always_logicalNot (a b : Nat) :
    Always T (value :: stack) w next none (Stands T next (.ofBool (!value.truthy) :: stack) w)
      (execute .logicalNot a b) := by
  intro ρ m hmirrors hip
  obtain ⟨script, other, values, hstack, hrel, hrest⟩ := hmirrors.top
  simp only [execute]
  rw [bind_apply, pop_pile hstack]
  refine comesOut_push rfl rfl rfl ⟨hip, ρ, ?_⟩
  rw [hrel.truthy]
  exact hrest.push (Value.related_ofBool ρ _)

/-- Complaints of operators carry no place in the source. -/
theorem unplaced_arithmetic (heap : Heap) (op : Opcode) (left right : Value) (diagnostic : Diagnostic)
    (herror : heap.arithmetic op left right = .error diagnostic) : diagnostic.location = {} := by
  unfold Heap.arithmetic at herror
  split at herror
  · rename_i x y _
    cases op <;> simp only [Opcode.integerResult] at herror <;> grind [typeError, Diagnostic.plain, Except.map]
  · cases herror
  · cases herror
    rfl

theorem unplaced_bitwise (heap : Heap) (op : Opcode) (left right : Value) (diagnostic : Diagnostic)
    (herror : heap.bitwise op left right = .error diagnostic) : diagnostic.location = {} := by
  unfold Heap.bitwise at herror
  split at herror
  · cases op <;> simp only [Opcode.bitResult, shiftCount] at herror <;>
      grind [typeError, Diagnostic.plain, Except.map]
  · cases herror
    rfl

theorem unplaced_comparison (heap : Heap) (op : Opcode) (left right : Value) (diagnostic : Diagnostic)
    (herror : heap.comparison op left right = .error diagnostic) : diagnostic.location = {} := by
  unfold Heap.comparison at herror
  split at herror <;> cases herror
  rfl

/-- The operators with one operand. -/
theorem answers_unaryOp (op : UnaryOp) :
    Answers T (value :: stack) w next (op.result w.heap value) (fun result => Stands T next (result :: stack) w)
      (execute op.opcode 0 0) := by
  cases op with
  | negate =>
    refine answers_unary Heap.negate (fun diagnostic herror => ?_) fun _ _ _ _ hheap => hheap.negate
    unfold Heap.negate at herror
    split at herror <;> cases herror
    rfl
  | logicalNot => exact always_logicalNot 0 0
  | bitwiseNot =>
    refine answers_unary Heap.complement (fun diagnostic herror => ?_) fun _ _ _ _ hheap => hheap.complement
    unfold Heap.complement at herror
    split at herror <;> cases herror
    rfl

/-- The operators with two operands that always run. -/
theorem answers_binaryOp {op : BinaryOp} (hop : op.isLogical = false) :
    Answers T (right :: left :: stack) w next (op.result w.heap left right)
      (fun result => Stands T next (result :: stack) w) (execute op.opcode 0 0) := by
  have harithmetic (op : Opcode) : Answers T (right :: left :: stack) w next
      (complaintKind (w.heap.arithmetic op left right)) (fun result => Stands T next (result :: stack) w)
      (binary (·.arithmetic op)) :=
    answers_binary (·.arithmetic op) (unplaced_arithmetic w.heap op left right) fun _ _ _ _ _ hheap =>
      hheap.arithmetic op
  have hbitwise (op : Opcode) : Answers T (right :: left :: stack) w next
      (complaintKind (w.heap.bitwise op left right)) (fun result => Stands T next (result :: stack) w)
      (binary (·.bitwise op)) :=
    answers_binary (·.bitwise op) (unplaced_bitwise w.heap op left right) fun _ _ _ _ _ hheap => hheap.bitwise op
  have hcomparison (op : Opcode) : Answers T (right :: left :: stack) w next
      (complaintKind (w.heap.comparison op left right)) (fun result => Stands T next (result :: stack) w)
      (binary (·.comparison op)) :=
    answers_binary (·.comparison op) (unplaced_comparison w.heap op left right) fun _ _ _ _ _ hheap =>
      hheap.comparison op
  have hequality (negated : Bool) : Answers T (right :: left :: stack) w next
      (.ok (.ofBool (w.heap.equals left right != negated)))
      (fun result => Stands T next (result :: stack) w) (equality negated) :=
    always_equality negated
  cases op with
  | add | subtract | multiply | divide | modulo => exact harithmetic _
  | bitwiseAnd | bitwiseOr | bitwiseXor | shiftLeft | shiftRight => exact hbitwise _
  | less | lessEqual | greater | greaterEqual => exact hcomparison _
  | equal =>
    have hplain := hequality false
    rw [Bool.bne_false] at hplain
    exact hplain
  | notEqual =>
    have hnegated := hequality true
    rw [Bool.bne_true] at hnegated
    exact hnegated
  | logicalAnd | logicalOr => cases hop

end Operators

section Control

theorem always_jump (a b : Nat) :
    Always T stack w next none (Stands T (next + a) stack w) (execute .jump a b) := by
  intro ρ m hmirrors hip
  exact .passes ⟨congrArg (· + a) hip, ρ, { hmirrors with }⟩

theorem always_loopBack (a b : Nat) :
    Always T stack w next none (Stands T (next - a) stack w) (execute .loopBack a b) := by
  intro ρ m hmirrors hip
  exact .passes ⟨congrArg (· - a) hip, ρ, { hmirrors with }⟩

/-- A conditional jump is taken if the value on top of the stack has a certain truth value. -/
theorem always_jumpIf {op : Opcode} {on : Bool} (hop : op = if on then .jumpIfTrue else .jumpIfFalse) (a b : Nat) :
    Always T (value :: stack) w next none
      (Stands T (if value.truthy = on then next + a else next) (value :: stack) w) (execute op a b) := by
  intro ρ m hmirrors hip
  obtain ⟨script, other, values, hstack, hrel, -⟩ := hmirrors.top
  have hpeek := peek_pile 0 hstack rfl
  have hstays : ComesOut none (Stands T next (value :: stack) w) m (.ok () m) := .passes ⟨hip, ρ, hmirrors⟩
  have hjumps : ComesOut none (Stands T (next + a) (value :: stack) w) m (.ok () { m with ip := m.ip + a }) :=
    .passes ⟨congrArg (· + a) hip, ρ, { hmirrors with }⟩
  rw [hrel.truthy]
  subst hop
  cases on with
  | true =>
    simp only [if_pos, execute]
    rw [bind_apply, hpeek]
    dsimp only
    cases other.truthy with
    | true =>
      rw [if_pos rfl]
      exact hjumps
    | false =>
      rw [if_neg Bool.false_ne_true]
      exact hstays
  | false =>
    simp only [Bool.false_eq_true, if_false, execute]
    rw [bind_apply, hpeek]
    dsimp only
    cases other.truthy with
    | true =>
      rw [if_neg (by decide)]
      exact hstays
    | false =>
      rw [if_pos rfl]
      exact hjumps

theorem always_noMatchingArm (a b : Nat) :
    Always T stack w next (some .noMatchingArm) (fun _ => False) (execute .noMatchingArm a b) := by
  intro ρ m hmirrors hip
  exact .fails rfl ⟨rfl, rfl, rfl, rfl, rfl⟩

theorem always_printTop (a b : Nat) :
    Always T (value :: stack) w next none
      (Stands T next stack { w with output := w.output ++ (w.heap.text value ++ "\n") }) (execute .printTop a b) := by
  intro ρ m hmirrors hip
  obtain ⟨script, other, values, hstack, hrel, hrest⟩ := hmirrors.top
  obtain ⟨config, hheap⟩ := hmirrors.heap
  have htext : w.heap.text value = m.heap.text other := hheap.text hrel
  simp only [execute]
  rw [bind_apply, pop_pile hstack]
  refine .passes ⟨hip, ρ, { hrest with output := ?_ }⟩
  dsimp only
  rw [hrest.output, heap_cut, htext]
  simp only [String.append_assoc]

/-- The machine that has run a script to its end, with the result of the script and what it printed. -/
def Returned (T : Translation) (value : Value) (w : World) (m : Machine) : Prop :=
  m.output = T.printed ++ w.output ∧
    ∃ ρ config, Heap.Corresponds ρ { w.heap with config } m.heap ∧ Value.Related ρ value m.result

theorem comesOut_return (hmirrors : Mirrors T ρ stack w m) (hrel : Value.Related ρ value other) :
    ComesOut fails (fun last => last.halted = true ∧ Returned T value w last) start (returnFromFrame other m) := by
  obtain ⟨frame, hframes, hbase, hcaller⟩ := hmirrors.frames
  obtain ⟨config, hheap⟩ := hmirrors.heap
  have hback : m.frames.back? = some frame := by
    rw [hframes]
    rfl
  have hsame : (left m frame).heap = m.heap ∧ (left m frame).output = m.output := by
    simp only [left, resizeStack, closeCells_eq, hmirrors.cells]
    exact ⟨rfl, rfl⟩
  rw [returnFromFrame_eq, hback]
  dsimp only
  rw [hcaller]
  refine .passes ⟨rfl, hsame.2.trans hmirrors.output, ρ, config, ?_, hrel⟩
  dsimp only
  rw [hsame.1]
  exact hheap

theorem always_ret (a b : Nat) :
    Always T (value :: stack) w next none (fun last => last.halted = true ∧ Returned T value w last)
      (execute .ret a b) := by
  intro ρ m hmirrors hip
  obtain ⟨script, other, values, hstack, hrel, hrest⟩ := hmirrors.top
  simp only [execute]
  rw [bind_apply, pop_pile hstack]
  exact comesOut_return hrest hrel

theorem always_halt (a b : Nat) :
    Always T stack w next none (fun last => last.halted = true ∧ Returned T .nil w last) (execute .halt a b) := by
  intro ρ m hmirrors hip
  exact comesOut_return hmirrors (Value.related_nil ρ)

end Control

section Matching

theorem comesOut_pushAll {others values : List Value} (hmirrors : Mirrors T ρ stack w m)
    (hrel : List.Forall₂ (Value.Related ρ) values others) {k : Exec Unit} (hchunk : m.chunk = start.chunk)
    (hstart : m.instructionStart = start.instructionStart) (houtput : m.output = start.output)
    (hnext : ∀ after : Machine, Mirrors T ρ (values.reverse ++ stack) w after → after.ip = m.ip →
      after.chunk = start.chunk → after.instructionStart = start.instructionStart → after.output = start.output →
        ComesOut fails goal start (k after)) :
    ComesOut fails goal start ((pushAll others >>= fun _ => k) m) := by
  induction hrel generalizing stack m with
  | nil => exact hnext m hmirrors rfl hchunk hstart houtput
  | @cons value other values others hfirst hrest ih =>
    have hassoc : (pushAll (other :: others) >>= fun _ => k) =
      (push other >>= fun _ => pushAll others >>= fun _ => k) := by
      simp only [pushAll, bind_assoc]
    rw [hassoc]
    refine comesOut_push_bind hchunk hstart houtput ?_
    refine ih (hmirrors.push hfirst) hchunk hstart houtput fun after hafter => hnext after ?_
    simpa using hafter

/-- A value in the frame is matched; what the matcher binds goes on the stack, and then whether it matches. -/
theorem always_matchValue {matcher : Matcher} {a b : Nat} (ha : T.code.chunk.matchers[a]? = some matcher)
    (hb : b = below.length) {bound : Option (List Value)}
    (hbound : ∀ config, Heap.matchValue { w.heap with config } matcher value = bound) :
    Always T (above ++ value :: below) w next none
      (Stands T next ((Prologue.answer bound).reverse ++ (above ++ value :: below)) w) (execute .matchValue a b) := by
  intro ρ m hmirrors hip
  obtain ⟨other, hrel, hslot, -⟩ := hmirrors.slot
  obtain ⟨frame, hframes, hbase, -⟩ := hmirrors.frames
  obtain ⟨config, hheap⟩ := hmirrors.heap
  have hmatch := hheap.matchValue matcher hrel
  rw [hbound config] at hmatch
  rw [← hb] at hslot
  simp only [execute]
  rw [chunk_bind hmirrors, ha, expect_bind, bind_apply, localIndex_eq hframes hbase hslot]
  dsimp only
  rw [bind_apply, readSlot_eq hslot]
  dsimp only
  rw [get_bind_apply]
  generalize m.heap.matchValue matcher other = found at hmatch ⊢
  cases hmatch with
  | none => exact comesOut_push rfl rfl rfl ⟨hip, ρ, hmirrors.push (Value.related_ofBool ρ false)⟩
  | some hvalues =>
    refine comesOut_pushAll hmirrors hvalues rfl rfl rfl fun after hafter hsame hchunk hstart houtput => ?_
    refine comesOut_push hchunk hstart houtput ⟨hsame.trans hip, ρ, ?_⟩
    simpa [Prologue.answer] using hafter.push (Value.related_ofBool ρ true)

end Matching

end Exec

end OwnScript
