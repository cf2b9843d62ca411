import OwnScript.Proofs.Meaning.Simulation

/-!
The code of an expression pushes the value that the evaluation of the expression has, and fails where that fails.
-/

namespace OwnScript

open Stateful Machine

namespace Exec

open Evaluate

variable {T : Translation} {m : Machine} {p q height : Nat} {temps : List Value} {scene : Scene}
    {slots after : FrameSlots}
  {scopes : Scopes} {scope last : FrameScope}

theorem Pushed.since {value : Value} (hlater : slots.Later after) (hpushed : Pushed T q after temps value scene m) :
    Pushed T q slots temps value scene m := by
  obtain ⟨now, hnow, htied⟩ := hpushed
  exact ⟨now, hlater.trans hnow, htied⟩

/-- Values after one that was pushed before them. -/
theorem PushedAll.cons {count : Nat} {value : Value} {values : List Value} (hlater : slots.Later after)
    (hpushed : PushedAll T q after (value :: temps) count values scene m) :
    PushedAll T q slots temps (count + 1) (value :: values) scene m := by
  obtain ⟨rfl, now, hnow, htied⟩ := hpushed
  refine ⟨rfl, now, hlater.trans hnow, ?_⟩
  rwa [List.reverse_cons, List.append_assoc]

theorem throughout_expr {property : Scopes → Naming → Prop} {expr : Expr} {more : List Naming} :
    Throughout property scopes (expr.outline ++ more) ↔
      Throughout property scopes expr.outline ∧ Throughout property scopes more := by
  rw [throughout_append, expr.neutral_outline scopes]

theorem decides_of_plain {op : BinaryOp} (hop : op.isLogical = false) (value : Value) : op.decides value = false := by
  cases op <;> first | rfl | cases hop

theorem size_unary (op : UnaryOp) : op.opcode.size = 1 := by
  cases op <;> rfl

theorem size_binary {op : BinaryOp} (hop : op.isLogical = false) : op.opcode.size = 1 := by
  cases op <;> first | rfl | cases hop

/-- An operator that decides by its left operand jumps over the right one. -/
theorem opcode_of_logical {op : BinaryOp} (hop : op.isLogical = true) :
    ∃ on : Bool, op.opcode = (if on then .jumpIfTrue else .jumpIfFalse) ∧
      (∀ value : Value, op.decides value = true ↔ value.truthy = on) ∧
        ∀ heap left right, op.result heap left right = .ok right := by
  cases op with
  | logicalAnd => exact ⟨false, rfl, fun value => by simp [BinaryOp.decides], fun _ _ _ => rfl⟩
  | logicalOr => exact ⟨true, rfl, fun value => by simp [BinaryOp.decides], fun _ _ _ => rfl⟩
  | _ => cases hop

/-- A new object is entered in the heap. -/
theorem leads_create {object : Object} {offset : Nat} (hlocals : scene.locals = slots.locals)
    (hleads : Leads OutOfRoom (Stands T offset (.ofRef scene.heap.nextRef :: (temps ++ slots.values))
      { scene.toWorld with heap := scene.heap.link object }) m) :
    Follows T (create object scene) (Pushed T offset slots temps) m :=
  hleads.imp fun _ h => Tied.pushed ⟨hlocals, h⟩

/-- Operands on top of the stack give way to the result of an operation. -/
theorem Tied.operate (operands : List Value) {result : Except ErrorKind Value} {op : Opcode} {a b : Nat}
    {place : Location} {offset : Nat} {above : Option Nat} (htied : Tied T offset after (operands ++ temps) scene m)
    (hlater : slots.Later after) (hhas : T.code.Has offset above op a b place) (hsize : offset + op.size = q)
    (hanswers : Answers T (operands ++ (temps ++ after.values)) scene.toWorld q result
      (fun value => Stands T q (value :: (temps ++ after.values)) scene.toWorld) (execute op a b)) :
    Follows T (orFail place result scene) (Pushed T q slots temps) m := by
  subst hsize
  rw [← List.append_assoc] at hanswers
  refine (htied.answers hhas hanswers).mono fun value last machine h => ?_
  obtain ⟨rfl, h⟩ := h
  exact ⟨after, hlater, htied.locals, h⟩

mutual

theorem follows_expr (expr : Expr) {p q height : Nat} {temps : List Value} {scene : Scene} {slots : FrameSlots}
    {scope last : FrameScope} {m : Machine} (hcode : ExprCode T.table T.code height scope p expr last q)
    (hfits : Throughout (Scopes.Fits T.nameOf) scopes expr.outline) (hsituated : Situated T.nameOf scopes slots scope)
    (htied : Tied T p slots temps scene m) : Follows T (expr.evaluate scene) (Pushed T q slots temps) m := by
  cases expr with
  | absent | call | lambda => trivial
  | literal location literal =>
    cases hcode with
    | literal hhas hloads =>
      cases literal with
      | scalar scalar =>
        exact (leads_always hhas htied.stands (always_load hloads)).imp fun after h => Tied.pushed ⟨htied.locals, h⟩
      | text text =>
        cases hloads with
        | text htext => exact leads_create htied.locals (leads_always hhas htied.stands (always_string htext 0))
  | name identifier =>
    cases hcode with
    | name hhas haccesses => exact follows_read htied hsituated hfits.1 haccesses hhas
  | unary location op operand =>
    cases hcode with
    | unary hoperand hhas =>
      rw [Expr.evaluate]
      refine (follows_expr operand hoperand hfits hsituated htied).bind fun value now machine hpushed => ?_
      obtain ⟨held, hlater, htied⟩ := hpushed
      exact Tied.operate [value] htied hlater hhas (by rw [size_unary]) (answers_unaryOp op)
  | binary location op left right =>
    obtain ⟨hfirst, hsecond⟩ := throughout_expr.mp hfits
    rw [Expr.evaluate]
    cases hcode with
    | binary hplain hleft hright hhas =>
      refine (follows_expr left hleft hfirst hsituated htied).bind fun first now machine hpushed => ?_
      obtain ⟨held, hlater, htied⟩ := hpushed
      rw [decides_of_plain hplain, if_neg Bool.false_ne_true]
      have hsituated := (hsituated.change hlater).later hleft.later
      refine (follows_expr right hright hsecond hsituated htied).bind fun second now machine hpushed => ?_
      obtain ⟨kept, hkept, htied⟩ := hpushed
      exact Tied.operate [second, first] htied (hlater.trans hkept) hhas (by rw [size_binary hplain])
        (answers_binaryOp hplain)
    | logical hlogical hleft hjumps hpop hright =>
      obtain ⟨on, hop, hdecides, hresult⟩ := opcode_of_logical hlogical
      refine (follows_expr left hleft hfirst hsituated htied).bind fun first now machine hpushed => ?_
      obtain ⟨held, hlater, htied⟩ := hpushed
      refine (leads_jumpIf on hop hjumps htied.stands).follows fun machine hstands => ?_
      by_cases htruthy : first.truthy = on
      · rw [if_pos htruthy] at hstands
        rw [if_pos ((hdecides first).mpr htruthy)]
        exact follows_pure ⟨held, hlater, htied.locals, hstands⟩
      · rw [if_neg htruthy] at hstands
        rw [if_neg fun h => htruthy ((hdecides first).mp h)]
        refine (leads_pop hpop hstands).follows fun machine hstands => ?_
        have hsituated := (hsituated.change hlater).later hleft.later
        refine (follows_expr right hright hsecond hsituated ⟨htied.locals, hstands⟩).bind fun second now machine h => ?_
        change Follows T (orFail location (op.result now.heap first second) now) _ machine
        rw [hresult]
        exact follows_pure (h.since hlater)
  | field location object name =>
    cases hcode with
    | field hobject hhas hname =>
      rw [Expr.evaluate]
      refine (follows_expr object hobject hfits hsituated htied).bind fun value now machine hpushed => ?_
      obtain ⟨held, hlater, htied⟩ := hpushed
      exact Tied.operate [value] htied hlater hhas rfl (answers_getField hname 0)
  | index location object index =>
    cases hcode with
    | index hobject hindex hhas =>
      obtain ⟨hfirst, hsecond⟩ := throughout_expr.mp hfits
      rw [Expr.evaluate]
      refine (follows_expr object hobject hfirst hsituated htied).bind fun value now machine hpushed => ?_
      obtain ⟨held, hlater, htied⟩ := hpushed
      have hsituated := (hsituated.change hlater).later hobject.later
      refine (follows_expr index hindex hsecond hsituated htied).bind fun place now machine hpushed => ?_
      obtain ⟨kept, hkept, htied⟩ := hpushed
      exact Tied.operate [place, value] htied (hlater.trans hkept) hhas rfl (answers_getIndex 0 0)
  | record location fields =>
    cases hcode with
    | record hfields hhas hnames =>
      rw [Expr.evaluate]
      refine (follows_fields fields hfields hfits hsituated htied).bind fun values now machine hpushed => ?_
      obtain ⟨hcount, held, hlater, htied⟩ := hpushed
      refine Follows.mono ?_ fun value now machine h => Pushed.since hlater h
      have hstands := htied.stands
      rw [List.append_assoc] at hstands
      exact leads_create htied.locals (leads_always hhas hstands (always_record hnames 0 (by simpa using hcount)))
  | array location items =>
    cases hcode with
    | array hitems hhas =>
      rw [Expr.evaluate]
      refine (follows_exprs items hitems hfits hsituated htied).bind fun values now machine hpushed => ?_
      obtain ⟨hcount, held, hlater, htied⟩ := hpushed
      refine Follows.mono ?_ fun value now machine h => Pushed.since hlater h
      have hstands := htied.stands
      rw [List.append_assoc] at hstands
      exact leads_create htied.locals (leads_always hhas hstands (always_array hcount 0))
  | borrow location target exclusive =>
    cases hcode with
    | borrow htarget => exact follows_expr target htarget hfits hsituated htied
  | move location target =>
    cases target with
    | none => trivial
    | some identifier =>
      cases hcode with
      | move hhas haccesses => exact follows_take htied hsituated hfits.1 haccesses hhas
  | deref location operand =>
    cases hcode with
    | deref hoperand => exact follows_expr operand hoperand hfits hsituated htied
termination_by structural expr

theorem follows_exprs (exprs : List Expr) {p q height : Nat} {temps : List Value} {scene : Scene} {slots : FrameSlots}
    {scope last : FrameScope} {m : Machine} (hcode : ExprsCode T.table T.code height scope p exprs last q)
    (hfits : Throughout (Scopes.Fits T.nameOf) scopes (Expr.outlines exprs))
    (hsituated : Situated T.nameOf scopes slots scope) (htied : Tied T p slots temps scene m) :
    Follows T (Expr.evaluateAll exprs scene) (PushedAll T q slots temps exprs.length) m := by
  cases exprs with
  | nil =>
    cases hcode
    exact follows_pure ⟨rfl, slots, .refl slots, htied⟩
  | cons expr rest =>
    cases hcode with
    | cons hexpr hrest =>
      obtain ⟨hfirst, hothers⟩ := throughout_expr.mp hfits
      rw [Expr.evaluateAll]
      refine (follows_expr expr hexpr hfirst hsituated htied).bind fun value now machine hpushed => ?_
      obtain ⟨held, hlater, htied⟩ := hpushed
      have hsituated := (hsituated.change hlater).later hexpr.later
      refine (follows_exprs rest hrest hothers hsituated htied).bind fun values now machine h => ?_
      exact follows_pure (h.cons hlater)
termination_by structural exprs

theorem follows_fields (fields : List (String × Expr)) {p q height : Nat} {temps : List Value} {scene : Scene}
    {slots : FrameSlots} {scope last : FrameScope} {m : Machine}
    (hcode : FieldsCode T.table T.code height scope p fields last q)
    (hfits : Throughout (Scopes.Fits T.nameOf) scopes (Expr.fieldOutlines fields))
    (hsituated : Situated T.nameOf scopes slots scope) (htied : Tied T p slots temps scene m) :
    Follows T (Expr.evaluateFields fields scene) (PushedAll T q slots temps fields.length) m := by
  cases fields with
  | nil =>
    cases hcode
    exact follows_pure ⟨rfl, slots, .refl slots, htied⟩
  | cons field rest =>
    obtain ⟨name, value⟩ := field
    cases hcode with
    | cons hvalue hrest =>
      obtain ⟨hfirst, hothers⟩ := throughout_expr.mp hfits
      rw [Expr.evaluateFields]
      refine (follows_expr value hvalue hfirst hsituated htied).bind fun first now machine hpushed => ?_
      obtain ⟨held, hlater, htied⟩ := hpushed
      have hsituated := (hsituated.change hlater).later hvalue.later
      refine (follows_fields rest hrest hothers hsituated htied).bind fun values now machine h => ?_
      exact follows_pure (h.cons hlater)
termination_by structural fields

end

/-- A condition. The branch that is taken drops it first. -/
theorem follows_condition {α : Type} {condition : Expr} {yes no : Evaluate α} {goal : α → Scene → Machine → Prop}
    {place : Location} {above full less : Option Nat} {target : Nat}
    (hcode : ExprCode T.table T.code height scope p condition last q)
    (hfits : Throughout (Scopes.Fits T.nameOf) scopes condition.outline)
    (hsituated : Situated T.nameOf scopes slots scope)
    (htied : Tied T p slots temps scene m) (hjumps : T.code.Jumps q above .jumpIfFalse place target)
    (hpop : T.code.Has (q + 3) full .pop 0 0 place) (hmiss : T.code.Has target less .pop 0 0 place)
    (hyes : ∀ after now machine, slots.Later after → Tied T (q + 4) after temps now machine →
      Follows T (yes now) goal machine)
    (hno : ∀ after now machine, slots.Later after → Tied T (target + 1) after temps now machine →
      Follows T (no now) goal machine) :
    Follows T ((condition.evaluate >>= fun value => if value.truthy then yes else no) scene) goal m := by
  refine (follows_expr condition hcode hfits hsituated htied).bind fun value now machine hpushed => ?_
  obtain ⟨after, hlater, htied⟩ := hpushed
  refine (htied.jumpIfFalse hjumps).follows fun machine htied => ?_
  cases htruthy : value.truthy with
  | true =>
    rw [htruthy, if_pos rfl] at htied
    rw [if_pos rfl]
    exact (htied.pop hpop).follows fun machine htied => hyes after now machine hlater htied
  | false =>
    rw [htruthy, if_neg Bool.false_ne_true] at htied
    rw [if_neg Bool.false_ne_true]
    exact (htied.pop hmiss).follows fun machine htied => hno after now machine hlater htied

end Exec

end OwnScript
