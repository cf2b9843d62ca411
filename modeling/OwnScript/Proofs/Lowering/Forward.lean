import OwnScript.Proofs.Lowering.Layout

/-!
Code goes forward. The code of a construct ends at or behind the offset where it starts, whatever jumps there are
in it.
-/

namespace OwnScript

variable {tracked : Prop} {globals : GlobalTable} {F : Listing tracked}

/-- Every variable is dropped by one operation. -/
theorem DropCode.eq_add {location : Location} {outside p q : Nat} {dropped : FrameScope}
    (hcode : DropCode F location outside dropped p q) : q = p + dropped.length := by
  induction hcode with
  | nil => rfl
  | cons _ _ ih =>
    rw [ih, List.length_cons]
    omega

theorem DropCode.le {location : Location} {outside p q : Nat} {dropped : FrameScope}
    (hcode : DropCode F location outside dropped p q) : p ≤ q :=
  hcode.eq_add ▸ Nat.le_add_right ..

mutual

theorem ExprCode.le (expr : Expr) {height p q : Nat} {scope after : FrameScope}
    (hcode : ExprCode globals F height scope p expr after q) : p ≤ q := by
  cases expr with
  | absent =>
    cases hcode
    exact le_rfl
  | literal =>
    cases hcode
    exact Nat.le_add_right ..
  | name =>
    cases hcode
    exact Nat.le_add_right ..
  | unary _ _ operand =>
    cases hcode with
    | unary hoperand => exact (ExprCode.le operand hoperand).trans (Nat.le_add_right ..)
  | binary _ _ left right =>
    cases hcode with
    | binary _ hleft hright =>
      have hfirst := ExprCode.le left hleft
      have hsecond := ExprCode.le right hright
      omega
    | logical _ hleft _ _ hright =>
      have hfirst := ExprCode.le left hleft
      have hsecond := ExprCode.le right hright
      omega
  | call _ callee arguments =>
    cases hcode with
    | call hcallee harguments =>
      have hfirst := ExprCode.le callee hcallee
      have hsecond := ExprsCode.le arguments harguments
      omega
  | field _ object =>
    cases hcode with
    | field hobject => exact (ExprCode.le object hobject).trans (Nat.le_add_right ..)
  | index _ object index =>
    cases hcode with
    | index hobject hindex =>
      have hfirst := ExprCode.le object hobject
      have hsecond := ExprCode.le index hindex
      omega
  | record _ fields =>
    cases hcode with
    | record hfields => exact (FieldsCode.le fields hfields).trans (Nat.le_add_right ..)
  | array _ items =>
    cases hcode with
    | array hitems => exact (ExprsCode.le items hitems).trans (Nat.le_add_right ..)
  | lambda =>
    cases hcode
    exact Nat.le_add_right ..
  | borrow _ target =>
    cases hcode with
    | borrow htarget => exact ExprCode.le target htarget
  | move =>
    cases hcode
    exact Nat.le_add_right ..
  | deref _ operand =>
    cases hcode with
    | deref hoperand => exact ExprCode.le operand hoperand
termination_by structural expr

theorem ExprsCode.le (exprs : List Expr) {height p q : Nat} {scope after : FrameScope}
    (hcode : ExprsCode globals F height scope p exprs after q) : p ≤ q := by
  cases exprs with
  | nil =>
    cases hcode
    exact le_rfl
  | cons expr rest =>
    cases hcode with
    | cons hfirst hrest => exact (ExprCode.le expr hfirst).trans (ExprsCode.le rest hrest)
termination_by structural exprs

theorem FieldsCode.le (fields : List (String × Expr)) {height p q : Nat} {scope after : FrameScope}
    (hcode : FieldsCode globals F height scope p fields after q) : p ≤ q := by
  cases fields with
  | nil =>
    cases hcode
    exact le_rfl
  | cons field rest =>
    obtain ⟨name, value⟩ := field
    cases hcode with
    | cons hfirst hrest => exact (ExprCode.le value hfirst).trans (FieldsCode.le rest hrest)
termination_by structural fields

end

mutual

theorem StmtCode.le (stmt : Stmt) {loop : Option LoopPlan} {scope after : FrameScope} {p q : Nat}
    (hcode : StmtCode globals F loop scope p stmt after q) : p ≤ q := by
  cases stmt with
  | absent =>
    cases hcode
    exact le_rfl
  | declare =>
    cases hcode with
    | declareUndefined => exact le_rfl
    | declareGlobal _ _ _ hinitial => exact (ExprCode.le _ hinitial).trans (Nat.le_add_right ..)
    | declareEmpty => exact Nat.le_add_right ..
    | declareLocal _ hinitial => exact ExprCode.le _ hinitial
  | assign =>
    cases hcode with
    | assign hvalue => exact (ExprCode.le _ hvalue).trans (Nat.le_add_right ..)
  | assignField =>
    cases hcode with
    | assignField hobject hvalue =>
      have hfirst := ExprCode.le _ hobject
      have hsecond := ExprCode.le _ hvalue
      omega
  | assignIndex =>
    cases hcode with
    | assignIndex hobject hindex hvalue =>
      have hfirst := ExprCode.le _ hobject
      have hsecond := ExprCode.le _ hindex
      have hthird := ExprCode.le _ hvalue
      omega
  | evaluate =>
    cases hcode with
    | evaluate hexpression => exact (ExprCode.le _ hexpression).trans (Nat.le_add_right ..)
  | print =>
    cases hcode with
    | print hexpression => exact (ExprCode.le _ hexpression).trans (Nat.le_add_right ..)
  | block _ body =>
    cases hcode with
    | block hbody _ hdrop => exact (StmtsCode.le body hbody).trans hdrop.le
  | ifElse _ condition yes no =>
    cases hcode with
    | ifElse hcondition _ _ _ hyes _ _ _ _ hno =>
      have hfirst := ExprCode.le _ hcondition
      have hsecond := StmtCode.le yes hyes
      have hthird := StmtCode.le no hno
      omega
  | cond _ scrutinee arms =>
    cases hcode with
    | condGuards harms => exact GuardedCode.le arms harms
    | condPatterns _ hscrutinee harms _ hdrop =>
      have hfirst := ExprCode.le _ hscrutinee
      have hsecond := PatternedCode.le arms harms
      have hthird := hdrop.le
      omega
  | whileLoop _ condition body =>
    cases hcode with
    | whileLoop hcondition _ _ _ hbody _ hdrop =>
      have hfirst := ExprCode.le _ hcondition
      have hsecond := StmtCode.le body hbody
      have hthird := hdrop.le
      omega
  | forLoop _ _ _ start bound body =>
    cases hcode with
    | forLoop hstart hbound _ _ _ _ _ _ _ hbody _ _ hdrop _ _ _ _ _ _ _ _ hhidden =>
      have hfirst := ExprCode.le _ hstart
      have hsecond := ExprCode.le _ hbound
      have hthird := StmtCode.le body hbody
      have hfourth := hdrop.le
      have hfifth := hhidden.le
      omega
  | forever _ body =>
    cases hcode with
    | forever _ hbody _ hdrop =>
      have hfirst := StmtCode.le body hbody
      have hsecond := hdrop.le
      omega
  | leave =>
    cases hcode with
    | leave _ hdrop => exact hdrop.le.trans (Nat.le_add_right ..)
  | skip =>
    cases hcode with
    | skip _ hdrop => exact hdrop.le.trans (Nat.le_add_right ..)
  | giveBack =>
    cases hcode with
    | giveBackNil => exact Nat.le_add_right ..
    | giveBack hvalue => exact (ExprCode.le _ hvalue).trans (Nat.le_add_right ..)
  | disown =>
    cases hcode
    exact Nat.le_add_right ..
  | function =>
    cases hcode with
    | functionGlobal => exact le_rfl
    | functionLocal => exact Nat.le_add_right ..
termination_by structural stmt

theorem StmtsCode.le (stmts : List Stmt) {loop : Option LoopPlan} {scope after : FrameScope} {p q : Nat}
    (hcode : StmtsCode globals F loop scope p stmts after q) : p ≤ q := by
  cases stmts with
  | nil =>
    cases hcode
    exact le_rfl
  | cons stmt rest =>
    cases hcode with
    | cons _ hstmt hrest => exact (StmtCode.le stmt hstmt).trans (StmtsCode.le rest hrest)
termination_by structural stmts

theorem GuardedCode.le (arms : List Arm) {loop : Option LoopPlan} {location : Location} {scope after : FrameScope}
    {p q : Nat} (hcode : GuardedCode globals F loop location scope p arms after q) : p ≤ q := by
  cases arms with
  | nil =>
    cases hcode
    exact Nat.le_add_right ..
  | cons arm rest =>
    obtain ⟨place, pattern, guard, body⟩ := arm
    cases hcode with
    | last hbody _ hdrop =>
      have hfirst := StmtsCode.le body hbody
      have hsecond := hdrop.le
      omega
    | cons _ hguard _ _ hbody _ hdrop _ _ hrest =>
      have hfirst := ExprCode.le _ hguard
      have hsecond := StmtsCode.le body hbody
      have hthird := hdrop.le
      have hfourth := GuardedCode.le rest hrest
      omega
termination_by structural arms

theorem PatternedCode.le (arms : List Arm) {loop : Option LoopPlan} {location : Location} {subject : Nat}
    {scope after : FrameScope} {p q : Nat}
    (hcode : PatternedCode globals F loop location subject scope p arms after q) : p ≤ q := by
  cases arms with
  | nil =>
    cases hcode
    exact Nat.le_add_right ..
  | cons arm rest =>
    obtain ⟨place, pattern, guard, body⟩ := arm
    have hplain {s t : Nat} {middle : FrameScope}
        (harm : PlainArmCode globals F loop place subject scope p pattern body middle s t) : p ≤ s := by
      cases harm with
      | intro _ _ _ _ _ hbody _ hdrop =>
        have hfirst := StmtsCode.le body hbody
        have hsecond := hdrop.le
        omega
    cases hcode with
    | last _ harm => exact hplain harm
    | plain _ harm hrest => exact (hplain harm).trans (PatternedCode.le rest hrest)
    | guarded _ harm hrest =>
      have hlater := PatternedCode.le rest hrest
      cases harm with
      | intro _ _ _ _ _ hguard _ _ hbody _ _ hdrop _ _ hundo =>
        have hfirst := ExprCode.le _ hguard
        have hsecond := StmtsCode.le body hbody
        have hthird := hdrop.le
        have hfourth := hundo.le
        omega
termination_by structural arms

end

end OwnScript
