import OwnScript.Proofs.Lowering.Layout

/-!
What all rules of the layout have in common: the code of an expression starts with an instruction in
front of which the frame holds what it held before, and generating code never takes back that a variable
was captured.
-/

namespace OwnScript

theorem FrameScope.Later.refl (scope : FrameScope) : scope.Later scope :=
  List.forall₂_same.mpr fun _ _ => ⟨rfl, id, fun _ => rfl⟩

theorem FrameScope.Later.trans {first second third : FrameScope} (hfirst : first.Later second)
    (hsecond : second.Later third) : first.Later third := by
  induction hfirst generalizing third with
  | nil => exact hsecond
  | cons hvar _ ih =>
    cases hsecond with
    | cons hnext hrest =>
      exact .cons ⟨hnext.binding.trans hvar.binding, fun h => hnext.captured (hvar.captured h),
        fun h => (hnext.unnamed (hvar.binding.trans h)).trans (hvar.unnamed h)⟩ (ih hrest)

theorem FrameScope.Later.length_eq {before after : FrameScope} (hlater : before.Later after) :
    after.length = before.length :=
  (List.Forall₂.length_eq hlater).symm

theorem FrameScope.Later.split {declared kept after : FrameScope} (hlater : FrameScope.Later (declared ++ kept) after) :
    ∃ first second : FrameScope, after = first ++ second ∧ declared.Later first ∧ kept.Later second := by
  induction declared generalizing after with
  | nil => exact ⟨[], after, rfl, .nil, hlater⟩
  | cons var rest ih =>
    cases hlater with
    | cons hvar hrest =>
      obtain ⟨first, second, rfl, hfirst, hsecond⟩ := ih hrest
      exact ⟨_ :: first, second, rfl, .cons hvar hfirst, hsecond⟩

theorem FrameScope.Held.lt {scope : FrameScope} {slot : Nat} (hheld : scope.Held slot) : slot < scope.length := by
  induction scope with
  | nil => exact hheld.elim
  | cons var rest ih =>
    rcases hheld with ⟨rfl, -⟩ | hrest
    · exact Nat.lt_succ_self _
    · exact (ih hrest).trans (Nat.lt_succ_self _)

theorem FrameScope.Held.later {before after : FrameScope} (hlater : before.Later after) {slot : Nat}
    (hheld : before.Held slot) : after.Held slot := by
  induction hlater with
  | nil => exact hheld
  | cons hvar hrest ih =>
    rcases hheld with ⟨rfl, hcaptured⟩ | hold
    · exact .inl ⟨(FrameScope.Later.length_eq hrest).symm, hvar.captured hcaptured⟩
    · exact .inr (ih hold)

theorem FrameScope.held_append {inner outer : FrameScope} {slot : Nat} (hlow : slot < outer.length) :
    FrameScope.Held (inner ++ outer) slot ↔ outer.Held slot := by
  induction inner with
  | nil => rfl
  | cons var rest ih =>
    refine ⟨fun hheld => ?_, fun hheld => .inr (ih.mpr hheld)⟩
    rcases hheld with ⟨rfl, -⟩ | hrest
    · change (rest ++ outer).length < outer.length at hlow
      rw [List.length_append] at hlow
      omega
    · exact ih.mp hrest

/-- The variables of a scope later on, when others may have been declared inside. -/
def FrameScope.Grows (before after : FrameScope) : Prop :=
  ∃ declared kept : FrameScope, after = declared ++ kept ∧ before.Later kept

theorem FrameScope.Later.grows {before after : FrameScope} (hlater : before.Later after) : before.Grows after :=
  ⟨[], after, rfl, hlater⟩

theorem FrameScope.Grows.trans {first second third : FrameScope} (hfirst : first.Grows second)
    (hsecond : second.Grows third) : first.Grows third := by
  obtain ⟨declared, kept, rfl, hkept⟩ := hfirst
  obtain ⟨declared', kept', rfl, hkept'⟩ := hsecond
  obtain ⟨middle, last, rfl, -, hlast⟩ := hkept'.split
  exact ⟨declared' ++ middle, last, (List.append_assoc ..).symm, hkept.trans hlast⟩

theorem FrameScope.Grows.declare {before after : FrameScope} (hgrows : before.Grows after) (var : FrameVar) :
    before.Grows (var :: after) := by
  obtain ⟨declared, kept, rfl, hkept⟩ := hgrows
  exact ⟨var :: declared, kept, rfl, hkept⟩

theorem FrameScope.Grows.of_cons {before after : FrameScope} {var : FrameVar}
    (hgrows : FrameScope.Grows (var :: before) after) :
    before.Grows after := by
  obtain ⟨declared, kept, rfl, hkept⟩ := hgrows
  cases hkept with
  | @cons _ first _ rest _ hrest => exact ⟨declared ++ [first], rest, by simp, hrest⟩

theorem FrameScope.Grows.length_le {before after : FrameScope} (hgrows : before.Grows after) :
    before.length ≤ after.length := by
  obtain ⟨declared, kept, rfl, hkept⟩ := hgrows
  rw [List.length_append, hkept.length_eq]
  exact Nat.le_add_left ..

/-- Only the variables declared inside are dropped. -/
theorem FrameScope.Grows.dropped {before dropped after : FrameScope} (hgrows : before.Grows (dropped ++ after))
    (hlength : after.length = before.length) : before.Later after := by
  obtain ⟨declared, kept, heq, hkept⟩ := hgrows
  obtain ⟨-, rfl⟩ := List.append_inj' heq (hlength.trans hkept.length_eq.symm)
  exact hkept

theorem FrameScope.Grows.later {before after : FrameScope} (hgrows : before.Grows after)
    (hlength : after.length = before.length) : before.Later after :=
  FrameScope.Grows.dropped (show before.Grows ([] ++ after) from hgrows) hlength

theorem FrameScope.Held.grows {before after : FrameScope} (hgrows : before.Grows after) {slot : Nat}
    (hheld : before.Held slot) : after.Held slot := by
  obtain ⟨declared, kept, rfl, hkept⟩ := hgrows
  have hlow := hheld.lt
  rw [← hkept.length_eq] at hlow
  exact (FrameScope.held_append hlow).mpr (hheld.later hkept)

variable {tracked : Prop}

/-- In front of code that drops variables the frame holds them above those outside. -/
theorem DropCode.holds {F : Listing tracked} {location : Location} {outside p q : Nat} {dropped : FrameScope}
    (hcode : DropCode F location outside dropped p q) (hend : F.Holds q outside) :
    F.Holds p (outside + dropped.length) := by
  cases hcode with
  | nil => exact hend
  | cons hhas => exact hhas.height

variable {globals : GlobalTable}

mutual

theorem ExprCode.holds (expr : Expr) {F : Listing tracked} {height p q : Nat} {scope after : FrameScope}
    (hcode : ExprCode globals F height scope p expr after q) : F.Holds p height := by
  cases expr with
  | absent =>
    cases hcode with
    | absent huntracked => exact fun htracked => absurd htracked huntracked
  | literal =>
    cases hcode with
    | literal hhas => exact hhas.height
  | name =>
    cases hcode with
    | name hhas => exact hhas.height
  | unary =>
    cases hcode with
    | unary hoperand => exact ExprCode.holds _ hoperand
  | binary =>
    cases hcode with
    | binary _ hleft => exact ExprCode.holds _ hleft
    | logical _ hleft => exact ExprCode.holds _ hleft
  | call =>
    cases hcode with
    | call hcallee => exact ExprCode.holds _ hcallee
  | field =>
    cases hcode with
    | field hobject => exact ExprCode.holds _ hobject
  | index =>
    cases hcode with
    | index hobject => exact ExprCode.holds _ hobject
  | record =>
    cases hcode with
    | record hfields hhas => exact FieldsCode.holds _ hfields hhas.height
  | array =>
    cases hcode with
    | array hitems hhas => exact ExprsCode.holds _ hitems hhas.height
  | lambda =>
    cases hcode with
    | lambda hclosure =>
      cases hclosure with
      | intro hhas => exact hhas.height
  | borrow =>
    cases hcode with
    | borrow htarget => exact ExprCode.holds _ htarget
  | move =>
    cases hcode with
    | move hhas => exact hhas.height
  | deref =>
    cases hcode with
    | deref hoperand => exact ExprCode.holds _ hoperand
termination_by structural expr

theorem ExprsCode.holds (exprs : List Expr) {F : Listing tracked} {height p q : Nat} {scope after : FrameScope}
    (hcode : ExprsCode globals F height scope p exprs after q)
    (hend : F.Holds q (height + exprs.length)) : F.Holds p height := by
  cases exprs with
  | nil =>
    cases hcode with
    | nil => exact hend
  | cons =>
    cases hcode with
    | cons hfirst => exact ExprCode.holds _ hfirst
termination_by structural exprs

theorem FieldsCode.holds (fields : List (String × Expr)) {F : Listing tracked} {height p q : Nat}
    {scope after : FrameScope} (hcode : FieldsCode globals F height scope p fields after q)
    (hend : F.Holds q (height + fields.length)) : F.Holds p height := by
  cases fields with
  | nil =>
    cases hcode with
    | nil => exact hend
  | cons field rest =>
    obtain ⟨name, value⟩ := field
    cases hcode with
    | cons hfirst => exact ExprCode.holds value hfirst
termination_by structural fields

end

mutual

theorem ExprCode.later (expr : Expr) {F : Listing tracked} {height p q : Nat} {scope after : FrameScope}
    (hcode : ExprCode globals F height scope p expr after q) : scope.Later after := by
  cases expr with
  | absent =>
    cases hcode
    exact .refl _
  | literal =>
    cases hcode
    exact .refl _
  | name =>
    cases hcode
    exact .refl _
  | unary =>
    cases hcode with
    | unary hoperand => exact ExprCode.later _ hoperand
  | binary =>
    cases hcode with
    | binary _ hleft hright => exact (ExprCode.later _ hleft).trans (ExprCode.later _ hright)
    | logical _ hleft _ _ hright => exact (ExprCode.later _ hleft).trans (ExprCode.later _ hright)
  | call =>
    cases hcode with
    | call hcallee harguments => exact (ExprCode.later _ hcallee).trans (ExprsCode.later _ harguments)
  | field =>
    cases hcode with
    | field hobject => exact ExprCode.later _ hobject
  | index =>
    cases hcode with
    | index hobject hindex => exact (ExprCode.later _ hobject).trans (ExprCode.later _ hindex)
  | record =>
    cases hcode with
    | record hfields => exact FieldsCode.later _ hfields
  | array =>
    cases hcode with
    | array hitems => exact ExprsCode.later _ hitems
  | lambda =>
    cases hcode with
    | lambda hclosure =>
      cases hclosure with
      | intro _ _ _ hlater => exact hlater
  | borrow =>
    cases hcode with
    | borrow htarget => exact ExprCode.later _ htarget
  | move =>
    cases hcode
    exact .refl _
  | deref =>
    cases hcode with
    | deref hoperand => exact ExprCode.later _ hoperand
termination_by structural expr

theorem ExprsCode.later (exprs : List Expr) {F : Listing tracked} {height p q : Nat} {scope after : FrameScope}
    (hcode : ExprsCode globals F height scope p exprs after q) : scope.Later after := by
  cases exprs with
  | nil =>
    cases hcode
    exact .refl _
  | cons =>
    cases hcode with
    | cons hfirst hrest => exact (ExprCode.later _ hfirst).trans (ExprsCode.later _ hrest)
termination_by structural exprs

theorem FieldsCode.later (fields : List (String × Expr)) {F : Listing tracked} {height p q : Nat}
    {scope after : FrameScope} (hcode : FieldsCode globals F height scope p fields after q) :
    scope.Later after := by
  cases fields with
  | nil =>
    cases hcode
    exact .refl _
  | cons field rest =>
    obtain ⟨name, value⟩ := field
    cases hcode with
    | cons hfirst hrest => exact (ExprCode.later value hfirst).trans (FieldsCode.later rest hrest)
termination_by structural fields

end

mutual

theorem StmtCode.grows (stmt : Stmt) {F : Listing tracked} {loop : Option LoopPlan} {p q : Nat}
    {scope after : FrameScope} (hcode : StmtCode globals F loop scope p stmt after q) : scope.Grows after := by
  cases stmt with
  | absent =>
    cases hcode
    exact (FrameScope.Later.refl _).grows
  | declare =>
    cases hcode with
    | declareUndefined => exact (FrameScope.Later.refl _).grows
    | declareGlobal _ _ _ hinitial => exact hinitial.later.grows
    | declareEmpty => exact (FrameScope.Later.refl _).grows.declare _
    | declareLocal _ hinitial => exact hinitial.later.grows.declare _
  | assign =>
    cases hcode with
    | assign hvalue => exact hvalue.later.grows
  | assignField =>
    cases hcode with
    | assignField hobject hvalue => exact (hobject.later.trans hvalue.later).grows
  | assignIndex =>
    cases hcode with
    | assignIndex hobject hindex hvalue =>
      exact ((hobject.later.trans hindex.later).trans hvalue.later).grows
  | evaluate =>
    cases hcode with
    | evaluate hexpression => exact hexpression.later.grows
  | print =>
    cases hcode with
    | print hexpression => exact hexpression.later.grows
  | block =>
    cases hcode with
    | block hbody hlength => exact ((StmtsCode.grows _ hbody).dropped hlength).grows
  | ifElse =>
    cases hcode with
    | ifElse hcondition _ _ _ hyes _ _ _ _ hno =>
      exact (hcondition.later.grows.trans (StmtCode.grows _ hyes)).trans (StmtCode.grows _ hno)
  | cond =>
    cases hcode with
    | condGuards harms => exact (GuardedCode.later _ harms).grows
    | condPatterns _ hscrutinee harms =>
      have harms := PatternedCode.later _ harms
      cases harms with
      | cons _ hrest => exact (hscrutinee.later.trans hrest).grows
  | whileLoop =>
    cases hcode with
    | whileLoop hcondition _ _ _ hbody hlength =>
      exact ((hcondition.later.grows.trans (StmtCode.grows _ hbody)).dropped hlength).grows
  | forLoop =>
    cases hcode with
    | forLoop hfirst hbound _ _ _ _ _ _ _ hbody _ hlength =>
      have hsecond := hbound.later
      cases hsecond with
      | cons _ hsecond =>
        have hinside := (StmtCode.grows _ hbody).of_cons.of_cons.of_cons
        rw [← List.append_assoc] at hinside
        exact (((hfirst.later.trans hsecond).grows.trans hinside).dropped hlength).grows
  | forever =>
    cases hcode with
    | forever _ hbody hlength => exact ((StmtCode.grows _ hbody).dropped hlength).grows
  | leave =>
    cases hcode
    exact (FrameScope.Later.refl _).grows
  | skip =>
    cases hcode
    exact (FrameScope.Later.refl _).grows
  | giveBack =>
    cases hcode with
    | giveBackNil => exact (FrameScope.Later.refl _).grows
    | giveBack hvalue => exact hvalue.later.grows
  | disown =>
    cases hcode
    exact (FrameScope.Later.refl _).grows
  | function =>
    cases hcode with
    | functionGlobal => exact (FrameScope.Later.refl _).grows
    | functionLocal _ hclosure =>
      cases hclosure with
      | intro _ _ _ hlater => exact hlater.grows.of_cons
termination_by structural stmt

theorem StmtsCode.grows (stmts : List Stmt) {F : Listing tracked} {loop : Option LoopPlan} {p q : Nat}
    {scope after : FrameScope} (hcode : StmtsCode globals F loop scope p stmts after q) : scope.Grows after := by
  cases stmts with
  | nil =>
    cases hcode
    exact (FrameScope.Later.refl _).grows
  | cons =>
    cases hcode with
    | cons _ hfirst hrest => exact (StmtCode.grows _ hfirst).trans (StmtsCode.grows _ hrest)
termination_by structural stmts

theorem GuardedCode.later (arms : List Arm) {F : Listing tracked} {loop : Option LoopPlan} {location : Location}
    {p q : Nat} {scope after : FrameScope} (hcode : GuardedCode globals F loop location scope p arms after q) :
    scope.Later after := by
  cases arms with
  | nil =>
    cases hcode
    exact .refl _
  | cons arm rest =>
    obtain ⟨place, pattern, guard, body⟩ := arm
    cases hcode with
    | last hbody hlength => exact (StmtsCode.grows body hbody).dropped hlength
    | cons _ hguard _ _ hbody hlength _ _ _ hrest =>
      exact ((hguard.later.grows.trans (StmtsCode.grows body hbody)).dropped hlength).trans
        (GuardedCode.later rest hrest)
termination_by structural arms

theorem PatternedCode.later (arms : List Arm) {F : Listing tracked} {loop : Option LoopPlan} {location : Location}
    {slot p q : Nat} {scope after : FrameScope}
    (hcode : PatternedCode globals F loop location slot scope p arms after q) : scope.Later after := by
  cases arms with
  | nil =>
    cases hcode
    exact .refl _
  | cons arm rest =>
    obtain ⟨place, pattern, guard, body⟩ := arm
    have hinside {bound tested : FrameScope} (htested : FrameScope.Later (bound ++ scope) tested) :
      scope.Grows tested := by
      obtain ⟨first, second, rfl, -, hsecond⟩ := htested.split
      exact ⟨first, second, rfl, hsecond⟩
    have hplain {s t : Nat} {middle : FrameScope}
        (harm : PlainArmCode globals F loop place slot scope p pattern body middle s t) :
        scope.Later middle := by
      cases harm with
      | intro _ _ _ _ _ hbody hlength =>
        exact ((hinside (.refl _)).trans (StmtsCode.grows body hbody)).dropped hlength
    cases hcode with
    | last _ harm => exact hplain harm
    | plain _ harm hrest => exact (hplain harm).trans (PatternedCode.later rest hrest)
    | guarded _ harm hrest =>
      refine FrameScope.Later.trans ?_ (PatternedCode.later rest hrest)
      cases harm with
      | intro _ _ _ _ _ hguard _ _ hbody _ hlength =>
        rw [← List.append_assoc] at hbody
        exact ((hinside hguard.later).trans (StmtsCode.grows body hbody)).dropped hlength
termination_by structural arms

end

end OwnScript
