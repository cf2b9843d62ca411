import OwnScript.Proofs.Globals.Operations

/-!
The code of a program that reads its globals in time is covered. Wherever an expression, a statement or a
function may start, its code may be entered with the slots of the globals that are defined there.
-/

namespace OwnScript

variable {tracked : Prop} {globals : GlobalTable} {readiness : Readiness} {originals : Originals}

theorem isQuiet_unary (operator : UnaryOp) : operator.opcode.isQuiet = true ∧ operator.opcode.size = 1 := by
  cases operator <;> exact ⟨rfl, rfl⟩

theorem isQuiet_binary {operator : BinaryOp} (hlogical : operator.isLogical = false) :
    operator.opcode.isQuiet = true ∧ operator.opcode.size = 1 := by
  cases operator <;> first | exact ⟨rfl, rfl⟩ | cases hlogical

theorem opcode_logical {operator : BinaryOp} (hlogical : operator.isLogical = true) :
    operator.opcode = .jumpIfFalse ∨ operator.opcode = .jumpIfTrue := by
  cases operator <;> first | exact .inl rfl | exact .inr rfl | cases hlogical

theorem isQuiet_loads {chunk : Chunk} {value : Literal} {op : Opcode} {a : Nat} (hloads : Loads chunk value op a) :
    op.isQuiet = true := by
  cases hloads <;> rfl

/-- The code that makes a closure of a function that may run. -/
theorem ClosureCode.covered {F : Listing tracked} {n height p : Nat} {scope after : FrameScope} {location : Location}
    {function : Function} (hcode : ClosureCode globals F height scope p location function after) {defined : Set Nat}
    (hentered : ∀ (inner : Listing tracked) prototype, PrototypeCode globals inner location prototype function →
      ∀ m < n, Entered originals m defined (some prototype))
    (hnext : F.Covered originals n (p + 3) defined) : F.Covered originals n p defined := by
  cases hcode with
  | intro hhas hfound hprototype => exact covered_closure hhas hfound (hentered _ _ hprototype) hnext

mutual

/-- The code of an expression. -/
theorem ExprCode.covered (expr : Expr) {F : Listing tracked} {n height p q : Nat} {scope after : FrameScope}
    (hcode : ExprCode globals F height scope p expr after q) {defined : Globals}
    (htimely : expr.Timely readiness.May defined) (hprepared : Prepared readiness globals originals n)
    (hnext : F.Covered originals n q (globals.image defined)) :
    F.Covered originals n p (globals.image defined) := by
  cases expr with
  | absent =>
    cases hcode
    exact hnext
  | literal =>
    cases hcode with
    | literal hhas hloads => exact covered_quiet hhas (isQuiet_loads hloads) hnext
  | name =>
    cases hcode with
    | name hhas haccesses => exact covered_load hhas haccesses (by decide) htimely hprepared hnext
  | unary location operator operand =>
    cases hcode with
    | unary hoperand hhas =>
      obtain ⟨hquiet, hsize⟩ := isQuiet_unary operator
      exact ExprCode.covered operand hoperand htimely hprepared (covered_quiet hhas hquiet (hsize.symm ▸ hnext))
  | binary location operator left right =>
    obtain ⟨hleftTimely, hrightTimely⟩ := htimely
    cases hcode with
    | binary hlogical hleft hright hhas =>
      obtain ⟨hquiet, hsize⟩ := isQuiet_binary hlogical
      refine ExprCode.covered left hleft hleftTimely hprepared ?_
      exact ExprCode.covered right hright hrightTimely hprepared (covered_quiet hhas hquiet (hsize.symm ▸ hnext))
    | logical hlogical hleft hjumps hpop hright =>
      refine ExprCode.covered left hleft hleftTimely hprepared ?_
      refine covered_branch (opcode_logical hlogical) hjumps hnext (covered_pop hpop ?_)
      exact ExprCode.covered right hright hrightTimely hprepared hnext
  | call location callee arguments =>
    cases hcode with
    | call hcallee harguments hhas =>
      refine ExprCode.covered callee hcallee htimely.1 hprepared ?_
      exact ExprsCode.covered arguments harguments htimely.2 hprepared (covered_quiet hhas rfl hnext)
  | field location object name =>
    cases hcode with
    | field hobject hhas => exact ExprCode.covered object hobject htimely hprepared (covered_quiet hhas rfl hnext)
  | index location object index =>
    cases hcode with
    | index hobject hindex hhas =>
      refine ExprCode.covered object hobject htimely.1 hprepared ?_
      exact ExprCode.covered index hindex htimely.2 hprepared (covered_quiet hhas rfl hnext)
  | record location fields =>
    cases hcode with
    | record hfields hhas =>
      exact FieldsCode.covered fields hfields htimely hprepared (covered_quiet hhas rfl hnext)
  | array location items =>
    cases hcode with
    | array hitems hhas => exact ExprsCode.covered items hitems htimely hprepared (covered_quiet hhas rfl hnext)
  | lambda location function =>
    cases hcode with
    | lambda hclosure =>
      exact hclosure.covered (fun _ _ hprototype m hm =>
        PrototypeCode.entered function hprototype htimely (hprepared.fewer hm.le)) hnext
  | borrow location target exclusive =>
    cases hcode with
    | borrow htarget => exact ExprCode.covered target htarget htimely hprepared hnext
  | move location target =>
    cases hcode with
    | move hhas haccesses =>
      cases target with
      | none => exact covered_load hhas haccesses (by decide) (fun h => by cases h) hprepared hnext
      | some identifier => exact covered_load hhas haccesses (by decide) htimely hprepared hnext
  | deref location operand =>
    cases hcode with
    | deref hoperand => exact ExprCode.covered operand hoperand htimely hprepared hnext
termination_by structural expr

theorem ExprsCode.covered (exprs : List Expr) {F : Listing tracked} {n height p q : Nat} {scope after : FrameScope}
    (hcode : ExprsCode globals F height scope p exprs after q) {defined : Globals}
    (htimely : exprsTimely readiness.May exprs defined) (hprepared : Prepared readiness globals originals n)
    (hnext : F.Covered originals n q (globals.image defined)) :
    F.Covered originals n p (globals.image defined) := by
  cases exprs with
  | nil =>
    cases hcode
    exact hnext
  | cons expr rest =>
    cases hcode with
    | cons hfirst hrest =>
      refine ExprCode.covered expr hfirst htimely.1 hprepared ?_
      exact ExprsCode.covered rest hrest htimely.2 hprepared hnext
termination_by structural exprs

theorem FieldsCode.covered (fields : List (String × Expr)) {F : Listing tracked} {n height p q : Nat}
    {scope after : FrameScope} (hcode : FieldsCode globals F height scope p fields after q) {defined : Globals}
    (htimely : fieldsTimely readiness.May fields defined) (hprepared : Prepared readiness globals originals n)
    (hnext : F.Covered originals n q (globals.image defined)) :
    F.Covered originals n p (globals.image defined) := by
  cases fields with
  | nil =>
    cases hcode
    exact hnext
  | cons field rest =>
    obtain ⟨name, value⟩ := field
    cases hcode with
    | cons hfirst hrest =>
      refine ExprCode.covered value hfirst htimely.1 hprepared ?_
      exact FieldsCode.covered rest hrest htimely.2 hprepared hnext
termination_by structural fields

/-- The code of a function. -/
theorem PrototypeCode.entered (function : Function) {F : Listing tracked} {n : Nat} {location : Location}
    {prototype : Prototype} (hcode : PrototypeCode globals F location prototype function) {defined : Globals}
    (htimely : function.Timely readiness.May defined) (hprepared : Prepared readiness globals originals n) :
    Entered originals n (globals.image defined) (some prototype) := by
  obtain ⟨name, isProc, clauses⟩ := function
  cases hcode with
  | intro hchunk hclauses hlast =>
    refine ⟨prototype, F.chunk, rfl, hchunk, ?_⟩
    exact ClausesCode.covered clauses hclauses htimely hprepared (covered_end hlast rfl fun _ => rfl)
termination_by structural function

theorem ClausesCode.covered (clauses : List Clause) {F : Listing tracked} {n p after : Nat} {location : Location}
    (hcode : ClausesCode globals F location p clauses after) {defined : Globals}
    (htimely : clausesTimely readiness.May clauses defined) (hprepared : Prepared readiness globals originals n)
    (hnext : F.Covered originals n after (globals.image defined)) :
    F.Covered originals n p (globals.image defined) := by
  cases clauses with
  | nil =>
    cases hcode
    exact hnext
  | cons clause rest =>
    obtain ⟨given, parameters, body⟩ := clause
    cases hcode with
    | cons _ hhas _ hjumps _ hpop hbody hnil hret hfail hrest =>
      refine covered_quiet hhas rfl (covered_branch (.inl rfl) hjumps (covered_pop hfail ?_) (covered_pop hpop ?_))
      · exact ClausesCode.covered rest hrest htimely.2 hprepared hnext
      · exact StmtsCode.covered body hbody htimely.1 hprepared .none
          fun _ _ => covered_quiet hnil rfl (covered_return hret)
termination_by structural clauses

/-- The code of a statement. -/
theorem StmtCode.covered (stmt : Stmt) {F : Listing tracked} {n p q : Nat} {loop : Option LoopPlan}
    {scope after : FrameScope} (hcode : StmtCode globals F loop scope p stmt after q) {defined : Globals}
    {exits : Exits} (htimely : stmt.Timely readiness.May defined exits)
    (hprepared : Prepared readiness globals originals n) (hreaches : Reaches globals originals F n loop exits)
    (hnext : ∀ defined, exits.fall defined → F.Covered originals n q (globals.image defined)) :
    F.Covered originals n p (globals.image defined) := by
  cases stmt with
  | absent =>
    cases hcode
    exact hnext _ htimely
  | declare location name initial resolution =>
    obtain ⟨hinitialTimely, hfall⟩ := htimely
    cases hcode with
    | declareUndefined => exact hnext _ hfall
    | declareGlobal _ hbinding hslot hinitial hset hpop =>
      refine ExprCode.covered initial hinitial hinitialTimely hprepared ?_
      refine covered_setGlobal hset (covered_pop hpop ((hnext _ hfall).mono ?_))
      split
      · exact Set.subset_insert ..
      · exact GlobalTable.image_define_subset hbinding hslot defined
    | declareEmpty _ hhas => exact covered_quiet hhas rfl (hnext _ hfall)
    | declareLocal hlocal hinitial =>
      refine ExprCode.covered initial hinitial hinitialTimely hprepared ((hnext _ hfall).mono ?_)
      split
      · exact subset_rfl
      · exact GlobalTable.image_mono (Resolution.define_subset hlocal defined)
  | assign location name value resolution =>
    cases hcode with
    | assign hvalue hhas haccesses hpop =>
      refine ExprCode.covered value hvalue htimely.1 hprepared ?_
      exact covered_store hhas haccesses (covered_pop hpop (hnext _ htimely.2))
  | assignField location object field value =>
    obtain ⟨hobjectTimely, hvalueTimely, hfall⟩ := htimely
    cases hcode with
    | assignField hobject hvalue hhas _ hpop =>
      refine ExprCode.covered object hobject hobjectTimely hprepared ?_
      refine ExprCode.covered value hvalue hvalueTimely hprepared ?_
      exact covered_quiet hhas rfl (covered_pop hpop (hnext _ hfall))
  | assignIndex location object index value =>
    obtain ⟨hobjectTimely, hindexTimely, hvalueTimely, hfall⟩ := htimely
    cases hcode with
    | assignIndex hobject hindex hvalue hhas hpop =>
      refine ExprCode.covered object hobject hobjectTimely hprepared ?_
      refine ExprCode.covered index hindex hindexTimely hprepared ?_
      refine ExprCode.covered value hvalue hvalueTimely hprepared ?_
      exact covered_quiet hhas rfl (covered_pop hpop (hnext _ hfall))
  | evaluate location expression =>
    cases hcode with
    | evaluate hexpression hpop =>
      exact ExprCode.covered expression hexpression htimely.1 hprepared (covered_pop hpop (hnext _ htimely.2))
  | print location expression =>
    cases hcode with
    | print hexpression hhas =>
      exact ExprCode.covered expression hexpression htimely.1 hprepared (covered_quiet hhas rfl (hnext _ htimely.2))
  | block location body =>
    cases hcode with
    | block hbody _ hdrop =>
      exact StmtsCode.covered body hbody htimely hprepared hreaches fun defined h => hdrop.covered (hnext defined h)
  | ifElse location condition yes no =>
    obtain ⟨hconditionTimely, hyesTimely, hnoTimely⟩ := htimely
    cases hcode with
    | ifElse hcondition hbranch hpop _ hyes _ hjump hfail _ hno =>
      refine ExprCode.covered condition hcondition hconditionTimely hprepared ?_
      refine covered_branch (.inl rfl) hbranch (covered_pop hfail ?_) (covered_pop hpop ?_)
      · exact StmtCode.covered no hno hnoTimely hprepared hreaches hnext
      · exact StmtCode.covered yes hyes hyesTimely hprepared hreaches fun defined h =>
          covered_jump hjump (hnext defined h)
  | cond location scrutinee arms =>
    cases hcode with
    | condGuards harms => exact GuardedCode.covered arms harms htimely.2 hprepared hreaches hnext
    | condPatterns _ hscrutinee harms _ hdrop =>
      refine ExprCode.covered scrutinee hscrutinee htimely.1 hprepared ?_
      exact PatternedCode.covered arms harms htimely.2 hprepared hreaches fun defined h =>
        hdrop.covered (hnext defined h)
  | whileLoop location condition body =>
    obtain ⟨hconditionTimely, hbodyTimely, hfall⟩ := htimely
    cases hcode with
    | whileLoop hcondition hbranch hpop _ hbody _ hdrop hrepeats hfail =>
      refine covered_turns fun m hm hhead => ?_
      have hready := hprepared.fewer (Nat.succ_le_of_lt hm)
      have hleave (defined : Globals) (h : exits.fall defined) := (hnext defined h).of_le (Nat.succ_le_of_lt hm)
      have hback := covered_repeat hrepeats hhead
      refine ExprCode.covered condition hcondition hconditionTimely hready ?_
      refine covered_branch (.inl rfl) hbranch (covered_pop hfail (hleave _ hfall)) (covered_pop hpop ?_)
      exact StmtCode.covered body hbody hbodyTimely hready (.turn hleave hback) fun _ h =>
        hdrop.covered (hback.mono (GlobalTable.image_mono h))
  | forLoop location counter binding start bound body =>
    obtain ⟨hstartTimely, hboundTimely, hbodyTimely, hfall⟩ := htimely
    cases hcode with
    | forLoop hstart hbound hcounter hlimit hless hbranch hpop hfresh _ hbody _ _ hdrop hold hone _ hadd hstore hspare
        hrepeats hfail hhidden =>
      refine ExprCode.covered start hstart hstartTimely hprepared ?_
      refine ExprCode.covered bound hbound hboundTimely hprepared ?_
      refine covered_turns fun m hm hhead => ?_
      have hready := hprepared.fewer (Nat.succ_le_of_lt hm)
      have hleave (defined : Globals) (h : exits.fall defined) :=
        hhidden.covered ((hnext defined h).of_le (Nat.succ_le_of_lt hm))
      have hback := covered_quiet hold rfl (covered_quiet hone rfl (covered_quiet hadd rfl
        (covered_quiet hstore rfl (covered_pop hspare (covered_repeat hrepeats hhead)))))
      refine covered_quiet hcounter rfl (covered_quiet hlimit rfl (covered_quiet hless rfl ?_))
      refine covered_branch (.inl rfl) hbranch (covered_pop hfail (hleave _ hfall)) (covered_pop hpop ?_)
      refine covered_quiet hfresh rfl ?_
      exact StmtCode.covered body hbody hbodyTimely hready (.turn hleave hback) fun _ h =>
        hdrop.covered (hback.mono (GlobalTable.image_mono h))
  | forever location body =>
    cases hcode with
    | forever _ hbody _ hdrop hrepeats =>
      refine covered_turns fun m hm hhead => ?_
      have hready := hprepared.fewer (Nat.succ_le_of_lt hm)
      have hleave (defined : Globals) (h : exits.fall defined) := (hnext defined h).of_le (Nat.succ_le_of_lt hm)
      have hback := covered_repeat hrepeats hhead
      exact StmtCode.covered body hbody htimely hready (.turn hleave hback) fun _ h =>
        hdrop.covered (hback.mono (GlobalTable.image_mono h))
  | leave =>
    cases hcode with
    | leave _ hdrop hjump => exact hdrop.covered (covered_jump hjump (hreaches.leave _ rfl _ htimely))
  | skip =>
    cases hcode with
    | skip _ hdrop hjump => exact hdrop.covered (covered_jump hjump (hreaches.skip _ rfl _ htimely))
  | giveBack location value =>
    cases hcode with
    | giveBackNil hhas hret => exact covered_quiet hhas rfl (covered_return hret)
    | giveBack hvalue hret => exact ExprCode.covered value hvalue htimely hprepared (covered_return hret)
  | disown location name resolution =>
    obtain ⟨hdefined, hfall⟩ := htimely
    cases hcode with
    | disown hhas haccesses hpop =>
      have hthen := hnext _ hfall
      cases haccesses with
      | @global id slot hbinding hglobal hslot =>
        exact covered_disown hhas ⟨id, hdefined hglobal id hbinding, hslot⟩ hpop hthen
      | frame => exact covered_quiet hhas rfl (covered_pop hpop hthen)
      | captured => exact covered_quiet hhas rfl (covered_pop hpop hthen)
  | function location declaration resolution =>
    cases hcode with
    | functionGlobal => exact hnext _ htimely.2
    | functionLocal hlocal hclosure =>
      exact hclosure.covered (fun _ _ hprototype m hm =>
        PrototypeCode.entered declaration hprototype (htimely.1 hlocal) (hprepared.fewer hm.le)) (hnext _ htimely.2)
termination_by structural stmt

theorem StmtsCode.covered (stmts : List Stmt) {F : Listing tracked} {n p q : Nat} {loop : Option LoopPlan}
    {scope after : FrameScope} (hcode : StmtsCode globals F loop scope p stmts after q) {defined : Globals}
    {exits : Exits} (htimely : stmtsTimely readiness.May stmts defined exits)
    (hprepared : Prepared readiness globals originals n) (hreaches : Reaches globals originals F n loop exits)
    (hnext : ∀ defined, exits.fall defined → F.Covered originals n q (globals.image defined)) :
    F.Covered originals n p (globals.image defined) := by
  cases stmts with
  | nil =>
    cases hcode
    exact hnext _ htimely
  | cons stmt rest =>
    cases hcode with
    | cons _ hstmt hrest =>
      exact StmtCode.covered stmt hstmt htimely hprepared ⟨hreaches.leave, hreaches.skip⟩ fun defined h =>
        StmtsCode.covered rest hrest h hprepared hreaches hnext
termination_by structural stmts

theorem GuardedCode.covered (arms : List Arm) {F : Listing tracked} {n p q : Nat} {loop : Option LoopPlan}
    {location : Location} {scope after : FrameScope}
    (hcode : GuardedCode globals F loop location scope p arms after q) {defined : Globals} {exits : Exits}
    (htimely : armsTimely readiness.May arms defined exits) (hprepared : Prepared readiness globals originals n)
    (hreaches : Reaches globals originals F n loop exits)
    (hnext : ∀ defined, exits.fall defined → F.Covered originals n q (globals.image defined)) :
    F.Covered originals n p (globals.image defined) := by
  cases arms with
  | nil =>
    cases hcode with
    | nil hhas => exact covered_end hhas rfl fun _ => rfl
  | cons arm rest =>
    obtain ⟨place, pattern, guard, body⟩ := arm
    obtain ⟨hguardTimely, hbodyTimely, hrestTimely⟩ := htimely
    cases hcode with
    | last hbody _ hdrop hjump =>
      exact StmtsCode.covered body hbody hbodyTimely hprepared hreaches fun defined h =>
        hdrop.covered (covered_jump hjump (hnext defined h))
    | cons _ hguard hbranch hpop hbody _ hdrop hjump hfail hrest =>
      refine ExprCode.covered guard hguard hguardTimely hprepared ?_
      refine covered_branch (.inl rfl) hbranch (covered_pop hfail ?_) (covered_pop hpop ?_)
      · exact GuardedCode.covered rest hrest hrestTimely hprepared hreaches hnext
      · exact StmtsCode.covered body hbody hbodyTimely hprepared hreaches fun defined h =>
          hdrop.covered (covered_jump hjump (hnext defined h))
termination_by structural arms

theorem PatternedCode.covered (arms : List Arm) {F : Listing tracked} {n p q slot : Nat} {loop : Option LoopPlan}
    {location : Location} {scope after : FrameScope}
    (hcode : PatternedCode globals F loop location slot scope p arms after q) {defined : Globals} {exits : Exits}
    (htimely : armsTimely readiness.May arms defined exits) (hprepared : Prepared readiness globals originals n)
    (hreaches : Reaches globals originals F n loop exits)
    (hnext : ∀ defined, exits.fall defined → F.Covered originals n q (globals.image defined)) :
    F.Covered originals n p (globals.image defined) := by
  cases arms with
  | nil =>
    cases hcode with
    | nil hhas => exact covered_end hhas rfl fun _ => rfl
  | cons arm rest =>
    obtain ⟨place, pattern, guard, body⟩ := arm
    obtain ⟨hguardTimely, hbodyTimely, hrestTimely⟩ := htimely
    -- Control passes an arm only if the pattern may fail.
    have hplain {s : Nat} {middle : FrameScope}
        (harm : PlainArmCode globals F loop place slot scope p pattern body middle s q)
        (helse : (pattern.elim .any Pattern.toMatcher).acceptsAll = false →
          F.Covered originals n s (globals.image defined)) :
        F.Covered originals n p (globals.image defined) := by
      cases harm with
      | intro _ hmatch hmatcher hbranch hpop hbody _ hdrop hjump hfail =>
        refine covered_match hmatch hmatcher hbranch hpop hfail ?_ helse
        exact StmtsCode.covered body hbody hbodyTimely hprepared hreaches fun defined h =>
          hdrop.covered (covered_jump hjump (hnext defined h))
    cases hcode with
    | last hall harm =>
      refine hplain harm fun hmayFail => ?_
      rw [acceptsAll_of_irrefutable hall] at hmayFail
      cases hmayFail
    | plain _ harm hrest =>
      exact hplain harm fun _ => PatternedCode.covered rest hrest hrestTimely hprepared hreaches hnext
    | guarded _ harm hrest =>
      have helse := PatternedCode.covered rest hrest hrestTimely hprepared hreaches hnext
      cases harm with
      | intro _ hmatch hmatcher hbranch hpop hguard htest hgo hbody _ _ hdrop hjump hrefused hundo hgoOn hfail =>
        refine covered_match hmatch hmatcher hbranch hpop hfail ?_ fun _ => helse
        refine ExprCode.covered guard hguard hguardTimely hprepared ?_
        refine covered_branch (.inl rfl) htest (covered_pop hrefused ?_) (covered_pop hgo ?_)
        · exact hundo.covered (covered_jump hgoOn helse)
        · exact StmtsCode.covered body hbody hbodyTimely hprepared hreaches fun defined h =>
            hdrop.covered (covered_jump hjump (hnext defined h))
termination_by structural arms

end

end OwnScript
