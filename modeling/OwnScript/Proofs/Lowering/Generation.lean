import OwnScript.Proofs.Lowering.Arms
import OwnScript.Proofs.Lowering.Loops
import OwnScript.Proofs.Lowering.Slots

/-!
Code generation follows the layout. Whatever the generator writes for a program is laid out by the rules:
each construct by its own, from its parts. The heights of frames are tracked if the program is well shaped.
-/

namespace OwnScript

variable {globals : GlobalTable} {tracked : Prop}

mutual

theorem laid_expr (nesting : Nat) (expr : Expr) (hshape : tracked → expr.wellShaped = true) :
    ExprLaid globals tracked (Emit.compileExpr nesting expr) expr := by
  cases expr with
  | absent => exact laid_missing fun htracked => by cases hshape htracked
  | literal => exact laid_literal
  | name => exact laid_name
  | unary location operator operand => exact laid_unary (laid_expr _ operand hshape)
  | binary location operator left right =>
    simp only [Expr.wellShaped, Bool.and_eq_true, imp_and] at hshape
    exact laid_binary (laid_expr _ left hshape.1) (laid_expr _ right hshape.2)
  | call location callee arguments =>
    simp only [Expr.wellShaped, Bool.and_eq_true, imp_and] at hshape
    exact laid_call (laid_expr _ callee hshape.1) (laid_exprs _ arguments hshape.2)
  | field location object name => exact laid_field (laid_expr _ object hshape)
  | index location object index =>
    simp only [Expr.wellShaped, Bool.and_eq_true, imp_and] at hshape
    exact laid_index (laid_expr _ object hshape.1) (laid_expr _ index hshape.2)
  | record location fields => exact laid_record (laid_fields _ fields hshape)
  | array location items => exact laid_array (laid_exprs _ items hshape)
  | lambda location function => exact laid_lambda (laid_closure _ location function hshape)
  | borrow location target exclusive => exact laid_borrow (laid_expr _ target hshape)
  | move => exact laid_move
  | deref location operand => exact laid_deref (laid_expr _ operand hshape)
termination_by structural expr

theorem laid_exprs (nesting : Nat) (exprs : List Expr) (hshape : tracked → exprsWellShaped exprs = true) :
    ExprsLaid globals tracked (Emit.compileExprs nesting exprs) exprs := by
  cases exprs with
  | nil => exact laid_exprs_nil
  | cons expr rest =>
    simp only [exprsWellShaped, Bool.and_eq_true, imp_and] at hshape
    exact laid_exprs_cons (laid_expr _ expr hshape.1) (laid_exprs _ rest hshape.2)
termination_by structural exprs

theorem laid_fields (nesting : Nat) (fields : List (String × Expr))
    (hshape : tracked → fieldsWellShaped fields = true) :
    FieldsLaid globals tracked (Emit.compileFields nesting fields) fields := by
  cases fields with
  | nil => exact laid_fields_nil
  | cons field rest =>
    obtain ⟨name, value⟩ := field
    simp only [fieldsWellShaped, Bool.and_eq_true, imp_and] at hshape
    exact laid_fields_cons (laid_expr _ value hshape.1) (laid_fields _ rest hshape.2)
termination_by structural fields

theorem laid_stmt (nesting : Nat) (stmt : Stmt) (hshape : tracked → stmt.wellShaped = true) :
    StmtLaid globals tracked (Emit.compileStmt nesting stmt) stmt := by
  cases stmt with
  | absent => exact laid_absent
  | declare location name initial resolution =>
    simp only [Stmt.wellShaped, Bool.or_eq_true] at hshape
    have hinitial (hpresent : initial.isAbsent = false) :=
      laid_expr (nesting + 1) initial fun htracked => (hshape htracked).resolve_left (by simp [hpresent])
    cases hglobal : resolution.isGlobal with
    | true => exact laid_declareGlobal hglobal hinitial
    | false => exact laid_declareLocal hglobal hinitial
  | assign location name value resolution => exact laid_assign (laid_expr _ value hshape)
  | assignField location object field value =>
    simp only [Stmt.wellShaped, Bool.and_eq_true, imp_and] at hshape
    exact laid_assignField (laid_expr _ object hshape.1) (laid_expr _ value hshape.2)
  | assignIndex location object index value =>
    simp only [Stmt.wellShaped, Bool.and_eq_true, imp_and] at hshape
    exact laid_assignIndex (laid_expr _ object hshape.1.1) (laid_expr _ index hshape.1.2)
      (laid_expr _ value hshape.2)
  | evaluate location expression => exact laid_evaluate (laid_expr _ expression hshape)
  | print location expression => exact laid_print (laid_expr _ expression hshape)
  | block location body => exact laid_block (laid_stmts _ body hshape)
  | ifElse location condition yes no =>
    simp only [Stmt.wellShaped, Bool.and_eq_true, Bool.not_eq_true', imp_and] at hshape
    obtain ⟨⟨⟨⟨hcondition, hplainYes⟩, hyes⟩, hplainNo⟩, hno⟩ := hshape
    exact laid_ifElse (laid_expr _ condition hcondition) (laid_stmt _ yes hyes) hplainYes (laid_stmt _ no hno)
      hplainNo
  | cond location scrutinee arms =>
    simp only [Stmt.wellShaped, Bool.and_eq_true, Bool.or_eq_true, imp_and] at hshape
    cases habsent : scrutinee.isAbsent with
    | true =>
      obtain rfl := isAbsent_eq habsent
      exact laid_condGuards (laid_guards _ location arms hshape.2)
    | false =>
      exact laid_condPatterns habsent
        (laid_expr _ scrutinee fun htracked => (hshape.1 htracked).resolve_left (by simp [habsent]))
        fun slot hslot => laid_patterns _ location slot hslot arms hshape.2
  | whileLoop location condition body =>
    simp only [Stmt.wellShaped, Bool.and_eq_true, imp_and] at hshape
    exact laid_while (laid_expr _ condition hshape.1) (laid_stmt _ body hshape.2)
  | forLoop location counter binding first bound body =>
    simp only [Stmt.wellShaped, Bool.and_eq_true, imp_and] at hshape
    exact laid_for (laid_expr _ first hshape.1.1) (laid_expr _ bound hshape.1.2) (laid_stmt _ body hshape.2)
  | forever location body => exact laid_forever (laid_stmt _ body hshape)
  | leave location => exact laid_leave
  | skip location => exact laid_skip
  | giveBack location value =>
    simp only [Stmt.wellShaped, Bool.or_eq_true] at hshape
    exact laid_giveBack fun hpresent => laid_expr _ value fun htracked =>
      (hshape htracked).resolve_left (by simp [hpresent])
  | disown location name resolution => exact laid_disown
  | function location declaration resolution => exact laid_functionStmt (laid_closure _ location declaration hshape)
termination_by structural stmt

theorem laid_stmts (nesting : Nat) (stmts : List Stmt) (hshape : tracked → stmtsWellShaped stmts = true) :
    StmtsLaid globals tracked (Emit.compileStmts nesting stmts) stmts := by
  cases stmts with
  | nil => exact laid_stmts_nil
  | cons stmt rest =>
    simp only [stmtsWellShaped, Bool.and_eq_true, imp_and] at hshape
    exact laid_stmts_cons (laid_stmt _ stmt hshape.1) (laid_stmts _ rest hshape.2)
termination_by structural stmts

theorem laid_guards (nesting : Nat) (location : Location) (arms : List Arm) {guardsOnly : Bool}
    (hshape : tracked → armsWellShaped guardsOnly arms = true) :
    GuardsLaid globals tracked (Emit.compileGuardedArms nesting location arms) location arms := by
  cases arms with
  | nil => exact laid_guards_nil
  | cons arm rest =>
    obtain ⟨place, pattern, guard, body⟩ := arm
    simp only [armsWellShaped, Bool.and_eq_true, Bool.or_eq_true, imp_and] at hshape
    obtain ⟨⟨⟨-, hguard⟩, hbody⟩, hrest⟩ := hshape
    cases habsent : guard.isAbsent with
    | true =>
      obtain rfl := isAbsent_eq habsent
      exact laid_guards_last (laid_stmts _ body hbody)
    | false =>
      exact laid_guards_cons habsent (laid_expr _ guard fun htracked =>
        (hguard htracked).resolve_left (by simp [habsent]))
        (laid_stmts _ body hbody) (laid_guards _ location rest hrest)
termination_by structural arms

theorem laid_patterns (nesting : Nat) (location : Location) (slot : Nat) (hslot : slot ≤ maxOperand)
    (arms : List Arm) {guardsOnly : Bool} (hshape : tracked → armsWellShaped guardsOnly arms = true) :
    PatternsLaid globals tracked (Emit.compilePatternArms nesting location slot arms) location slot arms := by
  cases arms with
  | nil => exact laid_patterns_nil
  | cons arm rest =>
    obtain ⟨place, pattern, guard, body⟩ := arm
    simp only [armsWellShaped, Bool.and_eq_true, Bool.or_eq_true, imp_and] at hshape
    obtain ⟨⟨⟨-, hguard⟩, hbody⟩, hrest⟩ := hshape
    cases habsent : guard.isAbsent with
    | true =>
      obtain rfl := isAbsent_eq habsent
      exact laid_patterns_plain hslot (laid_stmts _ body hbody) (laid_patterns _ location slot hslot rest hrest)
    | false =>
      exact laid_patterns_guarded hslot habsent
        (laid_expr _ guard fun htracked => (hguard htracked).resolve_left (by simp [habsent]))
        (laid_stmts _ body hbody) (laid_patterns _ location slot hslot rest hrest)
termination_by structural arms

theorem laid_closure (nesting : Nat) (location : Location) (function : Function)
    (hshape : tracked → function.wellShaped = true) :
    ClosureLaid globals tracked (Emit.compileFunction nesting location function) location function := by
  obtain ⟨name, isProc, clauses⟩ := function
  exact laid_function (laid_clauses _ location clauses hshape)
termination_by structural function

theorem laid_clauses (nesting : Nat) (location : Location) (clauses : List Clause)
    (hshape : tracked → clausesWellShaped clauses = true) :
    ClausesLaid globals tracked (Emit.compileClauses nesting location clauses) location clauses := by
  cases clauses with
  | nil => exact laid_clauses_nil
  | cons clause rest =>
    obtain ⟨place, parameters, body⟩ := clause
    simp only [clausesWellShaped, Bool.and_eq_true, imp_and] at hshape
    exact laid_clause (laid_stmts _ body hshape.1) (laid_clauses _ location rest hshape.2)
termination_by structural clauses

end

open Stage

theorem laid_hoist (stmts : List Stmt) (hshape : tracked → stmtsWellShaped stmts = true) {stage : Stage globals}
    (hscope : stage.scope = []) {result : Unit × Emitter}
    (hrun : Emit.hoistFunctions stmts stage.emitter = .ok result) :
    ∃ after : Stage globals, result = ((), after.emitter) ∧ stage.Extends after ∧
      ∀ F : Listing tracked, F.Completes after.draft → HoistCode globals F stage.size stmts after.size := by
  induction stmts generalizing stage with
  | nil =>
    cases hrun
    exact ⟨stage, rfl, .refl _, fun F _ => .nil⟩
  | cons stmt rest ih =>
    simp only [stmtsWellShaped, Bool.and_eq_true, imp_and] at hshape
    obtain ⟨hstmt, hrest⟩ := hshape
    have hskip (hother : ∀ location declaration id, stmt ≠ .function location declaration ⟨some id, true⟩)
        (hrun : Emit.hoistFunctions rest stage.emitter = .ok result) :
        ∃ after : Stage globals, result = ((), after.emitter) ∧ stage.Extends after ∧
          ∀ F : Listing tracked, F.Completes after.draft →
            HoistCode globals F stage.size (stmt :: rest) after.size := by
      obtain ⟨after, hresult, hextends, hcode⟩ := ih hrest hscope hrun
      exact ⟨after, hresult, hextends, fun F h => .skip hother (hcode F h)⟩
    cases stmt with
    | function location declaration resolution =>
      unfold Emit.hoistFunctions at hrun
      cases hglobal : resolution.isGlobal with
      | false =>
        rw [if_neg (by simp [hglobal])] at hrun
        refine hskip (fun _ _ _ h => ?_) hrun
        cases h
        cases hglobal
      | true =>
        rw [if_pos hglobal] at hrun
        obtain ⟨⟨⟩, emitter, hclosure, hrun⟩ := Emit.bind_eq_ok.mp hrun
        obtain ⟨built, hresult, hbuilt, hsize, hcode⟩ := laid_closure 0 location declaration hstmt stage 0 _ hclosure
        cases hresult
        obtain ⟨⟨⟩, emitter, hdefine, hrun⟩ := Emit.bind_eq_ok.mp hrun
        obtain ⟨defined, id, slot, hresult, hdefined, hsame, hlast, hid, hslot, hset⟩ :=
          run_defineGlobal 1 hdefine
        cases hresult
        have hbuiltScope : built.scope = [] := by
          refine List.eq_nil_of_length_eq_zero ?_
          rw [show built.scope.length = stage.scope.length from hbuilt.emitter.length_eq, hscope]
          rfl
        obtain ⟨after, hresult, hextends, hothers⟩ := ih hrest (hsame.trans hbuiltScope) hrun
        refine ⟨after, hresult, (hbuilt.trans hdefined).trans hextends, fun F h => ?_⟩
        have hdefinedF := hextends.draft.completes F h
        obtain ⟨hstore, hpop⟩ := hset F hdefinedF
        have hclosureCode := hcode F (hdefined.draft.completes F hdefinedF)
        have hrestCode := hothers F h
        rw [hscope, hbuiltScope] at hclosureCode
        rw [hsize] at hstore hpop
        rw [hlast, hsize] at hrestCode
        obtain ⟨binding, isGlobal⟩ := resolution
        cases hid
        cases hglobal
        exact .function hclosureCode hslot hstore hpop hrestCode
    | _ => exact hskip (fun _ _ _ h => by cases h) hrun

/-- The state in front of a script is in order. -/
theorem GlobalTable.Fits.tidy {table : GlobalTable} (hfits : table.Fits) :
    ({ globals := table } : Emitter).Tidy := by
  refine ⟨⟨trivial, .nil, fun _ h => (by cases h), Nat.zero_le _⟩, trivial, fun id slot hslot => ?_⟩
  have := hfits.slots id slot hslot
  have := hfits.few
  omega

/-- The stage in front of a script. -/
def Stage.start (table : GlobalTable) (hfits : table.Fits) : Stage table where
  emitter := { globals := table }
  draft := .empty
  globals_eq := rfl
  chunk_eq := Draft.chunk_empty
  tidy := hfits.tidy

/-- The code of a program is laid out by the rules, with heights that are tracked if the program is well
shaped. -/
theorem Program.compile_layout {program : Program} (hshape : tracked → program.wellShaped = true)
    {unit : CodeUnit} (hcompile : program.compile = .ok unit) :
    ∃ (table : GlobalTable) (script : Prototype) (F : Listing tracked),
      GlobalTable.ofStatements {} program.statements = .ok table ∧ unit.script = some script ∧
      unit.globalNames = table.names ∧ unit.entryPoints = table.entryPoints ∧
      ScriptCode table F script program.statements := by
  unfold Program.compile at hcompile
  dsimp only at hcompile
  split at hcompile
  case isFalse => cases hcompile
  obtain ⟨table, htable, hcompile⟩ := except_bind_eq_ok.mp hcompile
  obtain ⟨⟨⟨⟩, final⟩, hrun, hdone⟩ := except_bind_eq_ok.mp hcompile
  cases hdone
  have hfits := GlobalTable.fits_empty.ofStatements htable
  let stage : Stage table := .start table hfits
  have hstart : stage.scope = [] := rfl
  obtain ⟨⟨⟩, emitter, hhoist, hrest⟩ := Emit.bind_eq_ok.mp hrun
  obtain ⟨hoisted, hresult, hextends, hcode⟩ := laid_hoist program.statements hshape hstart hhoist
  cases hresult
  obtain ⟨⟨⟩, emitter, hstmts, hhalt⟩ := Emit.bind_eq_ok.mp hrest
  have hloops : hoisted.emitter.current.loops = [] := hextends.emitter.loops
  have hscope : hoisted.scope = [] := List.eq_nil_of_length_eq_zero hextends.emitter.length_eq
  obtain ⟨ended, hresult, hlays⟩ := laid_stmts 0 program.statements hshape hoisted ∅
    (fun loop h => by rw [hloops] at h; cases h) (fun _ h => h.elim) _ hstmts
  cases hresult
  rw [ended.run_op .halt {} (some ended.scope.length)] at hhalt
  cases hhalt
  let halted := ended.op .halt {} (some ended.scope.length)
  let F : Listing tracked := ⟨halted.draft.chunk, halted.draft.heights⟩
  have hself : F.Completes halted.draft := Draft.completes_self tracked halted.draft
  have hhas : F.Has ended.size (some ended.scope.length) .halt 0 0 {} := has_op rfl hself
  have hendedF := (ended.extends_op ..).draft.completes F hself
  have hplanned : ended.Planned F none := by
    intro loop hloop
    have hgrow := hlays.proceeds.emitter.loops
    rw [hloops] at hgrow
    generalize ended.emitter.current.loops = loops at hgrow hloop
    cases hgrow
    cases hloop
  obtain ⟨-, hstmtsCode⟩ := hlays.code F none hendedF hhas.height hplanned
  rw [hscope] at hstmtsCode
  have hhoistCode := hcode F (hlays.proceeds.draft.completes F hendedF)
  refine ⟨table, _, F, htable, rfl, rfl, rfl, .intro ?_ hhoistCode hstmtsCode hhas⟩
  exact congrArg some halted.chunk_eq.symm

end OwnScript
