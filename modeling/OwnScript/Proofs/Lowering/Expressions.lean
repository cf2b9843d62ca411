import OwnScript.Proofs.Lowering.Scopes
import OwnScript.Proofs.Lowering.Steps
import OwnScript.Proofs.Program.Shape

/-!
Code generation for expressions and functions follows the layout: what the generator writes for a
construct is laid out by the rule of that construct, if what it writes for the parts is.
-/

namespace OwnScript

variable {globals : GlobalTable} {tracked : Prop}

namespace Stage

variable {stage : Stage globals}

/-- Nesting is looked at, and nothing else happens. -/
theorem run_deeper {α : Type} {nesting : Nat} {location : Location} {rest : Nat → Emit α}
    {emitter : Emitter} {result : α × Emitter}
    (hrun : (Emit.deeper nesting location >>= rest) emitter = .ok result) :
    rest (nesting + 1) emitter = .ok result := by
  obtain ⟨deeper, middle, hdeeper, hrest⟩ := Emit.bind_eq_ok.mp hrun
  obtain ⟨-, hdone⟩ := Emit.limit_eq_ok hdeeper
  cases hdone
  exact hrest

/-- A step that runs first, and an operation without operands behind it. -/
theorem run_op_after {α : Type} {code : Opcode} {location : Location} (height : Option Nat)
    {rest : Unit → Emit α} {result : α × Emitter}
    (hrun : (Emit.op code location >>= rest) stage.emitter = .ok result) :
    rest () (stage.op code location height).emitter = .ok result := by
  obtain ⟨⟨⟩, middle, hop, hrest⟩ := Emit.bind_eq_ok.mp hrun
  rw [stage.run_op code location height] at hop
  cases hop
  exact hrest

end Stage

open Stage

/-- A step of code generation that lays out an expression. -/
def ExprLaid (globals : GlobalTable) (tracked : Prop) (step : Emit Unit) (expr : Expr) : Prop :=
  ∀ (stage : Stage globals) (height : Nat) (result : Unit × Emitter), step stage.emitter = .ok result →
    ∃ after : Stage globals, result = ((), after.emitter) ∧ stage.Extends after ∧
      ∀ F : Listing tracked, F.Completes after.draft →
        ExprCode globals F height stage.scope stage.size expr after.scope after.size

/-- A step of code generation that lays out expressions. -/
def ExprsLaid (globals : GlobalTable) (tracked : Prop) (step : Emit Unit) (exprs : List Expr) : Prop :=
  ∀ (stage : Stage globals) (height : Nat) (result : Unit × Emitter), step stage.emitter = .ok result →
    ∃ after : Stage globals, result = ((), after.emitter) ∧ stage.Extends after ∧
      ∀ F : Listing tracked, F.Completes after.draft →
        ExprsCode globals F height stage.scope stage.size exprs after.scope after.size

/-- A step of code generation that lays out the values of fields. -/
def FieldsLaid (globals : GlobalTable) (tracked : Prop) (step : Emit Unit) (fields : List (String × Expr)) : Prop :=
  ∀ (stage : Stage globals) (height : Nat) (result : Unit × Emitter), step stage.emitter = .ok result →
    ∃ after : Stage globals, result = ((), after.emitter) ∧ stage.Extends after ∧
      ∀ F : Listing tracked, F.Completes after.draft →
        FieldsCode globals F height stage.scope stage.size fields after.scope after.size

/-- A step of code generation that lays out a closure. -/
def ClosureLaid (globals : GlobalTable) (tracked : Prop) (step : Emit Unit) (location : Location)
    (function : Function) :
    Prop :=
  ∀ (stage : Stage globals) (height : Nat) (result : Unit × Emitter), step stage.emitter = .ok result →
    ∃ after : Stage globals, result = ((), after.emitter) ∧ stage.Extends after ∧
      after.size = stage.size + 3 ∧ ∀ F : Listing tracked, F.Completes after.draft →
        ClosureCode globals F height stage.scope stage.size location function after.scope

/-- A step of code generation that lays out clauses. It may leave anything in scope. -/
def ClausesLaid (globals : GlobalTable) (tracked : Prop) (step : Emit Unit) (location : Location)
    (clauses : List Clause) :
    Prop :=
  ∀ (stage : Stage globals) (result : Unit × Emitter), step stage.emitter = .ok result →
    ∃ after : Stage globals, result = ((), after.emitter) ∧ stage.draft.Grows after.draft ∧
      List.Forall₂ FunctionCode.Suspended stage.emitter.enclosing after.emitter.enclosing ∧
      ∀ F : Listing tracked, F.Completes after.draft →
        ClausesCode globals F location stage.size clauses after.size

/-- A step of code generation that lays out a statement. -/
def StmtLaid (globals : GlobalTable) (tracked : Prop) (step : Emit Unit) (stmt : Stmt) : Prop :=
  ∀ (stage : Stage globals) (avoid : Set Nat), stage.LoopsOpen avoid →
    (∀ place ∈ avoid, place < stage.size) → ∀ result : Unit × Emitter, step stage.emitter = .ok result →
    ∃ after : Stage globals, result = ((), after.emitter) ∧
      (stmt.isDeclaration = false ∧ tracked → after.scope.length = stage.scope.length) ∧
      stage.Lays after avoid fun (F : Listing tracked) plan =>
        StmtCode globals F plan stage.scope stage.size stmt after.scope after.size

/-- A step of code generation that lays out statements. -/
def StmtsLaid (globals : GlobalTable) (tracked : Prop) (step : Emit Unit) (stmts : List Stmt) : Prop :=
  ∀ (stage : Stage globals) (avoid : Set Nat), stage.LoopsOpen avoid →
    (∀ place ∈ avoid, place < stage.size) → ∀ result : Unit × Emitter, step stage.emitter = .ok result →
    ∃ after : Stage globals, result = ((), after.emitter) ∧
      stage.Lays after avoid fun (F : Listing tracked) plan =>
        StmtsCode globals F plan stage.scope stage.size stmts after.scope after.size

section Functions

variable {nesting : Nat} {location place : Location} {clauses : List Clause} {parameters : List Pattern}
  {body : List Stmt}

theorem laid_function {name : String} {isProc : Bool}
    (hclauses : ClausesLaid globals tracked (Emit.compileClauses nesting location clauses) location clauses) :
    ClosureLaid globals tracked (Emit.compileFunction nesting location ⟨name, isProc, clauses⟩) location
      ⟨name, isProc, clauses⟩ := by
  intro stage height result hrun
  obtain ⟨⟨⟩, emitter, henter, hrest⟩ := Emit.bind_eq_ok.mp hrun
  cases henter
  obtain ⟨⟨⟩, emitter, hstep, hrest⟩ := Emit.bind_eq_ok.mp hrest
  obtain ⟨inner, hinner, hgrows, henclosing, hcode⟩ := hclauses stage.enterFunction _ hstep
  cases hinner
  replace hrest := run_op_after none hrest
  let ended := inner.op .noMatchingOverload location none
  have henclosing : List.Forall₂ FunctionCode.Suspended
      (stage.emitter.current :: stage.emitter.enclosing) ended.emitter.enclosing := henclosing
  obtain ⟨after, hresult, hextends, hsize, prototype, hchunk, hheld, hclosure⟩ :=
    run_exitFunction height henclosing hrest
  refine ⟨after, hresult, hextends, hsize, fun F h => ?_⟩
  obtain ⟨a, hhas, hfunction⟩ := hclosure F h
  have hself := Draft.completes_self tracked ended.draft
  have hbody := hcode _ ((inner.extends_op ..).draft.completes _ hself)
  exact .intro hhas hfunction (.intro hchunk hbody (has_op rfl hself)) hextends.emitter.locals.scope hheld

theorem laid_clauses_nil : ClausesLaid globals tracked (Emit.compileClauses nesting location []) location [] := by
  intro stage result hrun
  cases hrun
  exact ⟨stage, rfl, .refl _, List.forall₂_same.mpr fun function _ => .refl function, fun F _ => .nil⟩

theorem laid_clause (hbody : StmtsLaid globals tracked (Emit.compileStmts nesting body) body)
    (hclauses : ClausesLaid globals tracked (Emit.compileClauses nesting location clauses) location clauses) :
    ClausesLaid globals tracked (Emit.compileClauses nesting location (⟨place, parameters, body⟩ :: clauses)) location
      (⟨place, parameters, body⟩ :: clauses) := by
  intro stage result hrun
  simp only [Emit.compileClauses] at hrun
  generalize hwhere : (if place.known = true then place else location) = at' at hrun
  obtain ⟨⟨⟩, emitter, henter, hrest⟩ := Emit.bind_eq_ok.mp hrun
  cases henter
  obtain ⟨pair, emitter, hparameters, hrest⟩ := Emit.bind_eq_ok.mp hrest
  have hstart : Emit.declareParameters parameters [] [] stage.enterClause.emitter = _ := hparameters
  obtain ⟨declared, hdeclared, hfirst, hdraft, hscope, hloops⟩ := run_declareParameters hstart
  cases hdeclared
  simp only [List.reverse_nil, List.nil_append] at hrest
  obtain ⟨⟨⟩, emitter, hindexed, hrest⟩ := Emit.split_two hrest
  obtain ⟨tested, htested, hextends, hsame, hsize, htest⟩ := run_indexed
    (fun chunk index => chunk.clauses[index]? = some (parameters.map parameterMatcher))
    (fun _ => rfl) (fun _ => rfl) (fun _ _ h => Chunk.tablesBegin_addClause h) rfl none hindexed
  cases htested
  let scope := boundScope (parameterVariables parameters) ++ parameterScope parameters
  replace hrest := run_branch none (some (scope.length + 1)) hrest
  let chosen := tested.branch .jumpIfFalse at' none (some (scope.length + 1))
  obtain ⟨⟨⟩, emitter, hvars, hrest⟩ := Emit.bind_eq_ok.mp hrest
  obtain ⟨bound, hbound, hsecond, hdraft', hscope', hloops'⟩ :=
    chosen.run_declareVariables hvars
  cases hbound
  have hinside : bound.scope = scope := by
    rw [hscope', scope_branch, hsame, hscope]
    exact (List.append_assoc ..).symm.trans (List.append_nil _)
  have hoff : bound.emitter.current.loops = [] := by
    rw [hloops']
    change tested.emitter.current.loops = []
    rw [hextends.emitter.loops, hloops]
    rfl
  obtain ⟨⟨⟩, emitter, hstmts, hrest⟩ := Emit.bind_eq_ok.mp hrest
  obtain ⟨ended, hended, hlays⟩ := hbody bound ∅ (fun loop h => by rw [hoff] at h; cases h)
    (fun _ h => h.elim) _ hstmts
  cases hended
  replace hrest := run_op_after (some ended.scope.length) hrest
  let pushed := ended.op .pushNil at' (some ended.scope.length)
  replace hrest : (Emit.op .ret at' >>= _) pushed.emitter = _ := hrest
  replace hrest := run_op_after (some (ended.scope.length + 1)) hrest
  let returned := pushed.op .ret at' (some (ended.scope.length + 1))
  obtain ⟨⟨⟩, emitter, hland, hrest⟩ := Emit.bind_eq_ok.mp hrest
  obtain ⟨hfits, hlanded⟩ := returned.run_land hland
  cases hlanded
  replace hrest := run_op_after none hrest
  let passed := (returned.land (tested.size + 1)).op .pop at' none
  obtain ⟨after, hresult, hgrows, henclosing, hcode⟩ := hclauses passed _ hrest
  have hdeclared : declared.size = stage.size := congrArg Draft.size hdraft
  have hbound : bound.size = chosen.size := congrArg Draft.size hdraft'
  have hstart : stage.draft.Grows bound.draft := by
    rw [hdraft']
    refine Draft.Grows.trans ?_ (tested.extends_branch ..).draft
    have hbegin := hextends.draft
    rwa [hdraft] at hbegin
  have hreturned : ended.Extends returned := (ended.extends_op ..).trans (pushed.extends_op ..)
  have hplace : tested.size + 1 ∈ returned.draft.pending := by
    refine hreturned.draft.pending (hlays.proceeds.draft.pending ?_)
    rw [hdraft']
    exact tested.mem_pending_branch ..
  have hown : stage.draft.size ≤ tested.size + 1 := by
    change stage.size ≤ _
    omega
  have hpassed : stage.draft.Grows passed.draft :=
    (((hstart.trans hlays.proceeds.draft).trans hreturned.draft).land hplace hfits hown).trans
      (Draft.grows_op ..)
  have hadvances : stage.enterClause.emitter.Advances passed.emitter :=
    ((((hfirst.emitter.trans hextends.emitter.advances).trans (tested.extends_branch ..).emitter.advances).trans
      hsecond.emitter).trans hlays.proceeds.emitter).trans
      ((hreturned.emitter.trans (returned.continues_draw _)).trans (continues_draw ..)).advances
  refine ⟨after, hresult, hpassed.trans hgrows, Emitter.suspended_trans hadvances.enclosing henclosing, ?_⟩
  intro F h
  have hpassedF := hgrows.completes F h
  have hpop : F.Has (returned.land (tested.size + 1)).size none .pop 0 0 at' := has_op rfl hpassedF
  obtain ⟨hreturnedF, hleads⟩ := leads_land hplace hfits ((extends_op ..).draft.completes F hpassedF)
  have hret : F.Has pushed.size (some (ended.scope.length + 1)) .ret 0 0 at' := has_op rfl hreturnedF
  have hpushedF := (pushed.extends_op ..).draft.completes F hreturnedF
  have hnil : F.Has ended.size (some ended.scope.length) .pushNil 0 0 at' := has_op rfl hpushedF
  have hendedF := (ended.extends_op ..).draft.completes F hpushedF
  have hplanned : ended.Planned F none := by
    intro loop hloop
    have hgrow := hlays.proceeds.emitter.loops
    rw [hoff] at hgrow
    generalize ended.emitter.current.loops = loops at hgrow hloop
    cases hgrow
    cases hloop
  obtain ⟨-, hstmts⟩ := hlays.code F none hendedF hnil.height hplanned
  have hboundF := hlays.proceeds.draft.completes F hendedF
  rw [hdraft'] at hboundF
  obtain ⟨hdeparts, hfirstPop⟩ := departs_branch hboundF
  obtain ⟨a, hmatch, hparameters⟩ := htest F ((tested.extends_branch ..).draft.completes F hboundF)
  have hothers := hcode F h
  simp only [passed, returned, pushed, size_op, size_land] at hpop hret hleads hothers
  simp only [chosen, size_branch] at hbound
  rw [hdeclared] at hmatch hsize
  rw [hsize] at hdeparts hfirstPop hbound
  rw [hinside, hbound] at hstmts
  rw [hsize] at hleads
  exact .cons hwhere hmatch hparameters (hdeparts.jumps rfl hleads) rfl hfirstPop hstmts hnil hret hpop hothers

end Functions

section Expressions

variable {nesting : Nat} {location : Location} {left right object operand : Expr} {exprs : List Expr}

theorem laid_unary {operator : UnaryOp}
    (hoperand : ExprLaid globals tracked (Emit.compileExpr (nesting + 1) operand) operand) :
    ExprLaid globals tracked (Emit.compileExpr nesting (.unary location operator operand))
      (.unary location operator operand) := by
  intro stage height result hrun
  replace hrun := run_deeper hrun
  obtain ⟨⟨⟩, emitter, hfirst, hop⟩ := Emit.bind_eq_ok.mp hrun
  obtain ⟨first, hfirst, hextends, hcode⟩ := hoperand stage height _ hfirst
  cases hfirst
  rw [first.run_op operator.opcode location (some (height + 1))] at hop
  cases hop
  have hnext := first.extends_op operator.opcode location (some (height + 1))
  refine ⟨_, rfl, hextends.trans hnext, fun F h => ?_⟩
  have hcount : operator.opcode.operandCount = 0 := by cases operator <;> rfl
  rw [size_op]
  exact .unary (hcode F (hnext.draft.completes F h)) (has_op hcount h)

/-- The right operand runs only if the left one does not decide. -/
theorem laid_logical {operator : BinaryOp} (hlogical : operator.isLogical = true)
    (hleft : ExprLaid globals tracked (Emit.compileExpr (nesting + 1) left) left)
    (hright : ExprLaid globals tracked (Emit.compileExpr (nesting + 1) right) right) :
    ExprLaid globals tracked (Emit.compileExpr nesting (.binary location operator left right))
      (.binary location operator left right) := by
  intro stage height result hrun
  replace hrun := run_deeper hrun
  obtain ⟨⟨⟩, emitter, hfirst, hrest⟩ := Emit.bind_eq_ok.mp hrun
  obtain ⟨first, hfirst, hextends, hcode⟩ := hleft stage height _ hfirst
  cases hfirst
  rw [if_pos hlogical] at hrest
  replace hrest := run_branch (some (height + 1)) (some (height + 1)) hrest
  let branch := first.branch operator.opcode location (some (height + 1)) (some (height + 1))
  obtain ⟨⟨⟩, emitter, hsecond, hland⟩ := Emit.bind_eq_ok.mp hrest
  obtain ⟨second, hsecond, hextends', hcode'⟩ := hright branch height _ hsecond
  cases hsecond
  obtain ⟨hfits, hresult⟩ := second.run_land hland
  cases hresult
  have hplace : first.size + 1 ∈ second.draft.pending :=
    hextends'.draft.pending (first.mem_pending_branch ..)
  have hown : stage.size ≤ first.size + 1 := hextends.draft.size.trans (Nat.le_succ _)
  have hall := (hextends.trans (first.extends_branch ..)).trans hextends'
  refine ⟨_, rfl, hall.land hplace hfits hown, fun F h => ?_⟩
  obtain ⟨hF, hleads⟩ := leads_land hplace hfits h
  have hbranchF := hextends'.draft.completes F hF
  obtain ⟨hdeparts, hpop⟩ := departs_branch hbranchF
  have hcount : operator.opcode.operandCount = 1 := by
    cases operator <;> first | rfl | cases hlogical
  have hrightCode := hcode' F hF
  simp only [branch, size_branch] at hrightCode
  rw [size_land]
  exact .logical hlogical (hcode F ((first.extends_branch ..).draft.completes F hbranchF))
    (hdeparts.jumps hcount hleads) hpop hrightCode

theorem laid_binary {operator : BinaryOp}
    (hleft : ExprLaid globals tracked (Emit.compileExpr (nesting + 1) left) left)
    (hright : ExprLaid globals tracked (Emit.compileExpr (nesting + 1) right) right) :
    ExprLaid globals tracked (Emit.compileExpr nesting (.binary location operator left right))
      (.binary location operator left right) := by
  cases hlogical : operator.isLogical with
  | true => exact laid_logical hlogical hleft hright
  | false =>
    intro stage height result hrun
    replace hrun := run_deeper hrun
    obtain ⟨⟨⟩, emitter, hfirst, hrest⟩ := Emit.bind_eq_ok.mp hrun
    obtain ⟨first, hfirst, hextends, hcode⟩ := hleft stage height _ hfirst
    cases hfirst
    rw [if_neg (by simp [hlogical])] at hrest
    obtain ⟨⟨⟩, emitter, hsecond, hop⟩ := Emit.bind_eq_ok.mp hrest
    obtain ⟨second, hsecond, hextends', hcode'⟩ := hright first (height + 1) _ hsecond
    cases hsecond
    rw [second.run_op operator.opcode location (some (height + 2))] at hop
    cases hop
    have hnext := second.extends_op operator.opcode location (some (height + 2))
    refine ⟨_, rfl, (hextends.trans hextends').trans hnext, fun F h => ?_⟩
    have hcount : operator.opcode.operandCount = 0 := by
      cases operator <;> first | rfl | cases hlogical
    have hF := hnext.draft.completes F h
    rw [size_op]
    exact .binary hlogical (hcode F (hextends'.draft.completes F hF)) (hcode' F hF) (has_op hcount h)

theorem laid_call (hcallee : ExprLaid globals tracked (Emit.compileExpr (nesting + 1) object) object)
    (harguments : ExprsLaid globals tracked (Emit.compileExprs (nesting + 1) exprs) exprs) :
    ExprLaid globals tracked (Emit.compileExpr nesting (.call location object exprs))
      (.call location object exprs) := by
  intro stage height result hrun
  replace hrun := run_deeper hrun
  obtain ⟨⟨⟩, emitter, hfirst, hrest⟩ := Emit.bind_eq_ok.mp hrun
  obtain ⟨first, hfirst, hextends, hcode⟩ := hcallee stage height _ hfirst
  cases hfirst
  obtain ⟨⟨⟩, emitter, hsecond, hop⟩ := Emit.bind_eq_ok.mp hrest
  obtain ⟨second, hsecond, hextends', hcode'⟩ := harguments first (height + 1) _ hsecond
  cases hsecond
  obtain ⟨hfits, hresult⟩ := second.run_opIndex (some (height + 1 + exprs.length)) hop
  cases hresult
  have hnext := second.extends_opShort .call exprs.length location (some (height + 1 + exprs.length))
  refine ⟨_, rfl, (hextends.trans hextends').trans hnext, fun F h => ?_⟩
  have hF := hnext.draft.completes F h
  rw [size_opShort]
  exact .call (hcode F (hextends'.draft.completes F hF)) (hcode' F hF) (has_opShort rfl hfits h)

theorem laid_field {name : String}
    (hobject : ExprLaid globals tracked (Emit.compileExpr (nesting + 1) object) object) :
    ExprLaid globals tracked (Emit.compileExpr nesting (.field location object name))
      (.field location object name) := by
  intro stage height result hrun
  replace hrun := run_deeper hrun
  obtain ⟨⟨⟩, emitter, hfirst, hop⟩ := Emit.bind_eq_ok.mp hrun
  obtain ⟨first, hfirst, hextends, hcode⟩ := hobject stage height _ hfirst
  cases hfirst
  obtain ⟨after, hresult, hnext, hscope, hsize, hfield⟩ := run_onString rfl (some (height + 1)) hop
  refine ⟨after, hresult, hextends.trans hnext, fun F h => ?_⟩
  obtain ⟨index, hhas, hname⟩ := hfield F h
  rw [hscope, hsize]
  exact .field (hcode F (hnext.draft.completes F h)) hhas hname

theorem laid_index (hobject : ExprLaid globals tracked (Emit.compileExpr (nesting + 1) object) object)
    (hindex : ExprLaid globals tracked (Emit.compileExpr (nesting + 1) operand) operand) :
    ExprLaid globals tracked (Emit.compileExpr nesting (.index location object operand))
      (.index location object operand) := by
  intro stage height result hrun
  replace hrun := run_deeper hrun
  obtain ⟨⟨⟩, emitter, hfirst, hrest⟩ := Emit.bind_eq_ok.mp hrun
  obtain ⟨first, hfirst, hextends, hcode⟩ := hobject stage height _ hfirst
  cases hfirst
  obtain ⟨⟨⟩, emitter, hsecond, hop⟩ := Emit.bind_eq_ok.mp hrest
  obtain ⟨second, hsecond, hextends', hcode'⟩ := hindex first (height + 1) _ hsecond
  cases hsecond
  rw [second.run_op .getIndex location (some (height + 2))] at hop
  cases hop
  have hnext := second.extends_op .getIndex location (some (height + 2))
  refine ⟨_, rfl, (hextends.trans hextends').trans hnext, fun F h => ?_⟩
  have hF := hnext.draft.completes F h
  rw [size_op]
  exact .index (hcode F (hextends'.draft.completes F hF)) (hcode' F hF) (has_op rfl h)

theorem laid_record {fields : List (String × Expr)}
    (hfields : FieldsLaid globals tracked (Emit.compileFields (nesting + 1) fields) fields) :
    ExprLaid globals tracked (Emit.compileExpr nesting (.record location fields)) (.record location fields) := by
  intro stage height result hrun
  replace hrun := run_deeper hrun
  obtain ⟨⟨⟩, emitter, hfirst, hop⟩ := Emit.bind_eq_ok.mp hrun
  obtain ⟨first, hfirst, hextends, hcode⟩ := hfields stage height _ hfirst
  cases hfirst
  obtain ⟨after, hresult, hnext, hscope, hsize, hshape⟩ := run_indexed
    (fun chunk index => chunk.shapes[index]? = some (fields.map (·.1)))
    (fun chunk => chunk.code_addShape _) (fun chunk => chunk.locations_addShape _)
    (fun _ _ h => Chunk.tablesBegin_addShape h) rfl (some (height + fields.length)) hop
  refine ⟨after, hresult, hextends.trans hnext, fun F h => ?_⟩
  obtain ⟨index, hhas, hnames⟩ := hshape F h
  rw [hscope, hsize]
  exact .record (hcode F (hnext.draft.completes F h)) hhas hnames

theorem laid_array (hitems : ExprsLaid globals tracked (Emit.compileExprs (nesting + 1) exprs) exprs) :
    ExprLaid globals tracked (Emit.compileExpr nesting (.array location exprs)) (.array location exprs) := by
  intro stage height result hrun
  replace hrun := run_deeper hrun
  obtain ⟨⟨⟩, emitter, hfirst, hop⟩ := Emit.bind_eq_ok.mp hrun
  obtain ⟨first, hfirst, hextends, hcode⟩ := hitems stage height _ hfirst
  cases hfirst
  obtain ⟨hfits, hresult⟩ := first.run_opIndex (some (height + exprs.length)) hop
  cases hresult
  have hnext := first.extends_opShort .array exprs.length location (some (height + exprs.length))
  refine ⟨_, rfl, hextends.trans hnext, fun F h => ?_⟩
  rw [size_opShort]
  exact .array (hcode F (hnext.draft.completes F h)) (has_opShort rfl hfits h)

theorem laid_lambda {function : Function}
    (hfunction : ClosureLaid globals tracked (Emit.compileFunction (nesting + 1) location function) location function) :
    ExprLaid globals tracked (Emit.compileExpr nesting (.lambda location function)) (.lambda location function) := by
  intro stage height result hrun
  replace hrun := run_deeper hrun
  obtain ⟨after, hresult, hextends, hsize, hcode⟩ := hfunction stage height _ hrun
  refine ⟨after, hresult, hextends, fun F h => ?_⟩
  rw [hsize]
  exact .lambda (hcode F h)

theorem laid_name {identifier : Identifier} :
    ExprLaid globals tracked (Emit.compileExpr nesting (.name identifier)) (.name identifier) := by
  intro stage height result hrun
  replace hrun := run_deeper hrun
  obtain ⟨after, hresult, hextends, hscope, hsize, hcode⟩ := run_access (some height) hrun
  refine ⟨after, hresult, hextends, fun F h => ?_⟩
  obtain ⟨op, a, hhas, haccess⟩ := hcode F h
  rw [hscope, hsize]
  exact .name hhas haccess

theorem laid_move {target : Option Identifier} :
    ExprLaid globals tracked (Emit.compileExpr nesting (.move location target)) (.move location target) := by
  intro stage height result hrun
  replace hrun := run_deeper hrun
  obtain ⟨after, hresult, hextends, hscope, hsize, hcode⟩ := run_access (some height) hrun
  refine ⟨after, hresult, hextends, fun F h => ?_⟩
  obtain ⟨op, a, hhas, haccess⟩ := hcode F h
  rw [hscope, hsize]
  exact .move hhas haccess

/-- A missing expression has no code. -/
theorem laid_missing (huntracked : ¬ tracked) :
    ExprLaid globals tracked (Emit.compileExpr nesting .absent) .absent := by
  intro stage height result hrun
  cases hrun
  exact ⟨stage, rfl, .refl _, fun F _ => .absent huntracked⟩

theorem laid_literal {value : Literal} :
    ExprLaid globals tracked (Emit.compileExpr nesting (.literal location value)) (.literal location value) := by
  intro stage height result hrun
  replace hrun := run_deeper hrun
  obtain ⟨after, hresult, hextends, hscope, op, hsize, hcode⟩ := run_literal (some height) hrun
  refine ⟨after, hresult, hextends, fun F h => ?_⟩
  obtain ⟨index, hhas, hloads⟩ := hcode F h
  rw [hscope, hsize]
  exact .literal hhas hloads

/-- A place that is only passed on has the code of what it stands for. -/
theorem laid_borrow {exclusive : Bool}
    (htarget : ExprLaid globals tracked (Emit.compileExpr (nesting + 1) operand) operand) :
    ExprLaid globals tracked (Emit.compileExpr nesting (.borrow location operand exclusive))
      (.borrow location operand exclusive) := by
  intro stage height result hrun
  obtain ⟨after, hresult, hextends, hcode⟩ := htarget stage height _ (run_deeper hrun)
  exact ⟨after, hresult, hextends, fun F h => .borrow (hcode F h)⟩

theorem laid_deref (hoperand : ExprLaid globals tracked (Emit.compileExpr (nesting + 1) operand) operand) :
    ExprLaid globals tracked (Emit.compileExpr nesting (.deref location operand)) (.deref location operand) := by
  intro stage height result hrun
  obtain ⟨after, hresult, hextends, hcode⟩ := hoperand stage height _ (run_deeper hrun)
  exact ⟨after, hresult, hextends, fun F h => .deref (hcode F h)⟩

theorem laid_exprs_nil : ExprsLaid globals tracked (Emit.compileExprs nesting []) [] := by
  intro stage height result hrun
  cases hrun
  exact ⟨stage, rfl, .refl _, fun F _ => .nil⟩

theorem laid_exprs_cons (hfirst : ExprLaid globals tracked (Emit.compileExpr nesting left) left)
    (hrest : ExprsLaid globals tracked (Emit.compileExprs nesting exprs) exprs) :
    ExprsLaid globals tracked (Emit.compileExprs nesting (left :: exprs)) (left :: exprs) := by
  intro stage height result hrun
  obtain ⟨⟨⟩, emitter, hrun, hothers⟩ := Emit.bind_eq_ok.mp hrun
  obtain ⟨first, hresult, hextends, hcode⟩ := hfirst stage height _ hrun
  cases hresult
  obtain ⟨after, hresult, hextends', hcode'⟩ := hrest first (height + 1) _ hothers
  refine ⟨after, hresult, hextends.trans hextends', fun F h => ?_⟩
  exact .cons (hcode F (hextends'.draft.completes F h)) (hcode' F h)

theorem laid_fields_nil : FieldsLaid globals tracked (Emit.compileFields nesting []) [] := by
  intro stage height result hrun
  cases hrun
  exact ⟨stage, rfl, .refl _, fun F _ => .nil⟩

theorem laid_fields_cons {name : String} {fields : List (String × Expr)}
    (hfirst : ExprLaid globals tracked (Emit.compileExpr nesting left) left)
    (hrest : FieldsLaid globals tracked (Emit.compileFields nesting fields) fields) :
    FieldsLaid globals tracked (Emit.compileFields nesting ((name, left) :: fields)) ((name, left) :: fields) := by
  intro stage height result hrun
  obtain ⟨⟨⟩, emitter, hrun, hothers⟩ := Emit.bind_eq_ok.mp hrun
  obtain ⟨first, hresult, hextends, hcode⟩ := hfirst stage height _ hrun
  cases hresult
  obtain ⟨after, hresult, hextends', hcode'⟩ := hrest first (height + 1) _ hothers
  refine ⟨after, hresult, hextends.trans hextends', fun F h => ?_⟩
  exact .cons (hcode F (hextends'.draft.completes F h)) (hcode' F h)

end Expressions

end OwnScript
