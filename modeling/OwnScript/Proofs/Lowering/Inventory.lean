import OwnScript.Proofs.Lowering.Generation
import OwnScript.Proofs.Program.Functions

/-!
The functions of compiled code. What code generation makes for a function is found among the functions of the
code around it, under the name of the function and laid out by its rule. Code is only added, so a function that
was made once stays there; most steps of the generator make none and leave the captures as they are.
-/

namespace OwnScript

/-- A prototype is among the functions of some code, or among those of a function there. -/
inductive Chunk.Nests : Chunk → Prototype → Prop where
  | here {chunk : Chunk} {prototype : Prototype} : some prototype ∈ chunk.functions → chunk.Nests prototype
  | inside {chunk inner : Chunk} {outer prototype : Prototype} : some outer ∈ chunk.functions →
      outer.chunk = some inner → inner.Nests prototype → chunk.Nests prototype

/-- The name of a function in messages. -/
def Function.displayName (function : Function) : String :=
  if function.name.isEmpty then "<lambda>" else function.name

/-- A prototype that was made for a function: it has its name and its code. -/
structure Prototype.MadeFor (globals : GlobalTable) (location : Location) (function : Function)
    (prototype : Prototype) : Prop where
  name : prototype.name = function.displayName
  code : ∃ F : Listing False, PrototypeCode globals F location prototype function

/-- The code nests a prototype for a function. -/
def Chunk.Provides (globals : GlobalTable) (chunk : Chunk) (made : Location × Function) : Prop :=
  ∃ prototype, chunk.Nests prototype ∧ prototype.MadeFor globals made.1 made.2

theorem Chunk.Nests.mono {chunk longer : Chunk} {prototype : Prototype} (hnests : chunk.Nests prototype)
    (hsub : ∀ function ∈ chunk.functions, function ∈ longer.functions) : longer.Nests prototype := by
  cases hnests with
  | here hmem => exact .here (hsub _ hmem)
  | inside hmem hchunk hinner => exact .inside (hsub _ hmem) hchunk hinner

namespace Emit

variable {α β : Type} {globals : GlobalTable} {step : Emit α} {next : α → Emit β} {location : Location}

/-- An emitter that makes no function and captures nothing, and is otherwise free to go on. -/
structure Quiet (before after : Emitter) : Prop where
  globals : after.globals = before.globals
  enclosing : after.enclosing = before.enclosing
  captures : after.current.captures = before.current.captures
  functions : after.current.chunk.functions = before.current.chunk.functions

/-- A step that makes no function and captures nothing. -/
structure IsQuiet (step : Emit α) : Prop where
  quiet : ∀ {emitter final : Emitter} {value : α}, step emitter = .ok (value, final) → Quiet emitter final

theorem quiet_pure {value : α} : IsQuiet (pure value : Emit α) where
  quiet hrun := by
    cases hrun
    exact ⟨rfl, rfl, rfl, rfl⟩

theorem quiet_throw {fault : LoweringFault} : IsQuiet (throw fault : Emit α) where
  quiet hrun := by cases hrun

theorem quiet_get : IsQuiet (get : Emit Emitter) where
  quiet hrun := by
    cases hrun
    exact ⟨rfl, rfl, rfl, rfl⟩

theorem IsQuiet.bind (hstep : IsQuiet step) (hnext : ∀ value, IsQuiet (next value)) : IsQuiet (step >>= next) where
  quiet hrun := by
    obtain ⟨value, middle, hfirst, hrest⟩ := bind_eq_ok.mp hrun
    have h := hstep.quiet hfirst
    have h' := (hnext value).quiet hrest
    exact ⟨h'.globals.trans h.globals, h'.enclosing.trans h.enclosing, h'.captures.trans h.captures,
      h'.functions.trans h.functions⟩

theorem quiet_ite {condition : Prop} [Decidable condition] {other : Emit α} (hyes : IsQuiet step)
    (hno : IsQuiet other) :
    IsQuiet (if condition then step else other) := by
  split
  · exact hyes
  · exact hno

/-- A limit is checked first. -/
theorem quiet_limited {condition : Prop} [Decidable condition] {message : String} {rest : PUnit → Emit α}
    (hrest : ∀ value, IsQuiet (rest value)) :
    IsQuiet (if condition then (do
      let value ← limit message location
      rest value) else rest ⟨⟩) :=
  quiet_ite (quiet_throw.bind hrest) (hrest _)

theorem quiet_forM {entries : List β} {work : β → Emit PUnit} (hwork : ∀ entry, IsQuiet (work entry)) :
    IsQuiet (entries.forM work) := by
  induction entries with
  | nil => exact quiet_pure
  | cons entry rest ih => exact (hwork entry).bind fun _ => ih

theorem quiet_modifyCurrent {f : FunctionCode → FunctionCode} (hcaptures : ∀ code, (f code).captures = code.captures)
    (hfunctions : ∀ code, (f code).chunk.functions = code.chunk.functions) : IsQuiet (modifyCurrent f) where
  quiet hrun := by
    cases hrun
    exact ⟨rfl, rfl, hcaptures _, hfunctions _⟩

theorem quiet_modifyChunk {f : Chunk → Chunk} (hfunctions : ∀ chunk, (f chunk).functions = chunk.functions) :
    IsQuiet (modifyChunk f) :=
  quiet_modifyCurrent (fun _ => rfl) fun _ => hfunctions _

theorem quiet_withChunk {f : Chunk → Chunk × α} (hfunctions : ∀ chunk, (f chunk).1.functions = chunk.functions) :
    IsQuiet (withChunk f) where
  quiet hrun := by
    cases hrun
    exact ⟨rfl, rfl, rfl, hfunctions _⟩

section Primitives

variable {code : Opcode} {place slot nesting : Nat} {what : String} {binding : Option BindingId}

theorem quiet_op : IsQuiet (op code location) := by
  unfold op
  exact quiet_modifyChunk fun _ => rfl

theorem quiet_short : IsQuiet (short slot location) := by
  unfold short
  exact quiet_modifyChunk fun _ => rfl

theorem quiet_opShort : IsQuiet (opShort code slot location) :=
  quiet_op.bind fun _ => quiet_short

theorem quiet_opIndex : IsQuiet (opIndex code slot location what) :=
  quiet_limited fun _ => quiet_opShort

theorem quiet_constant {value : Scalar} : IsQuiet (constant value location) :=
  (quiet_withChunk fun _ => rfl).bind fun _ => quiet_opIndex

theorem quiet_onString {text : String} : IsQuiet (onString code text location) := by
  refine (quiet_withChunk fun chunk => ?_).bind fun _ => quiet_opIndex
  unfold Chunk.addString
  split <;> rfl

theorem quiet_literal {value : Literal} : IsQuiet (literal value location) := by
  unfold literal
  split
  · exact quiet_onString
  · exact quiet_op
  · exact quiet_op
  · exact quiet_op
  · exact quiet_constant

theorem quiet_deeper : IsQuiet (deeper nesting location) :=
  quiet_limited fun _ => quiet_pure

theorem quiet_jump : IsQuiet (jump code location) := by
  unfold jump
  exact quiet_withChunk fun _ => rfl

theorem quiet_position : IsQuiet position :=
  quiet_get.bind fun _ => quiet_pure

theorem quiet_land : IsQuiet (land place location) :=
  quiet_position.bind fun _ => quiet_limited fun _ => quiet_modifyChunk fun _ => rfl

theorem quiet_landAll {places : List Nat} : IsQuiet (landAll places location) :=
  quiet_forM fun _ => quiet_land

theorem quiet_back {target : Nat} : IsQuiet (back target location) :=
  quiet_op.bind fun _ => quiet_position.bind fun _ => quiet_limited fun _ => quiet_short

theorem quiet_drops {vars : List Local} : IsQuiet (vars.forM (drop · location)) :=
  quiet_forM fun _ => quiet_op

theorem quiet_enterScope : IsQuiet enterScope := by
  unfold enterScope
  exact quiet_modifyCurrent (fun _ => rfl) fun _ => rfl

theorem quiet_exitScope : IsQuiet exitScope :=
  quiet_get.bind fun _ => quiet_drops.bind fun _ => quiet_modifyCurrent (fun _ => rfl) fun _ => rfl

theorem quiet_unwind {depth : Nat} : IsQuiet (unwind depth location) :=
  quiet_get.bind fun _ => quiet_drops

theorem quiet_declareLocal : IsQuiet (declareLocal binding location) := by
  refine quiet_get.bind fun _ => quiet_limited fun _ => IsQuiet.bind ?_ fun _ => quiet_pure
  exact quiet_modifyCurrent (fun _ => rfl) fun _ => rfl

theorem quiet_declareVariables {vars : List Pattern.Variable} : IsQuiet (declareVariables vars) :=
  quiet_forM fun _ => quiet_declareLocal.bind fun _ => quiet_pure

theorem quiet_declareParameters {parameters : List Pattern} {matchers : List Matcher} {vars : List Pattern.Variable} :
    IsQuiet (declareParameters parameters matchers vars) := by
  induction parameters generalizing matchers vars with
  | nil => exact quiet_pure
  | cons pattern rest ih => cases pattern <;> exact quiet_declareLocal.bind fun _ => ih

theorem quiet_localsFrom {count : Nat} : IsQuiet (localsFrom slot count) where
  quiet hrun := by
    cases hrun
    exact ⟨rfl, rfl, rfl, rfl⟩

theorem quiet_globalSlot {id : BindingId} : IsQuiet (globalSlot id location) := by
  refine quiet_get.bind fun _ => ?_
  split
  · exact quiet_pure
  · exact quiet_throw

theorem quiet_defineGlobal {resolution : Resolution} : IsQuiet (defineGlobal resolution location) := by
  refine quiet_op.bind fun _ => ?_
  split
  · exact quiet_globalSlot.bind fun _ => quiet_short.bind fun _ => quiet_op
  · exact quiet_throw.bind fun _ => quiet_op

theorem quiet_enterLoop : IsQuiet enterLoop := by
  unfold enterLoop
  exact quiet_modifyCurrent (fun _ => rfl) fun _ => rfl

theorem quiet_landSkipping : IsQuiet (landSkipping location) :=
  quiet_get.bind fun _ => quiet_landAll

theorem quiet_exitLoop : IsQuiet (exitLoop location) :=
  quiet_get.bind fun _ => quiet_landAll.bind fun _ => quiet_modifyCurrent (fun _ => rfl) fun _ => rfl

theorem quiet_jumpFromLoop {word : String} {add : LoopJumps → Nat → LoopJumps} :
    IsQuiet (jumpFromLoop word add location) := by
  refine quiet_get.bind fun _ => ?_
  split
  · exact quiet_throw
  · refine quiet_unwind.bind fun _ => quiet_jump.bind fun _ => quiet_modifyCurrent (fun code => ?_) fun code => ?_
    · split <;> rfl
    · split <;> rfl

theorem quiet_enterClause : IsQuiet enterClause := by
  unfold enterClause
  exact quiet_modifyCurrent (fun _ => rfl) fun _ => rfl

end Primitives

/-- An emitter for given global variables, with slots that fit in an operand, whose captures are marked further
out. -/
structure Linked (globals : GlobalTable) (emitter : Emitter) : Prop where
  table : emitter.globals = globals
  fits : ∀ (id : BindingId) (slot : Nat), globals.slots[id]? = some slot → slot ≤ maxOperand
  linked : FunctionCode.Linked emitter.current emitter.enclosing

/-- A step keeps what was made before and makes some functions. -/
structure Provides (globals : GlobalTable) (step : Emit α) (made : List (Location × Function)) : Prop where
  provides : ∀ {emitter final : Emitter} {value : α}, Linked globals emitter → step emitter = .ok (value, final) →
    Linked globals final ∧ (∀ function ∈ emitter.current.chunk.functions, function ∈ final.current.chunk.functions) ∧
      ∀ function ∈ made, final.current.chunk.Provides globals function

section Provided

variable {made more : List (Location × Function)}

theorem Linked.quiet {before after : Emitter} (hlinked : Linked globals before) (hquiet : Quiet before after) :
    Linked globals after := by
  refine ⟨hquiet.globals.trans hlinked.table, hlinked.fits, ?_⟩
  rw [hquiet.enclosing]
  exact hlinked.linked.of_captures hquiet.captures

theorem IsQuiet.provides (hstep : IsQuiet step) : Provides globals step [] where
  provides hlinked hrun := by
    have hquiet := hstep.quiet hrun
    exact ⟨hlinked.quiet hquiet, fun function h => hquiet.functions ▸ h, fun function h => by cases h⟩

/-- What two steps make one after the other. -/
theorem Provides.bind (hstep : Provides globals step made) (hnext : ∀ value, Provides globals (next value) more) :
    Provides globals (step >>= next) (made ++ more) where
  provides hlinked hrun := by
    obtain ⟨value, middle, hfirst, hrest⟩ := bind_eq_ok.mp hrun
    obtain ⟨hmiddle, hkept, hmade⟩ := hstep.provides hlinked hfirst
    obtain ⟨hfinal, hkept', hmore⟩ := (hnext value).provides hmiddle hrest
    refine ⟨hfinal, fun function h => hkept' function (hkept function h), fun function h => ?_⟩
    rcases List.mem_append.mp h with h | h
    · obtain ⟨prototype, hnests, hmadeFor⟩ := hmade function h
      exact ⟨prototype, hnests.mono hkept', hmadeFor⟩
    · exact hmore function h

/-- A quiet step goes first. -/
theorem IsQuiet.before (hstep : IsQuiet step) (hnext : ∀ value, Provides globals (next value) more) :
    Provides globals (step >>= next) more :=
  hstep.provides.bind hnext

/-- A step that makes nothing comes last. -/
theorem Provides.followed (hstep : Provides globals step made) (hnext : ∀ value, Provides globals (next value) []) :
    Provides globals (step >>= next) made := by
  have h := hstep.bind hnext
  rwa [List.append_nil] at h

/-- A quiet step comes last. -/
theorem Provides.after (hstep : Provides globals step made) (hnext : ∀ value, IsQuiet (next value)) :
    Provides globals (step >>= next) made :=
  hstep.followed fun value => (hnext value).provides

/-- A quiet step goes first if something is the case. -/
theorem Provides.whether {condition : Prop} [Decidable condition] {first : Emit PUnit} {rest : PUnit → Emit β}
    (hfirst : IsQuiet first) (hrest : ∀ value, Provides globals (rest value) made) :
    Provides globals (if condition then (do
      let value ← first
      rest value) else rest ⟨⟩) made := by
  split
  · exact hfirst.before hrest
  · exact hrest _

theorem provides_pure {value : α} : Provides globals (pure value : Emit α) [] :=
  quiet_pure.provides

theorem provides_captureOf {id : BindingId} : Provides globals (captureOf? id) [] where
  provides {emitter final value} hlinked hrun := by
    unfold captureOf? at hrun
    rw [get_bind] at hrun
    cases hresolved : emitter.current.resolveCapture id emitter.enclosing with
    | error fault =>
      rw [hresolved] at hrun
      cases hrun
    | ok found =>
      rw [hresolved] at hrun
      cases found with
      | none =>
        cases hrun
        exact ⟨hlinked, fun _ h => h, fun _ h => by cases h⟩
      | some found =>
        obtain ⟨index, current, enclosing⟩ := found
        cases hrun
        obtain ⟨hcurrent, -, -, hlink⟩ := FunctionCode.resolveCapture_spec hresolved
        refine ⟨⟨hlinked.table, hlinked.fits, hlink hlinked.linked⟩, fun function h => ?_, fun _ h => by cases h⟩
        change function ∈ current.chunk.functions
        rwa [hcurrent.chunk]

/-- An access may capture a variable from further out. -/
theorem provides_access {resolution : Resolution} {how : Access} :
    Provides globals (access resolution how location) [] := by
  unfold access
  split
  · exact quiet_throw.provides
  · split
    · exact (quiet_globalSlot.bind fun _ => quiet_opShort).provides
    · refine quiet_get.before fun emitter => ?_
      split
      · exact quiet_opShort.provides
      · refine provides_captureOf.after fun found => ?_
        split
        · exact quiet_opShort
        · exact quiet_throw

/-- A function is made when its clauses are, and what they make is inside. -/
theorem provides_function {nesting : Nat} {name : String} {isProc : Bool} {clauses : List Clause}
    (hclauses : Provides globals (compileClauses nesting location clauses) made) :
    Provides globals (compileFunction nesting location ⟨name, isProc, clauses⟩)
      ((location, ⟨name, isProc, clauses⟩) :: made) where
  provides {emitter final value} hlinked hrun := by
    obtain ⟨⟨⟩, entered, henter, hrest⟩ := bind_eq_ok.mp hrun
    cases henter
    obtain ⟨⟨⟩, inside, hinside, hrest⟩ := bind_eq_ok.mp hrest
    let stage : Stage globals :=
      { emitter := { emitter with current := {}, enclosing := emitter.current :: emitter.enclosing }
        draft := .empty
        globals_eq := hlinked.table
        chunk_eq := Draft.chunk_empty
        tidy := ⟨⟨trivial, .nil, fun _ h => (by cases h), Nat.zero_le _⟩,
          ⟨fun _ h => absurd h (Array.not_mem_empty _), hlinked.linked⟩,
          fun id slot h => hlinked.fits id slot (hlinked.table ▸ h)⟩ }
    have hstart : Linked globals stage.emitter := ⟨stage.globals_eq, hlinked.fits, stage.tidy.linked⟩
    obtain ⟨inner, hinner, -, hsuspended, hcode⟩ :=
      @laid_clauses globals False nesting location clauses False.elim stage _ hinside
    cases hinner
    obtain ⟨-, -, hmade⟩ := hclauses.provides hstart hinside
    replace hrest := Stage.run_op_after none hrest
    let ended := inner.op .noMatchingOverload location none
    have hself := Draft.completes_self False ended.draft
    have hbody := hcode _ ((inner.extends_op ..).draft.completes _ hself)
    have hnone :
      Listing.Has ⟨ended.draft.chunk, ended.draft.heights⟩ inner.size none .noMatchingOverload 0 0 location :=
      Stage.has_op rfl hself
    have hlast : ended.emitter.current.chunk.functions = inner.emitter.current.chunk.functions := by
      rw [← ended.chunk_eq, ← inner.chunk_eq]
      rfl
    have hsuspended : List.Forall₂ FunctionCode.Suspended (emitter.current :: emitter.enclosing)
        ended.emitter.enclosing := hsuspended
    have hchunk := ended.chunk_eq
    have hlinks : FunctionCode.Linked ended.emitter.current ended.emitter.enclosing := ended.tidy.linked
    have htable : ended.emitter.globals = globals := ended.globals_eq
    unfold exitFunction at hrest
    rw [get_bind] at hrest
    obtain ⟨⟨⟩, resumed, hresume, hrest⟩ := bind_eq_ok.mp hrest
    obtain ⟨index, built, hbuilt, hrest⟩ := bind_eq_ok.mp hrest
    have hquiet := quiet_opIndex.quiet hrest
    generalize ended.emitter = last at *
    obtain ⟨table, current, enclosing⟩ := last
    cases hsuspended with
    | @cons _ outer _ rest houter hothers =>
      cases hresume
      cases hbuilt
      let prototype : Prototype :=
        { name := if name.isEmpty then "<lambda>" else name, isProc, captures := current.captures,
          chunk := some current.chunk, maxSlots := current.maxLocals }
      have hfunctions : final.current.chunk.functions = emitter.current.chunk.functions.push (some prototype) := by
        rw [hquiet.functions, ← houter.chunk]
      have hnew : some prototype ∈ final.current.chunk.functions := by
        rw [hfunctions]
        exact Array.mem_push_self
      have hfinal : Linked globals final := by
        refine Linked.quiet ?_ hquiet
        exact ⟨htable, hlinked.fits, hlinks.2.of_captures rfl⟩
      refine ⟨hfinal, fun function h => ?_, fun function h => ?_⟩
      · rw [hfunctions]
        exact Array.mem_push_of_mem _ h
      · rcases List.mem_cons.mp h with rfl | h
        · refine ⟨prototype, .here hnew, rfl, _, .intro ?_ hbody hnone⟩
          exact congrArg some hchunk.symm
        · obtain ⟨deeper, hnests, hmadeFor⟩ := hmade function h
          refine ⟨deeper, .inside hnew rfl (hnests.mono fun function h => ?_), hmadeFor⟩
          rwa [hlast]

/-- One turn of a loop makes what its body makes. -/
theorem provides_loopTurn {start : Nat} {body between : Emit Unit} (hbody : Provides globals body made)
    (hbetween : IsQuiet between) : Provides globals (loopTurn start body between location) made :=
  quiet_enterScope.before fun _ => hbody.after fun _ => quiet_exitScope.bind fun _ => quiet_landSkipping.bind fun _ =>
    hbetween.bind fun _ => quiet_back

/-- An arm makes what its guard and its body make. -/
theorem provides_patternArm {slot : Nat} {pattern : Option Pattern} {hasGuard : Bool} {guard body : Emit Unit}
    (hguard : Provides globals guard made) (hnone : hasGuard = false → made = [])
    (hbody : Provides globals body more) :
    Provides globals (patternArm slot location pattern hasGuard guard body) (made ++ more) := by
  refine (quiet_withChunk fun _ => rfl).before fun _ => quiet_opIndex.before fun _ => quiet_short.before fun _ =>
    quiet_jump.before fun _ => quiet_op.before fun _ => quiet_enterScope.before fun _ => quiet_get.before fun _ =>
    quiet_declareVariables.before fun _ => ?_
  have hrest {rest : Option Nat → Emit Nat} (hrest : ∀ place, Provides globals (rest place) more) :
      Provides globals (if hasGuard = true then (do
        guard
        let place ← jump .jumpIfFalse location
        op .pop location
        let noGuard ← pure (some place)
        rest noGuard) else do
        let noGuard ← pure none
        rest noGuard) (made ++ more) := by
    split
    · exact hguard.bind fun _ => quiet_jump.before fun _ => quiet_op.before fun _ => quiet_pure.before hrest
    · rename_i hplain
      rw [hnone (Bool.eq_false_iff.mpr hplain)]
      exact quiet_pure.before hrest
  refine hrest fun place => hbody.after fun _ => quiet_localsFrom.bind fun _ => quiet_exitScope.bind fun _ =>
    quiet_jump.bind fun _ => ?_
  cases place with
  | some place =>
    exact quiet_land.bind fun _ => quiet_op.bind fun _ => quiet_drops.bind fun _ => quiet_jump.bind fun _ =>
      quiet_land.bind fun _ => quiet_op.bind fun _ => quiet_land.bind fun _ => quiet_pure
  | none => exact quiet_land.bind fun _ => quiet_op.bind fun _ => quiet_pure

mutual

theorem provides_expr (nesting : Nat) (expr : Expr) : Provides globals (compileExpr nesting expr) expr.functions := by
  cases expr with
  | absent => exact provides_pure
  | literal => exact (quiet_deeper.bind fun _ => quiet_literal).provides
  | name => exact quiet_deeper.before fun _ => provides_access
  | unary _ _ operand => exact quiet_deeper.before fun _ => (provides_expr _ operand).after fun _ => quiet_op
  | binary _ operator left right =>
    refine quiet_deeper.before fun _ => (provides_expr _ left).bind fun _ => ?_
    split
    · exact quiet_jump.before fun _ => quiet_op.before fun _ => (provides_expr _ right).after fun _ => quiet_land
    · exact (provides_expr _ right).after fun _ => quiet_op
  | call _ callee arguments =>
    exact quiet_deeper.before fun _ => (provides_expr _ callee).bind fun _ =>
      (provides_exprs _ arguments).after fun _ => quiet_opIndex
  | field _ object _ => exact quiet_deeper.before fun _ => (provides_expr _ object).after fun _ => quiet_onString
  | index _ object index =>
    exact quiet_deeper.before fun _ => (provides_expr _ object).bind fun _ =>
      (provides_expr _ index).after fun _ => quiet_op
  | record _ fields =>
    refine quiet_deeper.before fun _ => (provides_fields _ fields).after fun _ => IsQuiet.bind ?_ fun _ => quiet_opIndex
    exact quiet_withChunk fun chunk => by unfold Chunk.addShape; split <;> rfl
  | array _ items => exact quiet_deeper.before fun _ => (provides_exprs _ items).after fun _ => quiet_opIndex
  | lambda location function => exact quiet_deeper.before fun _ => provides_closure _ location function
  | borrow _ target _ => exact quiet_deeper.before fun _ => provides_expr _ target
  | move => exact quiet_deeper.before fun _ => provides_access
  | deref _ operand => exact quiet_deeper.before fun _ => provides_expr _ operand
termination_by structural expr

theorem provides_exprs (nesting : Nat) (exprs : List Expr) :
    Provides globals (compileExprs nesting exprs) (Expr.allFunctions exprs) := by
  cases exprs with
  | nil => exact provides_pure
  | cons expr rest => exact (provides_expr _ expr).bind fun _ => provides_exprs _ rest
termination_by structural exprs

theorem provides_fields (nesting : Nat) (fields : List (String × Expr)) :
    Provides globals (compileFields nesting fields) (Expr.fieldFunctions fields) := by
  cases fields with
  | nil => exact provides_pure
  | cons field rest =>
    obtain ⟨name, value⟩ := field
    exact (provides_expr _ value).bind fun _ => provides_fields _ rest
termination_by structural fields

theorem provides_stmt (nesting : Nat) (stmt : Stmt) : Provides globals (compileStmt nesting stmt) stmt.functions := by
  cases stmt with
  | absent => exact provides_pure
  | declare location _ initial resolution =>
    refine quiet_deeper.before fun _ => ?_
    split
    · cases initial with
      | absent => exact provides_pure
      | _ => exact (provides_expr _ _).after fun _ => quiet_defineGlobal
    · exact .whether quiet_op fun _ => (provides_expr _ initial).after fun _ =>
        quiet_declareLocal.bind fun _ => quiet_pure
  | assign _ _ value _ =>
    exact quiet_deeper.before fun _ => (provides_expr _ value).followed fun _ => provides_access.after fun _ => quiet_op
  | assignField _ object _ value =>
    exact quiet_deeper.before fun _ => (provides_expr _ object).bind fun _ => (provides_expr _ value).after fun _ =>
      quiet_onString.bind fun _ => quiet_op
  | assignIndex _ object index value =>
    exact quiet_deeper.before fun _ => (provides_expr _ object).bind fun _ => (provides_expr _ index).bind fun _ =>
      (provides_expr _ value).after fun _ => quiet_op.bind fun _ => quiet_op
  | evaluate _ expression | print _ expression =>
    exact quiet_deeper.before fun _ => (provides_expr _ expression).after fun _ => quiet_op
  | block _ body =>
    exact quiet_deeper.before fun _ => quiet_enterScope.before fun _ => (provides_stmts _ body).after fun _ =>
      quiet_exitScope
  | ifElse _ condition yes no =>
    exact quiet_deeper.before fun _ => (provides_expr _ condition).bind fun _ => quiet_jump.before fun _ =>
      quiet_op.before fun _ => (provides_stmt _ yes).bind fun _ => quiet_jump.before fun _ => quiet_land.before fun _ =>
      quiet_op.before fun _ => (provides_stmt _ no).after fun _ => quiet_land
  | cond location scrutinee arms =>
    cases scrutinee with
    | absent => exact quiet_deeper.before fun _ => provides_guardedArms _ location arms []
    | _ =>
      exact quiet_deeper.before fun _ => quiet_enterScope.before fun _ => (provides_expr _ _).bind fun _ =>
        quiet_declareLocal.before fun _ => (provides_patternArms _ location _ arms []).after fun _ => quiet_exitScope
  | whileLoop _ condition body =>
    exact quiet_deeper.before fun _ => quiet_enterLoop.before fun _ => quiet_position.before fun _ =>
      (provides_expr _ condition).bind fun _ => quiet_jump.before fun _ => quiet_op.before fun _ =>
      (provides_loopTurn (provides_stmt _ body) quiet_pure).after fun _ => quiet_land.bind fun _ =>
        quiet_op.bind fun _ =>
      quiet_exitLoop
  | forLoop _ _ binding first bound body =>
    refine quiet_deeper.before fun _ => quiet_enterScope.before fun _ => (provides_expr _ first).bind fun _ =>
      quiet_declareLocal.before fun _ => (provides_expr _ bound).bind fun _ => quiet_declareLocal.before fun _ =>
      quiet_enterLoop.before fun _ => quiet_position.before fun _ => quiet_opShort.before fun _ =>
      quiet_opShort.before fun _ => quiet_op.before fun _ => quiet_jump.before fun _ => quiet_op.before fun _ =>
      (provides_loopTurn ?_ ?_).after fun _ => quiet_land.bind fun _ => quiet_op.bind fun _ =>
        quiet_exitLoop.bind fun _ =>
      quiet_exitScope
    · exact quiet_opShort.before fun _ => quiet_declareLocal.before fun _ => provides_stmt _ body
    · exact quiet_opShort.bind fun _ => quiet_constant.bind fun _ => quiet_op.bind fun _ => quiet_opShort.bind fun _ =>
        quiet_op
  | forever _ body =>
    exact quiet_deeper.before fun _ => quiet_enterLoop.before fun _ => quiet_position.before fun _ =>
      (provides_loopTurn (provides_stmt _ body) quiet_pure).after fun _ => quiet_exitLoop
  | leave => exact (quiet_deeper.bind fun _ => quiet_jumpFromLoop).provides
  | skip => exact (quiet_deeper.bind fun _ => quiet_jumpFromLoop).provides
  | giveBack _ value =>
    exact quiet_deeper.before fun _ => .whether quiet_op fun _ => (provides_expr _ value).after fun _ => quiet_op
  | disown => exact quiet_deeper.before fun _ => provides_access.after fun _ => quiet_op
  | function location declaration resolution =>
    refine quiet_deeper.before fun _ => ?_
    rw [Stmt.functions]
    split
    · exact provides_pure
    · exact quiet_declareLocal.before fun _ => provides_closure _ location declaration
termination_by structural stmt

theorem provides_stmts (nesting : Nat) (stmts : List Stmt) :
    Provides globals (compileStmts nesting stmts) (Stmt.allFunctions stmts) := by
  cases stmts with
  | nil => exact provides_pure
  | cons stmt rest => exact (provides_stmt _ stmt).bind fun _ => provides_stmts _ rest
termination_by structural stmts

theorem provides_guardedArms (nesting : Nat) (location : Location) (arms : List Arm) (done : List Nat) :
    Provides globals (compileGuardedArms nesting location arms done) (Arm.functions true arms) := by
  cases arms with
  | nil => exact (quiet_op.bind fun _ => quiet_landAll).provides
  | cons arm rest =>
    obtain ⟨place, pattern, guard, body⟩ := arm
    rw [Arm.functions, Arm.isLast, Bool.true_or, Bool.and_true]
    cases habsent : guard.isAbsent with
    | true =>
      obtain rfl := isAbsent_eq habsent
      simp only [compileGuardedArms, habsent, if_true, pure_bind]
      exact quiet_enterScope.before fun _ => (provides_stmts _ body).bind fun _ => quiet_exitScope.before fun _ =>
        quiet_jump.before fun _ => quiet_landAll.provides
    | false =>
      simp only [compileGuardedArms, habsent, Bool.false_eq_true, if_false, pure_bind]
      exact (provides_expr _ guard).bind fun _ => quiet_jump.before fun _ => quiet_op.before fun _ =>
        quiet_enterScope.before fun _ => (provides_stmts _ body).bind fun _ =>
        quiet_exitScope.before fun _ => quiet_jump.before fun _ => quiet_land.before fun _ => quiet_op.before fun _ =>
        provides_guardedArms _ location rest _
termination_by structural arms

theorem provides_patternArms (nesting : Nat) (location : Location) (slot : Nat) (arms : List Arm) (done : List Nat) :
    Provides globals (compilePatternArms nesting location slot arms done) (Arm.functions false arms) := by
  cases arms with
  | nil => exact (quiet_op.bind fun _ => quiet_landAll).provides
  | cons arm rest =>
    obtain ⟨place, pattern, guard, body⟩ := arm
    rw [Arm.functions, ← List.append_assoc, Arm.isLast, Bool.false_or]
    refine (provides_patternArm (provides_expr _ guard) (fun hplain => ?_) (provides_stmts _ body)).bind fun _ => ?_
    · obtain rfl := isAbsent_eq (by simpa using hplain)
      rfl
    · dsimp only
      split
      · exact quiet_landAll.provides
      · exact provides_patternArms _ location slot rest _
termination_by structural arms

theorem provides_closure (nesting : Nat) (location : Location) (function : Function) :
    Provides globals (compileFunction nesting location function) ((location, function) :: function.inner) := by
  obtain ⟨name, isProc, clauses⟩ := function
  exact provides_function (provides_clauses _ location clauses)
termination_by structural function

theorem provides_clauses (nesting : Nat) (location : Location) (clauses : List Clause) :
    Provides globals (compileClauses nesting location clauses) (Clause.functions clauses) := by
  cases clauses with
  | nil => exact provides_pure
  | cons clause rest =>
    obtain ⟨place, parameters, body⟩ := clause
    refine quiet_enterClause.before fun _ => quiet_declareParameters.before fun _ => IsQuiet.before ?_ fun _ =>
      quiet_opIndex.before fun _ => quiet_jump.before fun _ => quiet_op.before fun _ =>
        quiet_declareVariables.before fun _ =>
      (provides_stmts _ body).bind fun _ => quiet_op.before fun _ => quiet_op.before fun _ => quiet_land.before fun _ =>
      quiet_op.before fun _ => provides_clauses _ location rest
    exact quiet_withChunk fun _ => rfl
termination_by structural clauses

end

theorem provides_hoist (stmts : List Stmt) :
    Provides globals (hoistFunctions stmts) (stmts.flatMap Stmt.earlyFunctions) := by
  induction stmts with
  | nil => exact provides_pure
  | cons stmt rest ih =>
    cases stmt with
    | function location declaration resolution =>
      rw [List.flatMap_cons, Stmt.earlyFunctions]
      cases hglobal : resolution.isGlobal with
      | true =>
        simp only [hoistFunctions, hglobal, if_true]
        exact (provides_closure _ location declaration).bind fun _ => quiet_defineGlobal.before fun _ => ih
      | false =>
        simp only [hoistFunctions, hglobal, Bool.false_eq_true, if_false]
        exact ih
    | _ => exact ih

end Provided

end Emit

/-- Every function of a program that has code has a prototype in the unit: under its name, and laid out by its
rule. -/
theorem Program.compile_provides {program : Program} {unit : CodeUnit} (hcompile : program.compile = .ok unit) :
    ∃ (table : GlobalTable) (script : Prototype) (chunk : Chunk),
      GlobalTable.ofStatements {} program.statements = .ok table ∧ unit.script = some script ∧
      script.chunk = some chunk ∧ ∀ function ∈ program.functions, chunk.Provides table function := by
  unfold Program.compile at hcompile
  dsimp only at hcompile
  split at hcompile
  case isFalse => cases hcompile
  obtain ⟨table, htable, hcompile⟩ := except_bind_eq_ok.mp hcompile
  obtain ⟨⟨⟨⟩, final⟩, hrun, hdone⟩ := except_bind_eq_ok.mp hcompile
  cases hdone
  have hstart : Emit.Linked table { globals := table } :=
    ⟨rfl, (GlobalTable.fits_empty.ofStatements htable).tidy.globals, trivial⟩
  have hhalt : Emit.IsQuiet (Emit.op .halt {}) := Emit.quiet_op
  have hprovides := (@Emit.provides_hoist table program.statements).bind fun _ =>
    (Emit.provides_stmts 0 program.statements).after fun _ => hhalt
  exact ⟨table, _, _, htable, rfl, rfl, (hprovides.provides hstart hrun).2.2⟩

end OwnScript
