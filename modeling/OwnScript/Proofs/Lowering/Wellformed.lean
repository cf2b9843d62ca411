import OwnScript.Analysis.Check
import OwnScript.Proofs.Lowering.Construction

/-!
Generated code is well formed. Construction keeps the code of expressions, statements and functions in
order, whatever the program: every operand of finished code leads to an entry, a variable or an
instruction that is there. Verification of a generated unit therefore passes or finds fault with nesting.
-/

namespace OwnScript

namespace Emit

/-- A step keeps code in order, at a level of nesting that bounds the levels of functions to come. -/
def Keeps (nesting : Nat) (step : Emit Unit) : Prop :=
  ∀ c : Construction, maxSourceNesting ≤ c.levels + nesting → step.Ensures c.Holds fun _ => c.Holds

/-- A step keeps code in order that may jump out of the innermost loop. -/
def KeepsWithin (nesting : Nat) (step : Emit Unit) : Prop :=
  ∀ c : Construction, maxSourceNesting ≤ c.levels + nesting → step.Ensures c.HoldsWithin fun _ => c.HoldsWithin

variable {nesting : Nat} {location : Location} {c : Construction}

theorem Keeps.within {step : Emit Unit} (hstep : Keeps nesting step) : KeepsWithin nesting step :=
  fun c hlevels => Ensures.within (fun loops => hstep (c.within loops) hlevels) fun _ => rfl

section Within

theorem within_op {code : Opcode} (hcount : code.operandCount = 0) :
    (op code location).Ensures c.HoldsWithin fun _ => c.HoldsWithin :=
  Ensures.within (fun _ => ensures_op hcount) fun _ => rfl

theorem within_jump {code : Opcode} (hforward : code.isForward = true) :
    (jump code location).Ensures c.HoldsWithin fun place => (c.await place).HoldsWithin :=
  Ensures.within (fun _ => ensures_jump hforward) fun _ => rfl

theorem within_land {place : Nat} :
    (land place location).Ensures (c.await place).HoldsWithin fun _ => c.HoldsWithin :=
  Ensures.within (fun loops => ensures_land (c := c.within loops)) fun _ => rfl

theorem within_landAll {places : List Nat} :
    (landAll places location).Ensures (c.awaitAll places).HoldsWithin fun _ => c.HoldsWithin :=
  Ensures.within (fun loops => ensures_landAll (c := c.within loops)) fun _ => rfl

theorem within_enterScope : enterScope.Ensures c.HoldsWithin fun _ => c.HoldsWithin :=
  Ensures.within (fun _ => ensures_enterScope) fun _ => rfl

theorem within_exitScope : exitScope.Ensures c.HoldsWithin fun _ => c.HoldsWithin :=
  Ensures.within (fun _ => ensures_exitScope) fun _ => rfl

theorem within_declareLocal {binding : Option BindingId} :
    (declareLocal binding location).Ensures c.HoldsWithin fun slot => (c.withSlot slot).HoldsWithin :=
  Ensures.within (fun _ => ensures_declareLocal) fun _ => rfl

theorem within_getLocal {slot : Nat} (hslot : slot ∈ c.slots) :
    (opShort .getLocal slot location).Ensures c.HoldsWithin fun _ => c.HoldsWithin :=
  Ensures.within (fun loops => ensures_onLocal (c := c.within loops) (.inl rfl) hslot) fun _ => rfl

end Within

theorem ensures_deeper {α : Type} {next : Nat → Emit α} {before : Emitter → Prop} {after : α → Emitter → Prop}
    (hnext : nesting < maxSourceNesting → (next (nesting + 1)).Ensures before after) :
    Ensures (deeper nesting location >>= next) before after := by
  intro emitter hbefore value final hrun
  obtain ⟨deep, middle, hdeeper, hrun⟩ := bind_eq_ok.mp hrun
  obtain ⟨hallowed, hdone⟩ := limit_eq_ok hdeeper
  cases hdone
  exact hnext (Nat.lt_of_not_le hallowed) emitter hbefore value final hrun

/-- A construct a level deeper. -/
theorem keeps_deeper {next : Nat → Emit Unit}
    (hnext : nesting < maxSourceNesting → Keeps (nesting + 1) (next (nesting + 1))) :
    Keeps nesting (deeper nesting location >>= next) :=
  fun c hlevels => ensures_deeper fun hallowed => hnext hallowed c (by omega)

theorem keepsWithin_deeper {next : Nat → Emit Unit}
    (hnext : nesting < maxSourceNesting → KeepsWithin (nesting + 1) (next (nesting + 1))) :
    KeepsWithin nesting (deeper nesting location >>= next) :=
  fun c hlevels => ensures_deeper fun hallowed => hnext hallowed c (by omega)

theorem Keeps.bind {first : Emit Unit} {next : Unit → Emit Unit} (hfirst : Keeps nesting first)
    (hnext : ∀ value, Keeps nesting (next value)) : Keeps nesting (first >>= next) :=
  fun c hlevels => (hfirst c hlevels).bind fun value => hnext value c hlevels

theorem KeepsWithin.bind {first : Emit Unit} {next : Unit → Emit Unit} (hfirst : KeepsWithin nesting first)
    (hnext : ∀ value, KeepsWithin nesting (next value)) : KeepsWithin nesting (first >>= next) :=
  fun c hlevels => (hfirst c hlevels).bind fun value => hnext value c hlevels

theorem keeps_op {code : Opcode} (hcount : code.operandCount = 0) : Keeps nesting (op code location) :=
  fun _ _ => ensures_op hcount

theorem keeps_access {resolution : Resolution} {how : Access} : Keeps nesting (access resolution how location) :=
  fun _ _ => ensures_access

theorem keeps_pure : Keeps nesting (pure ()) :=
  fun _ _ => ensures_pure fun _ h => h

theorem keeps_shape {names : List String} {what : String} :
    Keeps nesting (withChunk (·.addShape names) >>= fun index => opIndex .record index location what) := by
  refine fun c _ => ensures_indexed ⟨fun _ => Chunk.code_addShape _, fun _ => Chunk.locations_addShape _,
    fun chunk => ?_, fun chunk => ?_⟩ rfl fun chunk reach lands offset => ?_
  · exact (Chunk.tablesBegin_addShape (.refl _)).1
  · unfold Chunk.addShape
    split <;> rfl
  · obtain ⟨hindex, -⟩ :=
      Array.getElem?_eq_some_iff.mp (Chunk.tablesBegin_addShape (.refl (chunk.addShape names).1)).2
    exact hindex

/-- A step that may be left out. -/
theorem keeps_optional {condition : Prop} [Decidable condition] {step : Emit Unit} (hstep : Keeps nesting step)
    {next : Emit Unit} (hnext : KeepsWithin nesting next) :
    KeepsWithin nesting (do
      if condition then step
      next) := by
  by_cases h : condition
  · rw [if_pos h]
    exact hstep.within.bind fun _ => hnext
  · rw [if_neg h]
    exact hnext

theorem keeps_declareLocal {binding : Option BindingId} :
    KeepsWithin nesting (do
      let _ ← declareLocal binding location) := by
  refine fun c _ => within_declareLocal.bind fun slot => ensures_pure fun emitter h => ?_
  exact h.forget (le_refl _) (Set.subset_insert ..)

section Loops

variable {after : Unit → Emitter → Prop} {loop : LoopJumps} {outer : List LoopJumps} {start : Nat}

/-- A loop is opened, and its start is a place to come back to. -/
theorem ensures_opened {rest : Nat → Emit Unit}
    (hrest : ∀ loop outer start, LoopsGrow c.loops outer →
      (rest start).Ensures (c.looping loop outer start).HoldsWithin after) :
    Ensures (enterLoop >>= fun _ => position >>= rest) c.HoldsWithin after := by
  refine ensures_enterLoop.bind fun _ emitter ⟨loop, outer, hgrow, h⟩ => ?_
  have hposition : position.Ensures (Construction.HoldsWithin { c with loops := loop :: outer })
      fun start => (c.looping loop outer start).HoldsWithin :=
    Ensures.within (fun _ => ensures_position) fun _ => rfl
  exact hposition.bind (fun start => hrest loop outer start hgrow) emitter h

/-- A loop is left for good. -/
theorem ensures_closed (hgrow : LoopsGrow c.loops outer) {last : LoopJumps} :
    (exitLoop location).Ensures ((c.looping loop outer start).closing last outer).Holds
      fun _ => c.HoldsWithin :=
  ensures_exitLoop.imp fun _ _ h => ⟨outer, hgrow, h.forget (Set.subset_insert ..) (le_refl _)⟩

/-- A turn of a loop with a test in front of it, which has been made. -/
theorem ensures_testedTurn {body between next : Emit Unit} (hloops : c.loops = loop :: outer)
    (hstart : start ∈ c.marks)
    (hbody : ∀ done, body.Ensures (c.await done).HoldsWithin fun _ => (c.await done).HoldsWithin)
    (hbetween : ∀ d : Construction, d.slots = c.slots → d.levels = c.levels →
      between.Ensures d.Holds fun _ => d.Holds)
    (hnext : ∀ last, next.Ensures (c.closing last outer).Holds after) :
    Ensures (do
      let done ← jump .jumpIfFalse location
      op .pop location
      loopTurn start body between location
      land done location
      op .pop location
      next) c.HoldsWithin after := by
  refine (within_jump rfl).bind fun done => (within_op rfl).bind fun _ => ?_
  refine (ensures_loopTurn (c := c.await done) hloops hstart (hbody done)
    fun last => hbetween _ rfl rfl).bind fun _ => ?_
  refine ensures_exists fun last => ?_
  rw [Construction.closing_await]
  exact ensures_land.bind fun _ => (ensures_op rfl).bind fun _ => hnext last

end Loops

theorem keeps_clause {matchers : List Matcher} {what : String} :
    Keeps nesting (withChunk (·.addClause matchers) >>= fun index => opIndex .matchArgs index location what) := by
  refine fun c _ => ensures_indexed ⟨fun _ => rfl, fun _ => rfl, fun chunk => ?_, fun _ => rfl⟩ rfl
    fun chunk reach lands offset => ?_
  · exact (Chunk.tablesBegin_addClause (.refl _)).1
  · change chunk.clauses.size < (chunk.clauses.push matchers).size
    rw [Array.size_push]
    exact Nat.lt_succ_self _

theorem within_enterClause (hloops : c.loops = []) : enterClause.Ensures c.HoldsWithin fun _ => c.HoldsWithin := by
  rintro emitter ⟨loops, hgrow, h⟩ value final hrun
  rw [hloops] at hgrow
  cases hgrow
  have hclause : enterClause.Ensures (c.within []).Holds fun _ => (c.within []).Holds := by
    refine ensures_modifyCurrent (fun _ => ⟨rfl, rfl, rfl⟩) (fun _ _ => ?_) fun _ => ?_
    · rfl
    · exact List.nil_subset _
  exact ⟨[], hloops ▸ .same, hclause emitter h value final hrun⟩

/-- The test of a pattern, and what comes behind it. -/
theorem within_matchValue {α : Type} {slot : Nat} (hslot : slot ∈ c.slots) {matcher : Matcher} {what : String}
    {next : Emit α} {after : α → Emitter → Prop} (hnext : next.Ensures c.HoldsWithin after) :
    Ensures (do
      let index ← withChunk (·.addMatcher matcher)
      opIndex .matchValue index location what
      short slot location
      next) c.HoldsWithin after := by
  rintro emitter ⟨loops, hgrow, h⟩ value final hrun
  obtain ⟨index, tabled, htabled, hrun⟩ := bind_eq_ok.mp hrun
  cases htabled
  obtain ⟨⟨⟩, written, hop, hrun⟩ := bind_eq_ok.mp hrun
  obtain ⟨hfits, hwritten⟩ := limit_eq_ok hop
  cases hwritten
  obtain ⟨⟨⟩, written, hshort, hrun⟩ := bind_eq_ok.mp hrun
  cases hshort
  have htabled : (c.within loops).Holds (emitter.withChunk (emitter.current.chunk.addMatcher matcher).1) :=
    h.retable rfl rfl (Chunk.tablesBegin_addMatcher (.refl _)).1 fun function hfunction => .inl hfunction
  have hlt : slot < emitter.current.maxLocals := h.slots slot hslot
  have hfew : emitter.current.maxLocals ≤ maxOperand := h.chained.roomy.few
  have hcount : Opcode.operandCount .matchValue = 2 := rfl
  obtain ⟨happends, hinstruction⟩ :=
    Chunk.appends_opShortShort hcount (Nat.le_of_not_lt hfits) (by omega : slot ≤ maxOperand)
  refine hnext _ ⟨loops, hgrow, htabled.append happends hinstruction ⟨?_, hlt⟩⟩ _ _ hrun
  change emitter.current.chunk.matchers.size < (emitter.current.chunk.matchers.push matcher).size
  rw [Array.size_push]
  exact Nat.lt_succ_self _

theorem ensures_get {α : Type} {next : Emitter → Emit α} {before : Emitter → Prop} {after : α → Emitter → Prop}
    (hnext : ∀ state, (next state).Ensures before after) : Ensures (get >>= next) before after :=
  fun emitter hbefore => hnext emitter emitter hbefore

theorem within_declareVariables {vars : List Pattern.Variable} :
    (declareVariables vars).Ensures c.HoldsWithin fun _ => c.HoldsWithin :=
  Ensures.within (fun _ => ensures_declareVariables) fun _ => rfl

theorem within_localsFrom {slot count : Nat} :
    (localsFrom slot count).Ensures c.HoldsWithin fun _ => c.HoldsWithin :=
  Ensures.within (fun _ => ensures_localsFrom) fun _ => rfl

theorem keeps_patternArm {slot : Nat} (hslot : slot ∈ c.slots) {pattern : Option Pattern} {hasGuard : Bool}
    {guard body : Emit Unit} (hguard : KeepsWithin nesting guard) (hbody : KeepsWithin nesting body)
    (hlevels : maxSourceNesting ≤ c.levels + nesting) :
    (patternArm slot location pattern hasGuard guard body).Ensures c.HoldsWithin
      fun done => (c.await done).HoldsWithin := by
  cases hasGuard with
  | false =>
    simp only [patternArm, pure_bind, if_neg Bool.false_ne_true]
    refine within_matchValue hslot ((within_jump rfl).bind fun noMatch => (within_op rfl).bind fun _ => ?_)
    refine within_enterScope.bind fun _ => ensures_get fun _ => within_declareVariables.bind fun _ => ?_
    refine (hbody (c.await noMatch) hlevels).bind fun _ => within_localsFrom.bind fun _ => ?_
    refine within_exitScope.bind fun _ => (within_jump rfl).bind fun done => ?_
    rw [Construction.await_comm]
    exact within_land.bind fun _ => (within_op rfl).bind fun _ => ensures_pure fun _ h => h
  | true =>
    simp only [patternArm, pure_bind, if_true]
    refine within_matchValue hslot ((within_jump rfl).bind fun noMatch => (within_op rfl).bind fun _ => ?_)
    refine within_enterScope.bind fun _ => ensures_get fun _ => within_declareVariables.bind fun _ => ?_
    refine (hguard (c.await noMatch) hlevels).bind fun _ => (within_jump rfl).bind fun noGuard => ?_
    refine (within_op rfl).bind fun _ => (hbody ((c.await noMatch).await noGuard) hlevels).bind fun _ => ?_
    refine within_localsFrom.bind fun bound => within_exitScope.bind fun _ => (within_jump rfl).bind fun done => ?_
    rw [Construction.await_comm]
    refine within_land.bind fun _ => (within_op rfl).bind fun _ => ?_
    refine (Ensures.within (fun _ => ensures_drops) fun _ => rfl).bind fun _ => (within_jump rfl).bind fun next => ?_
    rw [c.await_comm, Construction.await_comm]
    refine within_land.bind fun _ => (within_op rfl).bind fun _ => ?_
    exact within_land.bind fun _ => ensures_pure fun _ h => h

mutual

theorem keeps_expr (nesting : Nat) (expr : Expr) : Keeps nesting (compileExpr nesting expr) := by
  cases expr with
  | absent => exact keeps_pure
  | literal location value => exact keeps_deeper fun _ _ _ => ensures_literal
  | name identifier => exact keeps_deeper fun _ => keeps_access
  | unary location operator operand =>
    refine keeps_deeper fun _ => (keeps_expr _ operand).bind fun _ => keeps_op ?_
    cases operator <;> rfl
  | binary location operator left right =>
    refine keeps_deeper fun _ => (keeps_expr _ left).bind fun _ c hlevels => ?_
    refine ensures_ite (fun hlogical => ?_) fun hplain => ?_
    · have hforward : operator.opcode.isForward = true := by
        cases operator <;> first | rfl | cases hlogical
      refine (ensures_jump hforward).bind fun done => (ensures_op rfl).bind fun _ => ?_
      exact (keeps_expr _ right (c.await done) hlevels).bind fun _ => ensures_land
    · refine (keeps_expr _ right c hlevels).bind fun _ => ensures_op ?_
      cases operator <;> first | rfl | exact absurd rfl hplain
  | call location callee arguments =>
    refine keeps_deeper fun _ => (keeps_expr _ callee).bind fun _ => (keeps_exprs _ arguments).bind fun _ c _ => ?_
    exact ensures_opIndex rfl fun _ _ => trivial
  | field location object name =>
    exact keeps_deeper fun _ => (keeps_expr _ object).bind fun _ c _ => ensures_onString (.inr (.inl rfl))
  | index location object index =>
    exact keeps_deeper fun _ => (keeps_expr _ object).bind fun _ => (keeps_expr _ index).bind fun _ => keeps_op rfl
  | record location fields =>
    exact keeps_deeper fun _ => (keeps_fields _ fields).bind fun _ => keeps_shape
  | array location items =>
    refine keeps_deeper fun _ => (keeps_exprs _ items).bind fun _ c _ => ?_
    exact ensures_opIndex rfl fun _ _ => trivial
  | lambda location function =>
    exact fun c hlevels => ensures_deeper fun hallowed => keeps_function _ location function hallowed c (by omega)
  | borrow location target exclusive => exact keeps_deeper fun _ => keeps_expr _ target
  | move location target => exact keeps_deeper fun _ => keeps_access
  | deref location operand => exact keeps_deeper fun _ => keeps_expr _ operand
termination_by structural expr

theorem keeps_exprs (nesting : Nat) (exprs : List Expr) : Keeps nesting (compileExprs nesting exprs) := by
  cases exprs with
  | nil => exact keeps_pure
  | cons expr rest => exact (keeps_expr _ expr).bind fun _ => keeps_exprs _ rest
termination_by structural exprs

theorem keeps_fields (nesting : Nat) (fields : List (String × Expr)) :
    Keeps nesting (compileFields nesting fields) := by
  cases fields with
  | nil => exact keeps_pure
  | cons field rest =>
    obtain ⟨name, value⟩ := field
    exact (keeps_expr _ value).bind fun _ => keeps_fields _ rest
termination_by structural fields

theorem keeps_stmt (nesting : Nat) (stmt : Stmt) : KeepsWithin nesting (compileStmt nesting stmt) := by
  cases stmt with
  | absent => exact keeps_pure.within
  | declare location name initial resolution =>
    refine keepsWithin_deeper fun _ => ?_
    cases resolution.isGlobal with
    | true =>
      rw [if_pos rfl]
      cases hinitial : initial.isAbsent with
      | true => exact keeps_pure.within
      | false => exact ((keeps_expr _ initial).bind fun _ _ _ => ensures_defineGlobal).within
    | false =>
      exact keeps_optional (keeps_op rfl) ((keeps_expr _ initial).within.bind fun _ => keeps_declareLocal)
  | assign location name value resolution =>
    exact keepsWithin_deeper fun _ =>
      ((keeps_expr _ value).bind fun _ => keeps_access.bind fun _ => keeps_op rfl).within
  | assignField location object field value =>
    refine keepsWithin_deeper fun _ => Keeps.within ?_
    refine (keeps_expr _ object).bind fun _ => (keeps_expr _ value).bind fun _ c hlevels => ?_
    exact (ensures_onString (.inr (.inr rfl))).bind fun _ => ensures_op rfl
  | assignIndex location object index value =>
    refine keepsWithin_deeper fun _ => Keeps.within ?_
    refine (keeps_expr _ object).bind fun _ => (keeps_expr _ index).bind fun _ => (keeps_expr _ value).bind fun _ => ?_
    exact (keeps_op rfl).bind fun _ => keeps_op rfl
  | evaluate location expression =>
    exact keepsWithin_deeper fun _ => ((keeps_expr _ expression).bind fun _ => keeps_op rfl).within
  | print location expression =>
    exact keepsWithin_deeper fun _ => ((keeps_expr _ expression).bind fun _ => keeps_op rfl).within
  | block location body =>
    refine keepsWithin_deeper fun _ c hlevels => within_enterScope.bind fun _ => ?_
    exact (keeps_stmts _ body c hlevels).bind fun _ => within_exitScope
  | ifElse location condition yes no =>
    refine keepsWithin_deeper fun _ c hlevels => ((keeps_expr _ condition).within c hlevels).bind fun _ => ?_
    refine (within_jump rfl).bind fun otherwise => (within_op rfl).bind fun _ => ?_
    refine (keeps_stmt _ yes (c.await otherwise) hlevels).bind fun _ => (within_jump rfl).bind fun done => ?_
    rw [Construction.await_comm]
    refine within_land.bind fun _ => (within_op rfl).bind fun _ => ?_
    exact (keeps_stmt _ no (c.await done) hlevels).bind fun _ => within_land
  | cond location scrutinee arms =>
    cases habsent : scrutinee.isAbsent with
    | true =>
      obtain rfl := isAbsent_eq habsent
      refine keepsWithin_deeper fun _ c hlevels => ?_
      have harms := keeps_guardedArms (nesting + 1) location arms [] c hlevels
      rwa [Construction.awaitAll_nil] at harms
    | false =>
      have hunfold : compileStmt nesting (.cond location scrutinee arms) = (do
          let nesting ← deeper nesting location
          enterScope
          compileExpr nesting scrutinee
          let slot ← declareLocal none location
          compilePatternArms nesting location slot arms []
          exitScope) := by
        cases scrutinee <;> first | rfl | cases habsent
      rw [hunfold]
      refine keepsWithin_deeper fun _ c hlevels => within_enterScope.bind fun _ => ?_
      refine ((keeps_expr _ scrutinee).within c hlevels).bind fun _ => within_declareLocal.bind fun slot => ?_
      have harms := keeps_patternArms (nesting + 1) location slot arms [] (c.withSlot slot) (Set.mem_insert ..) hlevels
      rw [Construction.awaitAll_nil] at harms
      refine harms.bind fun _ => within_exitScope.imp fun _ emitter h => ?_
      exact h.forget (le_refl _) (Set.subset_insert ..)
  | whileLoop location condition body =>
    refine keepsWithin_deeper fun _ c hlevels => ensures_opened fun loop outer start hgrow => ?_
    refine ((keeps_expr _ condition).within (c.looping loop outer start) hlevels).bind fun _ => ?_
    exact ensures_testedTurn rfl (Set.mem_insert ..)
      (fun done => keeps_stmt _ body ((c.looping loop outer start).await done) hlevels)
      (fun d _ _ => ensures_pure fun _ h => h) fun last => ensures_closed hgrow
  | forLoop location counter binding first bound body =>
    refine keepsWithin_deeper fun _ c hlevels => within_enterScope.bind fun _ => ?_
    refine ((keeps_expr _ first).within c hlevels).bind fun _ => within_declareLocal.bind fun next => ?_
    refine ((keeps_expr _ bound).within (c.withSlot next) hlevels).bind fun _ => within_declareLocal.bind fun last => ?_
    have hlast : last ∈ ((c.withSlot next).withSlot last).slots := Set.mem_insert ..
    have hnext : next ∈ ((c.withSlot next).withSlot last).slots := Set.mem_insert_of_mem _ (Set.mem_insert ..)
    refine ensures_opened fun loop outer start hgrow => ?_
    let inside := ((c.withSlot next).withSlot last).looping loop outer start
    refine (within_getLocal (c := inside) hnext).bind fun _ => (within_getLocal (c := inside) hlast).bind fun _ => ?_
    refine (within_op rfl).bind fun _ => ensures_testedTurn rfl (Set.mem_insert ..) (fun done => ?_)
      (fun d hd _ => ?_) fun last => ?_
    · refine (within_getLocal (c := inside.await done) hnext).bind fun _ => within_declareLocal.bind fun slot => ?_
      refine (keeps_stmt _ body ((inside.await done).withSlot slot) hlevels).imp fun _ emitter h => ?_
      exact h.forget (le_refl _) (Set.subset_insert ..)
    · have hnext : next ∈ d.slots := hd ▸ hnext
      refine (ensures_onLocal (.inl rfl) hnext).bind fun _ => ensures_constant.bind fun _ =>
        (ensures_op rfl).bind fun _ => ?_
      exact (ensures_onLocal (.inr (.inl rfl)) hnext).bind fun _ => ensures_op rfl
    · refine (ensures_closed hgrow).bind fun _ => within_exitScope.imp fun _ emitter h => ?_
      exact h.forget (le_refl _) ((Set.subset_insert ..).trans (Set.subset_insert ..))
  | forever location body =>
    refine keepsWithin_deeper fun _ c hlevels => ensures_opened fun loop outer start hgrow => ?_
    refine (ensures_loopTurn (c := c.looping loop outer start) rfl (Set.mem_insert ..) (keeps_stmt _ body _ hlevels)
      fun last => ?_).bind fun _ => ?_
    · exact ensures_pure fun _ h => h
    · exact ensures_exists fun last => ensures_closed hgrow
  | leave location => exact keepsWithin_deeper fun _ _ _ => ensures_leaveLoop
  | skip location => exact keepsWithin_deeper fun _ _ _ => ensures_skipLoop
  | giveBack location value =>
    refine keepsWithin_deeper fun _ => keeps_optional (keeps_op rfl) ?_
    exact ((keeps_expr _ value).bind fun _ => keeps_op rfl).within
  | disown location name resolution =>
    exact keepsWithin_deeper fun _ => (keeps_access.bind fun _ => keeps_op rfl).within
  | function location declaration resolution =>
    refine fun c hlevels => ensures_deeper fun hallowed => ?_
    cases resolution.isGlobal with
    | true => exact ensures_pure fun _ h => h
    | false =>
      refine within_declareLocal.bind fun slot => ?_
      refine (Ensures.within (fun _ => keeps_function _ location declaration hallowed _ ?_) fun _ => rfl).imp
        fun _ emitter h => h.forget (le_refl _) (Set.subset_insert ..)
      change maxSourceNesting < c.levels + (nesting + 1)
      omega
termination_by structural stmt

theorem keeps_stmts (nesting : Nat) (stmts : List Stmt) : KeepsWithin nesting (compileStmts nesting stmts) := by
  cases stmts with
  | nil => exact keeps_pure.within
  | cons stmt rest => exact (keeps_stmt _ stmt).bind fun _ => keeps_stmts _ rest
termination_by structural stmts

theorem keeps_guardedArms (nesting : Nat) (location : Location) (arms : List Arm) (done : List Nat)
    (c : Construction) (hlevels : maxSourceNesting ≤ c.levels + nesting) :
    (compileGuardedArms nesting location arms done).Ensures (c.awaitAll done).HoldsWithin fun _ => c.HoldsWithin := by
  cases arms with
  | nil => exact (within_op rfl).bind fun _ => within_landAll
  | cons arm rest =>
    obtain ⟨place, pattern, guard, body⟩ := arm
    cases habsent : guard.isAbsent with
    | true =>
      simp only [compileGuardedArms, habsent, if_true, pure_bind]
      refine within_enterScope.bind fun _ => (keeps_stmts _ body (c.awaitAll done) hlevels).bind fun _ => ?_
      refine within_exitScope.bind fun _ => (within_jump rfl).bind fun finished => ?_
      rw [← Construction.awaitAll_cons]
      exact within_landAll
    | false =>
      simp only [compileGuardedArms, habsent, if_neg Bool.false_ne_true, pure_bind]
      refine ((keeps_expr _ guard).within (c.awaitAll done) hlevels).bind fun _ =>
        (within_jump rfl).bind fun failed => ?_
      refine (within_op rfl).bind fun _ => within_enterScope.bind fun _ => ?_
      refine (keeps_stmts _ body ((c.awaitAll done).await failed) hlevels).bind fun _ =>
        within_exitScope.bind fun _ => ?_
      refine (within_jump rfl).bind fun finished => ?_
      rw [Construction.await_comm, ← Construction.awaitAll_cons]
      refine within_land.bind fun _ => (within_op rfl).bind fun _ => ?_
      exact keeps_guardedArms _ location rest (finished :: done) c hlevels
termination_by structural arms

theorem keeps_patternArms (nesting : Nat) (location : Location) (slot : Nat) (arms : List Arm) (done : List Nat)
    (c : Construction) (hslot : slot ∈ c.slots) (hlevels : maxSourceNesting ≤ c.levels + nesting) :
    (compilePatternArms nesting location slot arms done).Ensures (c.awaitAll done).HoldsWithin fun _ =>
      c.HoldsWithin := by
  cases arms with
  | nil => exact (within_op rfl).bind fun _ => within_landAll
  | cons arm rest =>
    obtain ⟨place, pattern, guard, body⟩ := arm
    refine (keeps_patternArm (c := c.awaitAll done) hslot (keeps_expr _ guard).within
      (keeps_stmts _ body) hlevels).bind fun finished => ?_
    rw [← Construction.awaitAll_cons]
    refine ensures_ite (fun _ => within_landAll) fun _ => ?_
    exact keeps_patternArms _ location slot rest (finished :: done) c hslot hlevels
termination_by structural arms

theorem keeps_function (nesting : Nat) (location : Location) (function : Function)
    (hallowed : nesting ≤ maxSourceNesting) (c : Construction) (hlevels : maxSourceNesting < c.levels + nesting) :
    (compileFunction nesting location function).Ensures c.Holds fun _ => c.Holds := by
  obtain ⟨name, isProc, clauses⟩ := function
  have hless : maxSourceNesting - nesting < c.levels := by omega
  refine ensures_function hless fun inner hloops hinner => ?_
  exact keeps_clauses nesting location clauses inner hloops (by omega)
termination_by structural function

theorem keeps_clauses (nesting : Nat) (location : Location) (clauses : List Clause) (c : Construction)
    (hloops : c.loops = []) (hlevels : maxSourceNesting ≤ c.levels + nesting) :
    (compileClauses nesting location clauses).Ensures c.HoldsWithin fun _ => c.HoldsWithin := by
  cases clauses with
  | nil => exact ensures_pure fun _ h => h
  | cons clause rest =>
    obtain ⟨place, parameters, body⟩ := clause
    simp only [compileClauses]
    refine (within_enterClause hloops).bind fun _ => ?_
    refine (Ensures.within (fun _ => ensures_declareParameters) fun _ => rfl).bind fun declared => ?_
    refine (keeps_clause.within c hlevels).bind_two fun _ => (within_jump rfl).bind fun next => ?_
    refine (within_op rfl).bind fun _ => within_declareVariables.bind fun _ => ?_
    refine (keeps_stmts _ body (c.await next) hlevels).bind fun _ => (within_op rfl).bind fun _ => ?_
    refine (within_op rfl).bind fun _ => within_land.bind fun _ => (within_op rfl).bind fun _ => ?_
    exact keeps_clauses _ location rest c hloops hlevels
termination_by structural clauses

end

theorem ensures_hoistFunctions {stmts : List Stmt} (hlevels : maxSourceNesting < c.levels) :
    (hoistFunctions stmts).Ensures c.Holds fun _ => c.Holds := by
  induction stmts with
  | nil => exact ensures_pure fun _ h => h
  | cons stmt rest ih =>
    cases stmt with
    | function location declaration resolution =>
      unfold hoistFunctions
      cases resolution.isGlobal with
      | false => exact ih
      | true =>
        refine (keeps_function 0 location declaration (Nat.zero_le _) c hlevels).bind fun _ => ?_
        exact ensures_defineGlobal.bind fun _ => ih
    | _ => exact ih

end Emit

theorem Prototype.Built.depth_lt {globals slots captures levels depth : Nat} {prototype inner : Prototype}
    (hbuilt : prototype.Built globals slots captures levels) (hbelow : prototype.LiesBelow depth inner) :
    depth < levels := by
  induction hbuilt generalizing depth with
  | intro hchunk _ _ _ _ _ _ _ ih =>
    cases hbelow with
    | self => exact Nat.succ_pos _
    | inner hother hmem hbelow =>
      rw [hchunk] at hother
      cases hother
      exact Nat.succ_lt_succ (ih _ hmem hbelow)

namespace Program

variable {program : Program} {unit : CodeUnit}

/-- The functions of a unit are in order, with a limited number of levels. Hoisted functions do not count as
nested in the script, which adds a level to those that nesting allows. -/
theorem compile_built (hcompile : program.compile = .ok unit) : ∃ script, unit.script = some script ∧
    script.captures = #[] ∧ script.Built unit.globalNames.size 0 0 (maxSourceNesting + 2) := by
  unfold compile at hcompile
  dsimp only at hcompile
  split at hcompile
  case isFalse => cases hcompile
  obtain ⟨table, htable, hcompile⟩ := except_bind_eq_ok.mp hcompile
  obtain ⟨⟨⟨⟩, final⟩, hrun, hdone⟩ := except_bind_eq_ok.mp hcompile
  cases hdone
  let start : Construction :=
    { globals := table, outer := [], loops := [], jumps := ∅, pending := ∅, marks := ∅, slots := ∅
      levels := maxSourceNesting + 1 }
  have hstart : start.Holds { globals := table } := by
    refine ⟨rfl, GlobalTable.fits_empty.ofStatements htable, .nil, rfl,
      ⟨⟨fun _ h => (by cases h), Nat.zero_le _, Nat.zero_le _⟩, rfl⟩, fun _ h => h.elim, [], ?_, fun _ h => h.elim⟩
    change Chunk.Ordered {} _ _ (∅ ∪ ∅) _
    rw [Set.union_empty]
    exact Chunk.ordered_empty ..
  obtain ⟨⟨⟩, hoisted, hhoist, hrun⟩ := Emit.bind_eq_ok.mp hrun
  obtain ⟨⟨⟩, ended, hstmts, hhalt⟩ := Emit.bind_eq_ok.mp hrun
  cases hhalt
  have hhoisted : start.Holds hoisted := Emit.ensures_hoistFunctions (Nat.lt_succ_self _) _ hstart _ _ hhoist
  have hwithin : start.HoldsWithin hoisted := by
    refine Construction.Holds.within (hhoisted.regroup ?_)
    change ∅ ∪ placesOf [] = ∅ ∪ ∅
    rw [placesOf_nil]
  obtain ⟨loops, hgrow, hended⟩ := Emit.keeps_stmts 0 program.statements start (Nat.le_succ _) _ hwithin _ _ hstmts
  obtain rfl : loops = [] := by
    cases hgrow
    rfl
  obtain ⟨globals, current, enclosing⟩ := ended
  obtain rfl : enclosing = [] := by
    have houter := hended.outer
    cases houter
    rfl
  obtain rfl : globals = table := hended.globals
  have hcaptures : current.captures = #[] := hended.chained.2
  obtain ⟨starts, hordered, -⟩ := hended.code
  have hnone : (∅ : Set Nat) ∪ placesOf [] = ∅ := by rw [placesOf_nil, Set.union_empty]
  have hcount : Opcode.operandCount .halt = 0 := rfl
  have hbody : current.chunk.Ordered ⟨globals.names.size, current.maxLocals, 0⟩ (maxSourceNesting + 1) ∅ starts := by
    have hreach : (⟨globals.names.size, current.maxLocals, 0⟩ : Reach) =
        ⟨globals.names.size, current.maxLocals, current.captures.size⟩ := by rw [hcaptures, Array.size_empty]
    rw [hreach, ← hnone]
    exact hordered
  refine ⟨_, rfl, rfl, hbody.built (Chunk.appends_op hcount).1 hcount rfl rfl fun capture h => ?_⟩
  simp at h

/-- A unit passes verification, unless functions or patterns nest deeper than verification follows them. -/
theorem compile_verify (hcompile : program.compile = .ok unit) :
    unit.verify = .ok () ∨ ∃ diagnostic, Prototype.Overnested (maxSourceNesting + 2) (maxNesting + 1) diagnostic ∧
      unit.verify = .error diagnostic := by
  obtain ⟨script, hscript, hcaptures, hbuilt⟩ := compile_built hcompile
  obtain ⟨table, -, -, htable, -, hnames, hentries, -⟩ :=
    @compile_layout False _ (fun h => h.elim) _ hcompile
  have hversion : unit.version = formatVersion := by
    unfold compile at hcompile
    dsimp only at hcompile
    split at hcompile
    case isFalse => cases hcompile
    obtain ⟨table, -, hcompile⟩ := except_bind_eq_ok.mp hcompile
    obtain ⟨final, -, hdone⟩ := except_bind_eq_ok.mp hcompile
    cases hdone
    rfl
  have hfits := GlobalTable.fits_empty.ofStatements htable
  have hwithin : table.EntriesWithin := .ofStatements GlobalTable.fits_empty (fun _ _ h => by simp at h) htable
  have hfew : ¬ unit.globalNames.size > maxOperand + 1 := by
    rw [hnames]
    exact Nat.not_lt.mpr hfits.few
  have hscriptCaptures : script.CapturesWithin none := by
    intro capture hcapture
    simp [hcaptures] at hcapture
  unfold CodeUnit.verify
  rw [if_neg (not_not.mpr hversion), hscript]
  dsimp only
  rw [if_neg hfew]
  have hentry : ∀ entry ∈ unit.entryPoints.toList, entry.2 < unit.globalNames.size := by
    rintro ⟨name, slot⟩ hmem
    rw [hentries] at hmem
    rw [hnames]
    exact hwithin name slot (Std.TreeMap.mem_toList_iff_getElem?_eq_some.mp hmem)
  rw [forM_list_of fun entry hmem => if_pos (hentry entry hmem)]
  exact hbuilt.verify hscriptCaptures (maxNesting + 1)

/-- Code generation gives well formed units. Verification accepts a unit or complains about nesting; the
functions of the unit are in order all the way down, and the code is laid out as the statements ask for:
no operand has lost anything on its way into the code, and every jump leads where it is meant to. -/
theorem compile_wellFormed (hcompile : program.compile = .ok unit) :
    (unit.verify = .ok () ∨ ∃ (flaw : FunctionFlaw) (inner : Prototype),
      (flaw = .nesting ∨ flaw = .matcher ∨ flaw = .parameterMatcher) ∧
        unit.verify = .error (flaw.report inner 0)) ∧
    ∃ (table : GlobalTable) (script : Prototype) (F : Listing False) (levels : Nat),
      GlobalTable.ofStatements {} program.statements = .ok table ∧ unit.globalNames = table.names ∧
      unit.script = some script ∧ script.captures = #[] ∧ script.Built unit.globalNames.size 0 0 levels ∧
      ScriptCode table F script program.statements := by
  constructor
  · refine (compile_verify hcompile).imp_right ?_
    rintro ⟨_, ⟨flaw, inner, hnesting, -, rfl⟩, hverify⟩
    refine ⟨flaw, inner, ?_, hverify⟩
    cases flaw <;> first | exact .inl rfl | exact .inr (.inl rfl) | exact .inr (.inr rfl) | cases hnesting
  · obtain ⟨script, hscript, hcaptures, hbuilt⟩ := compile_built hcompile
    obtain ⟨table, laid, F, htable, hlaid, hnames, -, hcode⟩ :=
      @compile_layout False _ (fun h => h.elim) _ hcompile
    obtain rfl : laid = script := Option.some.inj (hlaid.symm.trans hscript)
    exact ⟨table, laid, F, _, htable, hnames, hscript, hcaptures, hbuilt, hcode⟩

/-- A function inside of another that gives back the argument of the outer one, a loop that is left at once, and a
call. -/
def pairOfFunctions : Program :=
  let second : Function := ⟨"second", true, [⟨{}, [], [.giveBack {} (.name ⟨{}, "x", {}⟩)]⟩]⟩
  let body : List Stmt := [.function {} second {}, .giveBack {} (.call {} (.name ⟨{}, "second", {}⟩) [])]
  { statements :=
      [.function {} ⟨"first", true, [⟨{}, [.bind {} "x" none], body⟩]⟩ {},
        .whileLoop {} (.literal {} (.scalar (.bool true))) (.leave {}),
        .print {} (.call {} (.name ⟨{}, "first", {}⟩) [.literal {} (.text "again")])] }

theorem compile_wellFormed_pairOfFunctions : pairOfFunctions.analyze.diagnostics = [] ∧
    ∃ unit, pairOfFunctions.analyze.program.compile = .ok unit ∧
      (unit.verify = .ok () ∨ ∃ (flaw : FunctionFlaw) (inner : Prototype),
        (flaw = .nesting ∨ flaw = .matcher ∨ flaw = .parameterMatcher) ∧
          unit.verify = .error (flaw.report inner 0)) := by
  have hok : pairOfFunctions.analyze.program.compile.toOption.isSome = true := by decide +kernel
  obtain ⟨unit, hunit⟩ := Option.isSome_iff_exists.mp hok
  have hcompile := except_of_toOption hunit
  exact ⟨by decide +kernel, unit, hcompile, (compile_wellFormed hcompile).1⟩

/-- Functions nest a level deeper than source nesting allows, and no more: global functions are compiled as if
they were not inside the script. -/
theorem compile_depth (hcompile : program.compile = .ok unit) {script inner : Prototype} {depth : Nat}
    (hscript : unit.script = some script) (hbelow : script.LiesBelow depth inner) :
    depth ≤ maxSourceNesting + 1 := by
  obtain ⟨_, hsame, -, hbuilt⟩ := compile_built hcompile
  obtain rfl := Option.some.inj (hsame.symm.trans hscript)
  exact Nat.le_of_lt_succ (hbuilt.depth_lt hbelow)

/-- Of the two functions the inner one lies below the other, and there are none deeper than the bound. -/
theorem compile_depth_pairOfFunctions : ∃ (unit : CodeUnit) (script : Prototype),
    pairOfFunctions.analyze.program.compile = .ok unit ∧ unit.script = some script ∧
      (∃ inner, script.LiesBelow 2 inner ∧ inner.name = "second") ∧
      ∀ depth inner, script.LiesBelow depth inner → depth ≤ maxSourceNesting + 1 := by
  have hok : (pairOfFunctions.analyze.program.compile.toOption.bind fun unit => unit.script.bind fun script =>
      script.chunk.bind fun chunk => chunk.functions[0]?.join.bind fun first => first.chunk.bind fun code =>
        code.functions[0]?.join.map Prototype.name) = some "second" := by decide +kernel
  obtain ⟨unit, hunit, hok⟩ := Option.bind_eq_some_iff.mp hok
  obtain ⟨script, hscript, hok⟩ := Option.bind_eq_some_iff.mp hok
  obtain ⟨chunk, hchunk, hok⟩ := Option.bind_eq_some_iff.mp hok
  obtain ⟨first, hfirst, hok⟩ := Option.bind_eq_some_iff.mp hok
  obtain ⟨code, hcode, hok⟩ := Option.bind_eq_some_iff.mp hok
  obtain ⟨inner, hinner, hname⟩ := Option.map_eq_some_iff.mp hok
  have hcompile := except_of_toOption hunit
  have houter : some first ∈ chunk.functions := Array.mem_of_getElem? (Option.join_eq_some_iff.mp hfirst)
  have hfound : some inner ∈ code.functions := Array.mem_of_getElem? (Option.join_eq_some_iff.mp hinner)
  have hbelow : script.LiesBelow 2 inner := .inner hchunk houter (.inner hcode hfound .self)
  exact ⟨unit, script, hcompile, hscript, ⟨inner, hbelow, hname⟩, fun _ _ => compile_depth hcompile hscript⟩

/-- Records inside of records. -/
def nestedPattern : Nat → Pattern
  | 0 => .wildcard {}
  | levels + 1 => .destructure {} [("inner", nestedPattern levels)]

/-- A value is taken apart deeper than verification follows patterns. -/
def deepMatch : Program :=
  { statements :=
      [.cond {} (.literal {} (.scalar .nil))
        [⟨{}, some (nestedPattern (maxNesting + 1)), .absent, []⟩, ⟨{}, some (.wildcard {}), .absent, []⟩]] }

/-- Nesting of patterns is not limited by code generation, so that verification has to refuse what it was
given. -/
theorem verify_deepMatch : deepMatch.analyze.diagnostics = [] ∧ ∃ unit diagnostic,
    deepMatch.analyze.program.compile = .ok unit ∧ unit.verify = .error diagnostic ∧
      diagnostic.message = "malformed pattern at offset 0" := by
  have hmessage : (deepMatch.analyze.program.compile.toOption.bind fun unit =>
      (match unit.verify with | .ok () => none | .error diagnostic => some diagnostic).map Diagnostic.message) =
        some "malformed pattern at offset 0" := by decide +kernel
  obtain ⟨unit, hunit, hmessage⟩ := Option.bind_eq_some_iff.mp hmessage
  obtain ⟨diagnostic, hdiagnostic, hmessage⟩ := Option.map_eq_some_iff.mp hmessage
  refine ⟨by decide +kernel, unit, diagnostic, except_of_toOption hunit, ?_, hmessage⟩
  cases hverify : unit.verify with
  | ok =>
    rw [hverify] at hdiagnostic
    cases hdiagnostic
  | error found =>
    rw [hverify] at hdiagnostic
    cases hdiagnostic
    rfl

end Program

end OwnScript
