import OwnScript.Proofs.Analysis.Parallels

/-!
Two walks through the same steps, and what they say about a loop. The second look at the body of a loop starts from the
path before the loop joined with the ways back to its start; by then every piece of knowledge that the body can take
away is gone, so the ways back of the second look lead to the path that it started from.
-/

namespace OwnScript.Check

open Analysis FlowState

variable {α β γ δ : Type} {outer : Nat} {start other : FlowState}

/-- Two steps that bring walks that are in step to places where they are in step, with related results. -/
def Together (outer : Nat) (start other : FlowState) (related : α → β → Prop) (step : Check α) (twin : Check β) :
    Prop :=
  ∀ a b, a.InStep outer start other b →
    related (step a).1 (twin b).1 ∧ (step a).2.InStep outer start other (twin b).2

/-- Results that nothing depends on. -/
abbrev Free : α → β → Prop :=
  fun _ _ => True

section Together

variable {related : α → β → Prop} {wider : γ → δ → Prop} {step : Check α} {twin : Check β} {next : α → Check γ}
  {next' : β → Check δ}

theorem together_pure {value : α} {value' : β} (hrelated : related value value') :
    Together outer start other related (pure value) (pure value') :=
  fun _ _ hinStep => ⟨hrelated, hinStep⟩

theorem Together.bind (hstep : Together outer start other related step twin)
    (hnext : ∀ value value', related value value' → Together outer start other wider (next value) (next' value')) :
    Together outer start other wider (step >>= next) (twin >>= next') := by
  intro a b hinStep
  obtain ⟨hrelated, hafter⟩ := hstep a b hinStep
  exact hnext _ _ hrelated _ _ hafter

/-- A step behind others that makes their result out of its own. -/
theorem Together.ends (hstep : Together outer start other related step twin) {result : α → γ} {result' : β → δ}
    (hwider : ∀ value value', related value value' → wider (result value) (result' value')) :
    Together outer start other wider (step >>= fun value => pure (result value))
      (twin >>= fun value => pure (result' value)) :=
  hstep.bind fun _ _ h => together_pure (hwider _ _ h)

theorem together_moves {change change' : FlowState → FlowState} (hstep : Moves change step) (htwin : Moves change' twin)
    (hflow : ∀ flow flow', Parallel outer start other flow flow' →
      Parallel outer start other (change flow) (change' flow')) :
    Together outer start other Free step twin :=
  fun a b hinStep => ⟨trivial, hinStep.moved (hstep a) (htwin b) (hflow _ _ hinStep.flow)⟩

theorem together_still (hstep : Still step) (htwin : Still twin) : Together outer start other Free step twin :=
  together_moves hstep htwin fun _ _ h => h

theorem together_get {next : Analysis → Check γ} {next' : Analysis → Check δ}
    (hnext : ∀ a b, a.InStep outer start other b → Together outer start other wider (next a) (next' b)) :
    Together outer start other wider (get >>= next) (get >>= next') :=
  fun a b hinStep => hnext a b hinStep a b hinStep

theorem together_getFlow : Together outer start other (Parallel outer start other) getFlow getFlow :=
  fun _ _ hinStep => ⟨hinStep.flow, hinStep⟩

theorem together_setFlow {flow flow' : FlowState} (hflow : Parallel outer start other flow flow') :
    Together outer start other Free (setFlow flow) (setFlow flow') :=
  fun _ _ hinStep => ⟨trivial, { hinStep with flow := hflow }⟩

theorem together_endPath : Together outer start other Free endPath endPath :=
  together_moves moves_endPath moves_endPath fun _ _ h => h.endPath

variable {id id' : BindingId}

theorem together_useBinding (hids : SameId outer id id') (name name' : String) (location location' : Location) :
    Together outer start other Free (useBinding id name location) (useBinding id' name' location') :=
  together_moves (moves_useBinding _ _ _) (moves_useBinding _ _ _) fun _ _ h => h.reading hids

theorem together_moveBinding (hids : SameId outer id id') (name name' : String) (location location' : Location) :
    Together outer start other Free (moveBinding id name location) (moveBinding id' name' location') :=
  together_moves (moves_moveBinding _ _ _) (moves_moveBinding _ _ _) fun _ _ h => (h.reading hids).set hids .moved

theorem together_assignBinding (hids : SameId outer id id') (name name' : String) (location location' : Location) :
    Together outer start other Free (assignBinding id name location) (assignBinding id' name' location') :=
  together_moves (moves_assignBinding _ _ _) (moves_assignBinding _ _ _) fun _ _ h => h.set hids .initialized

theorem together_enterScope : Together outer start other Free enterScope enterScope := by
  intro a b hinStep
  exact ⟨trivial, { hinStep with
    scope := Scope.alike_new
    outerScopes := .cons hinStep.scope hinStep.outerScopes }⟩

theorem together_exitScope : Together outer start other Free exitScope exitScope := by
  intro a b hinStep
  refine ⟨trivial, ?_⟩
  rw [exitScope_snd, exitScope_snd]
  have houter := hinStep.outerScopes
  refine { hinStep with scope := ?_, outerScopes := ?_ }
  · generalize a.outerScopes = scopes, b.outerScopes = scopes' at houter
    cases houter with
    | nil => exact hinStep.scope
    | cons hscope _ => exact hscope
  · generalize a.outerScopes = scopes, b.outerScopes = scopes' at houter
    cases houter with
    | nil => exact .nil
    | cons _ hrest => exact hrest

theorem together_leaveLoop : Together outer start other Free leaveLoop leaveLoop := by
  intro a b hinStep
  refine ⟨trivial, ?_⟩
  rw [leaveLoop_snd, leaveLoop_snd]
  have hloop := hinStep.loop
  refine { hinStep with flow := hinStep.flow.endPath, loop := ?_ }
  rw [List.head?_modifyHead, List.head?_modifyHead]
  generalize a.loops.head? = loop, b.loops.head? = loop' at hloop
  cases hloop with
  | none => exact .none
  | some hpaths =>
    refine .some { hpaths with leaving := ?_ }
    rw [Array.toList_push, Array.toList_push]
    exact List.rel_append hpaths.leaving (.cons hinStep.flow .nil)

theorem together_skipLoop : Together outer start other Free skipLoop skipLoop := by
  intro a b hinStep
  refine ⟨trivial, ?_⟩
  rw [skipLoop_snd, skipLoop_snd]
  have hloop := hinStep.loop
  refine { hinStep with flow := hinStep.flow.endPath, loop := ?_ }
  rw [List.head?_modifyHead, List.head?_modifyHead]
  generalize a.loops.head? = loop, b.loops.head? = loop' at hloop
  cases hloop with
  | none => exact .none
  | some hpaths =>
    refine .some { hpaths with skipping := ?_ }
    rw [Array.toList_push, Array.toList_push]
    exact List.rel_append hpaths.skipping (.cons hinStep.flow .nil)

theorem together_lookup (name : String) :
    Together outer start other (Option.Rel (SameId outer)) (lookup name) (lookup name) := by
  intro a b hinStep
  refine ⟨?_, hinStep⟩
  have hscopes := List.Forall₂.cons hinStep.scope hinStep.outerScopes
  change Option.Rel (SameId outer) ((a.scope :: a.outerScopes).findSome? (·.names[name]?))
    ((b.scope :: b.outerScopes).findSome? (·.names[name]?))
  generalize a.scope :: a.outerScopes = scopes, b.scope :: b.outerScopes = scopes' at hscopes
  induction hscopes with
  | nil => exact .none
  | @cons scope scope' _ _ hscope _ ih =>
    rw [List.findSome?_cons, List.findSome?_cons]
    have hname := hscope name
    generalize scope.names[name]? = found, scope'.names[name]? = found' at hname
    cases hname with
    | none => exact ih
    | some hids => exact .some hids

theorem together_declareName (name : String) (location : Location) {initial initial' : InitState}
    (hinitial : initial = initial') :
    Together outer start other (SameId outer) (declareName name location initial)
      (declareName name location initial') := by
  subst hinitial
  intro a b hinStep
  have hname := hinStep.scope name
  cases hknown : a.scope.names[name]? with
  | some id =>
    rw [hknown] at hname
    obtain ⟨id', hknown', hids⟩ : ∃ id', b.scope.names[name]? = some id' ∧ SameId outer id id' := by
      generalize b.scope.names[name]? = found at hname
      cases hname with
      | some hids => exact ⟨_, rfl, hids⟩
    rw [declareName_known hknown, declareName_known hknown']
    exact ⟨hids, hinStep.moved (still_report _ _ _ _ a) (still_report _ _ _ _ b) hinStep.flow⟩
  | none =>
    rw [hknown] at hname
    have hknown' : b.scope.names[name]? = none := by
      generalize b.scope.names[name]? = found at hname
      cases hname
      rfl
    have hids : SameId outer a.symbols.size b.symbols.size := .inr ⟨hinStep.left, hinStep.right⟩
    rw [declareName_new hknown, declareName_new hknown']
    exact ⟨hids, { hinStep with
      scope := hinStep.scope.insert hids name
      left := hinStep.left.trans (by simp [declaredNew])
      right := hinStep.right.trans (by simp [declaredNew])
      flow := hinStep.flow.set hids initial }⟩

theorem together_resolve (identifier : Identifier) :
    Together outer start other (fun found found' => Option.Rel (SameId outer) found.2 found'.2) (resolve identifier)
      (resolve identifier) := by
  refine (together_lookup identifier.name).bind fun target target' htarget => ?_
  cases htarget with
  | none => exact (together_still (still_report _ _ _ _) (still_report _ _ _ _)).bind fun _ _ _ => together_pure .none
  | some hids =>
    refine (together_still (still_isGlobal _) (still_isGlobal _)).bind fun _ _ _ => ?_
    refine (together_still (still_noteReference _ _) (still_noteReference _ _)).bind fun _ _ _ => ?_
    exact together_pure (.some hids)

end Together

section Functions

theorem keeps_checkExpr (expr : Expr) : Keeps (checkExpr expr) :=
  (serves_expr accepted_empty none true expr).keeps

theorem keeps_checkStmt (stmt : Stmt) : Keeps (checkStmt stmt) :=
  (runs_stmt accepted_empty none true stmt fun h => by cases h).keeps

theorem keeps_checkClauses (flow : FlowState) (clauses done : List Clause) : Keeps (checkClauses flow clauses done) :=
  (servesBody_clauses accepted_empty none flow clauses done).encloses.1

/-- A scope that is closed leaves the names that were there before it. -/
theorem scope_exitScope {a inner : Analysis} (hinner : (enterScope a).2.Keeps inner) :
    (exitScope inner).2.scope = a.scope := by
  rw [exitScope_snd, hinner.outerScopes, enterScope_snd]
  rfl

/-- What a function declares is its own. -/
theorem scope_checkClauses (flow : FlowState) (clauses done : List Clause) (a : Analysis) :
    (checkClauses flow clauses done a).2.scope = a.scope := by
  induction clauses generalizing done a with
  | nil => rfl
  | cons clause rest ih =>
    obtain ⟨location, parameters, body⟩ := clause
    have hinner := (keeps_declareParameters parameters []).bind fun _ => keeps_checkStmts body []
    rw [checkClauses]
    have hclosed := @scope_exitScope { a with flow := { flow with reachable := true } } _ (hinner _)
    exact (ih _ _).trans hclosed

theorem still_functionBody (clauses : List Clause) : Still (functionBody fun flow => checkClauses flow clauses []) := by
  intro a
  have hkeeps := keeps_checkClauses a.flow clauses [] { a with loops := [], functionDepth := a.functionDepth + 1 }
  exact ⟨scope_checkClauses .., hkeeps.outerScopes, hkeeps.size_le, rfl, rfl⟩

theorem still_declaredBody (id : BindingId) {body : Check α} (hbody : Still body) : Still (declaredBody id body) := by
  intro a
  rw [declaredBody_snd]
  split
  · have hmoved := hbody { a with currentFunction := some id, summaries := a.summaries.insert id (a.summaries.of id) }
    exact ⟨hmoved.scope, hmoved.outerScopes, hmoved.symbols, hmoved.loops, hmoved.flow⟩
  · exact hbody a

end Functions

section Loops

variable {body : Check (α × Option FlowState)} {a b : Analysis}

/-- A state in which an analysis is back where it was, on some path. -/
def Returns (a after : Analysis) : Prop :=
  Moved (fun _ => after.flow) a after

theorem Returns.trans {middle after : Analysis} (hfirst : Returns a middle) (hsecond : Returns middle after) :
    Returns a after :=
  ⟨hsecond.scope.trans hfirst.scope, hsecond.outerScopes.trans hfirst.outerScopes, hfirst.symbols.trans hsecond.symbols,
    hsecond.loops.trans hfirst.loops, rfl⟩

theorem Returns.abreast (hreturns : Returns a b) (houter : outer ≤ a.symbols.size) : a.Abreast outer b where
  scope := by rw [hreturns.scope]; exact Scope.alike_refl outer a.scope
  outerScopes := by rw [hreturns.outerScopes]; exact List.forall₂_same.mpr fun scope _ => Scope.alike_refl outer scope
  left := houter
  right := houter.trans hreturns.symbols

/-- The state in which a look at the body of a loop begins. -/
def opened (entry : FlowState) (a : Analysis) : Analysis :=
  (enterScope { a with flow := entry, loops := {} :: a.loops }).2

/-- The state in which it ends, before the loop is left. -/
def closed (body : Check (α × Option FlowState)) (entry : FlowState) (a : Analysis) : Analysis :=
  (exitScope (body (opened entry a)).2).2

theorem loopPass_eq (body : Check (α × Option FlowState)) (entry : FlowState) (a : Analysis) :
    loopPass body entry a =
      (((body (opened entry a)).1.1, (body (opened entry a)).1.2, (closed body entry a).loops.headD {}),
        { closed body entry a with loops := (closed body entry a).loops.tail }) :=
  rfl

theorem loops_closed (hkeeps : Keeps body) (entry : FlowState) (a : Analysis) :
    ∃ paths, (closed body entry a).loops = paths :: a.loops := by
  obtain ⟨paths, hpaths, -⟩ := ((hkeeps (opened entry a)).ofScope).loops
  exact ⟨paths, hpaths⟩

theorem returns_loopPass (hkeeps : Keeps body) (entry : FlowState) (a : Analysis) :
    Returns a (loopPass body entry a).2 := by
  have hscoped := (hkeeps (opened entry a)).ofScope
  have hscope := @scope_exitScope { a with flow := entry, loops := {} :: a.loops } _ (hkeeps (opened entry a))
  obtain ⟨paths, hpaths⟩ := loops_closed hkeeps entry a
  exact ⟨hscope, hscoped.outerScopes, hscoped.size_le, congrArg List.tail hpaths, rfl⟩

/-- The path by which a turn of a loop comes back to its start. -/
def wayBack (turn : (α × Option FlowState × LoopPaths) × Analysis) : FlowState :=
  turn.1.2.2.skipping.foldl FlowState.meet turn.2.flow

/-- The path at the start of a loop, as far as one look at its body from an entry can tell. -/
def nextEntry (body : Check (α × Option FlowState)) (outer : Nat) (before entry : FlowState) (a : Analysis) :
    FlowState :=
  (before.meet (wayBack (loopPass body entry a))).truncate outer

/-- The search for the path at the start of a loop ends because that path does not change any more, after a number of
looks at the body. -/
inductive Settles (body : Check (α × Option FlowState)) (outer : Nat) (before : FlowState) :
    Nat → FlowState → Analysis → FlowState → Analysis → Prop where
  | settled {entry : FlowState} {a : Analysis} : nextEntry body outer before entry a = entry →
      Settles body outer before 1 entry a entry (loopPass body entry a).2
  | changed {looks : Nat} {entry last : FlowState} {a final : Analysis} : nextEntry body outer before entry a ≠ entry →
      Settles body outer before looks (nextEntry body outer before entry a) (loopPass body entry a).2 last final →
      Settles body outer before (looks + 1) entry a last final

theorem loopEntry_succ (body : Check (α × Option FlowState)) (outer : Nat) (before entry : FlowState) (passes : Nat)
    (a : Analysis) : loopEntry body outer before (passes + 1) entry a =
      if nextEntry body outer before entry a = entry then (entry, (loopPass body entry a).2)
      else loopEntry body outer before passes (nextEntry body outer before entry a) (loopPass body entry a).2 := by
  have hunfold : loopEntry body outer before (passes + 1) entry a =
      (if nextEntry body outer before entry a = entry then pure entry
        else loopEntry body outer before passes (nextEntry body outer before entry a) : Check FlowState)
        (loopPass body entry a).2 := rfl
  rw [hunfold]
  by_cases hsame : nextEntry body outer before entry a = entry
  · rw [if_pos hsame, if_pos hsame]
    rfl
  · rw [if_neg hsame, if_neg hsame]

/-- A search that ends this way within the looks that it is allowed is the one that the analysis makes. -/
theorem Settles.loopEntry_eq {before entry last : FlowState} {looks : Nat} {final : Analysis}
    (hsettles : Settles body outer before looks entry a last final) {passes : Nat} (hlooks : looks ≤ passes) :
    loopEntry body outer before passes entry a = (last, final) := by
  induction hsettles generalizing passes with
  | settled hsame =>
    obtain ⟨passes, rfl⟩ : ∃ more, passes = more + 1 := ⟨passes - 1, by omega⟩
    rw [loopEntry_succ, if_pos hsame]
  | changed hchanged _ ih =>
    obtain ⟨passes, rfl⟩ : ∃ more, passes = more + 1 := ⟨passes - 1, by omega⟩
    rw [loopEntry_succ, if_neg hchanged, ih (by omega)]

/-- Two looks at the body of a loop, from parallel paths. -/
theorem together_look (hkeeps : Keeps body) (hbody : Together outer start other
      (fun value value' => Option.Rel (Parallel outer start other) value.2 value'.2) body body)
    (habreast : a.Abreast outer b) {entry entry' : FlowState} (hentry : Parallel outer start other entry entry') :
    Option.Rel (Parallel outer start other) (loopPass body entry a).1.2.1 (loopPass body entry' b).1.2.1 ∧
      LoopPaths.Parallel outer start other (loopPass body entry a).1.2.2 (loopPass body entry' b).1.2.2 ∧
      (loopPass body entry a).2.Abreast outer (loopPass body entry' b).2 ∧
      Parallel outer start other (loopPass body entry a).2.flow (loopPass body entry' b).2.flow := by
  have hopened : InStep outer start other { a with flow := entry, loops := {} :: a.loops }
      { b with flow := entry', loops := {} :: b.loops } :=
    { habreast with flow := hentry, loop := .some ⟨.nil, .nil⟩ }
  obtain ⟨-, hinside⟩ := together_enterScope _ _ hopened
  obtain ⟨hexit, hbehind⟩ := hbody _ _ hinside
  obtain ⟨-, hclosed⟩ := together_exitScope _ _ hbehind
  change (closed body entry a).InStep outer start other (closed body entry' b) at hclosed
  obtain ⟨paths, hpaths⟩ := loops_closed hkeeps entry a
  obtain ⟨paths', hpaths'⟩ := loops_closed hkeeps entry' b
  have hloop := hclosed.loop
  rw [hpaths, hpaths'] at hloop
  rw [loopPass_eq, loopPass_eq, hpaths, hpaths']
  cases hloop with
  | some hparallel => exact ⟨hexit, hparallel, { hclosed with }, hclosed.flow⟩

theorem parallel_wayBack (hkeeps : Keeps body) (hbody : Together outer start other
      (fun value value' => Option.Rel (Parallel outer start other) value.2 value'.2) body body)
    (habreast : a.Abreast outer b) {entry entry' : FlowState} (hentry : Parallel outer start other entry entry') :
    Parallel outer start other (wayBack (loopPass body entry a)) (wayBack (loopPass body entry' b)) := by
  obtain ⟨-, hpaths, -, hflow⟩ := together_look hkeeps hbody habreast hentry
  unfold wayBack
  rw [← Array.foldl_toList, ← Array.foldl_toList]
  exact hflow.foldl_meet hpaths.skipping

/-- A body that does the same to the knowledge about a variable from whichever path it is looked at. -/
def Uniform (body : Check (α × Option FlowState)) : Prop :=
  ∀ outer start other, Together outer start other
    (fun value value' => Option.Rel (Parallel outer start other) value.2 value'.2) body body

/-- From the path that one look at the body has led to, every look leads to that path again. -/
theorem nextEntry_again (hkeeps : Keeps body) (huniform : Uniform body) (before : FlowState)
    (houter : outer ≤ a.symbols.size) (hreturns : Returns a b) :
    nextEntry body outer before (nextEntry body outer before before a) b = nextEntry body outer before before a := by
  have hsame : (nextEntry body outer before before a).reachable = before.reachable := by
    have hback := parallel_wayBack hkeeps (huniform outer before before) (hreturns.abreast houter) (.ofStart rfl)
    change (before.meet _).reachable = _
    rw [reachable_meet]
    cases hbefore : before.reachable with
    | true => rfl
    | false => exact hback.ended hbefore
  exact (parallel_wayBack hkeeps (huniform outer before _) (hreturns.abreast houter) (.ofStart hsame)).settles

/-- The search ends with the second look at the latest. -/
theorem exists_settles (hkeeps : Keeps body) (huniform : Uniform body) (before : FlowState)
    (houter : outer ≤ a.symbols.size) :
    ∃ looks final, looks ≤ 2 ∧ Returns a final ∧
      Settles body outer before looks before a (nextEntry body outer before before a) final := by
  have hfirst := returns_loopPass hkeeps before a
  by_cases hsame : nextEntry body outer before before a = before
  · refine ⟨1, _, by omega, hfirst, ?_⟩
    rw [hsame]
    exact .settled hsame
  · refine ⟨2, _, le_rfl, hfirst.trans (returns_loopPass hkeeps _ _), .changed hsame (.settled ?_)⟩
    exact nextEntry_again hkeeps huniform before houter hfirst

/-- The state in which a look at a loop begins that reports nothing. -/
def hushed (a : Analysis) : Analysis :=
  { a with silence := a.silence + 1 }

/-- The state in which diagnostics are reported again. -/
def heard (a : Analysis) : Analysis :=
  { a with silence := a.silence - 1 }

theorem analyzeLoop_eq (body : Check (α × Option FlowState)) (a : Analysis) : analyzeLoop body a =
    let quiet := loopEntry body a.symbols.size a.flow (a.symbols.size * 2 + 3) a.flow (hushed a)
    let report := loopPass body quiet.1 (heard quiet.2)
    (report.1.1, { report.2 with flow :=
      (report.1.2.2.leaving.foldl FlowState.meet (report.1.2.1.getD .unreachable)).truncate a.symbols.size }) :=
  rfl

theorem analyzeLoop_settled (hkeeps : Keeps body) (huniform : Uniform body) (a : Analysis) :
    ∃ looks final, looks ≤ 2 ∧ Returns a (heard final) ∧
      Settles body a.symbols.size a.flow looks a.flow (hushed a)
        (nextEntry body a.symbols.size a.flow a.flow (hushed a)) final ∧
      analyzeLoop body a =
        let report := loopPass body (nextEntry body a.symbols.size a.flow a.flow (hushed a)) (heard final)
        (report.1.1, { report.2 with flow :=
          (report.1.2.2.leaving.foldl FlowState.meet (report.1.2.1.getD .unreachable)).truncate a.symbols.size }) := by
  obtain ⟨looks, final, hlooks, hreturns, hsettles⟩ :=
    @exists_settles _ a.symbols.size body (hushed a) hkeeps huniform a.flow le_rfl
  refine ⟨looks, final, hlooks, ?_, hsettles, ?_⟩
  · exact ⟨hreturns.scope, hreturns.outerScopes, hreturns.symbols, hreturns.loops, rfl⟩
  have hfound : loopEntry body a.symbols.size a.flow (a.symbols.size * 2 + 3) a.flow (hushed a) =
      (nextEntry body a.symbols.size a.flow a.flow (hushed a), final) := hsettles.loopEntry_eq (by omega)
  rw [analyzeLoop_eq, hfound]

theorem together_analyzeLoop (hkeeps : Keeps body) (huniform : Uniform body) :
    Together outer start other Free (analyzeLoop body) (analyzeLoop body) := by
  intro a b hinStep
  obtain ⟨looks, final, -, hreturns, -, hrun⟩ := analyzeLoop_settled hkeeps huniform a
  obtain ⟨looks', final', -, hreturns', -, hrun'⟩ := analyzeLoop_settled hkeeps huniform b
  have hquiet : (hushed a).Abreast outer (hushed b) :=
    hinStep.toAbreast.of_same rfl rfl le_rfl rfl rfl le_rfl
  have hreport : (heard final).Abreast outer (heard final') :=
    hinStep.toAbreast.of_same hreturns.scope hreturns.outerScopes hreturns.symbols hreturns'.scope hreturns'.outerScopes
      hreturns'.symbols
  have hentry : Parallel outer start other (nextEntry body a.symbols.size a.flow a.flow (hushed a))
      (nextEntry body b.symbols.size b.flow b.flow (hushed b)) :=
    (hinStep.flow.meet (parallel_wayBack hkeeps (huniform _ _ _) hquiet hinStep.flow)).truncate hinStep.left
      hinStep.right
  rw [hrun, hrun']
  generalize nextEntry body a.symbols.size a.flow a.flow (hushed a) = entry,
    nextEntry body b.symbols.size b.flow b.flow (hushed b) = entry' at hentry ⊢
  obtain ⟨htest, hpaths, hafter, -⟩ := together_look hkeeps (huniform _ _ _) hreport hentry
  have hleft := (hreturns.trans (returns_loopPass hkeeps entry (heard final))).loops
  have hright := (hreturns'.trans (returns_loopPass hkeeps entry' (heard final'))).loops
  generalize loopPass body entry (heard final) = report, loopPass body entry' (heard final') = report' at *
  refine ⟨trivial, { hafter with flow := ?_, loop := ?_ }⟩
  · refine Parallel.truncate ?_ hinStep.left hinStep.right
    rw [← Array.foldl_toList, ← Array.foldl_toList]
    refine Parallel.foldl_meet hpaths.leaving ?_
    generalize report.1.2.1 = exit, report'.1.2.1 = exit' at htest
    cases htest with
    | none => exact .unreachable
    | some hexit => exact hexit
  · change Option.Rel _ report.2.loops.head? report'.2.loops.head?
    rw [hleft, hright]
    exact hinStep.loop

end Loops

end OwnScript.Check
