import OwnScript.Proofs.Analysis.Knowledge

/-!
Steps of an accepted analysis that declare and assign variables, and steps that look at parts on paths of their
own: scopes, arms, the bodies of loops and the bodies of functions. What is defined before such a part is
enough for all paths through it.
-/

namespace OwnScript

namespace Analysis

variable {final a inner : Analysis} {mode : Option BindingId} {nested : Bool} {flow : FlowState} {defined : Globals}

/-- Inside a new scope nothing is global. -/
theorem Stands.enter (hstands : a.Stands mode nested) : (Check.enterScope a).2.Stands mode true where
  regular := hstands.regular.enterScope
  loud := hstands.loud
  function := hstands.function
  rooted := rooted_enterScope a
  deep := hstands.deep
  inside _ h := by
    rw [Check.enterScope_snd] at h
    cases h

theorem Stands.withFlow (hstands : a.Stands mode nested) (flow : FlowState) : Stands mode nested { a with flow } where
  regular := hstands.regular.of_same rfl (fun _ => id) rfl
  loud := hstands.loud
  function := hstands.function
  rooted := hstands.rooted
  deep := hstands.deep
  inside := hstands.inside

theorem Stands.withLoops (hstands : a.Stands mode nested) (loops : List LoopPaths) :
    Stands mode nested { a with loops } where
  regular := hstands.regular.of_same rfl (fun _ => id) rfl
  loud := hstands.loud
  function := hstands.function
  rooted := hstands.rooted
  deep := hstands.deep
  inside := hstands.inside

/-- What extends a state extends every state with the same facts. -/
theorem Extends.of_facts (hextends : inner.Extends final) (hsymbols : inner.symbols = a.symbols)
    (herrors : inner.errors = a.errors) (hsummaries : inner.summaries = a.summaries)
    (hpending : inner.pending = a.pending) : a.Extends final :=
  (SameFacts.extends ⟨hsymbols, herrors, hsummaries, hpending⟩).trans hextends

theorem extends_exitScope (a : Analysis) : a.Extends (Check.exitScope a).2 := by
  rw [Check.exitScope_snd]
  exact SameFacts.extends ⟨rfl, rfl, rfl, rfl⟩

theorem flow_exitScope (a : Analysis) : (Check.exitScope a).2.flow = a.flow := by
  rw [Check.exitScope_snd]

theorem loops_exitScope (a : Analysis) : (Check.exitScope a).2.loops = a.loops := by
  rw [Check.exitScope_snd]

end Analysis

namespace Check

open Analysis

variable {α β : Type} {final : Analysis} {mode : Option BindingId} {nested : Bool}

/-- A step whose result is put together. -/
theorem Runs.map {step : Check α} {middle : α → Globals → Exits → Prop} {post : β → Globals → Exits → Prop}
    (hstep : Runs final mode nested step middle) (make : α → β)
    (hpost : ∀ value defined exits, middle value defined exits → post (make value) defined exits) :
    Runs final mode nested (do return make (← step)) post where
  keeps := hstep.keeps.bind fun _ => keeps_pure _
  runs a hstands hextends defined exits hgrants hfall hleave hskip :=
    hpost _ _ _ (hstep.runs a hstands hextends defined exits hgrants hfall hleave hskip)

/-- A part in a scope of its own. -/
theorem Runs.scoped {body : Check α} {middle : α → Globals → Exits → Prop} {post : β → Globals → Exits → Prop}
    (hbody : Runs final mode true body middle) (make : α → β)
    (hpost : ∀ part defined exits, middle part defined exits → post (make part) defined exits) :
    Runs final mode nested (do
      enterScope
      let part ← body
      exitScope
      return make part) post where
  keeps := hbody.keeps.scoped fun _ => keeps_pure _
  runs a hstands hextends defined exits hgrants hfall hleave hskip := by
    have hinner := (extends_exitScope (body (enterScope a).2).2).trans hextends
    refine hpost _ _ _ (hbody.runs (enterScope a).2 hstands.enter hinner defined exits hgrants
      (fun more hmore h => hfall more hmore ?_) (fun more hmore h => hleave more hmore ?_) hskip)
    · change final.Grants mode (exitScope (body (enterScope a).2).2).2.flow more
      rwa [flow_exitScope]
    · change final.Leaves mode (exitScope (body (enterScope a).2).2).2.loops more
      rwa [loops_exitScope]

/-- A part that may be left out: what is known behind it is what is known either way. -/
theorem Serves.optional {part : Check α} {middle : α → Globals → Prop} {post : β → Globals → Prop}
    (hpart : Serves final mode nested part middle) (make : α → β)
    (hpost : ∀ value defined, middle value defined → post (make value) defined) :
    Serves final mode nested (do
      let before ← getFlow
      let value ← part
      setFlow (before.meet (← getFlow))
      return make value) post where
  keeps := keeps_getFlow fun _ => hpart.keeps.bind fun _ => keeps_getFlow fun _ =>
    (keeps_setFlow _).bind fun _ => keeps_pure _
  serves a hstands hextends defined hgrants := by
    have hsame : (part a).2.SameFacts { (part a).2 with flow := a.flow.meet (part a).2.flow } := ⟨rfl, rfl, rfl, rfl⟩
    obtain ⟨hvalue, -⟩ := hpart.serves a hstands (hsame.extends.trans hextends) defined hgrants
    exact ⟨hpost _ _ hvalue, hgrants.weaken (FlowState.weakens_meet_left a.flow (part a).2.flow)⟩

/-- Two branches from one path. What is known behind them is what is known behind both. -/
theorem runs_branches {yes no : Check α} {left right : α → Globals → Exits → Prop} {post : β → Globals → Exits → Prop}
    (hyes : Runs final mode nested yes left) (hno : Runs final mode nested no right) (make : α → α → β)
    (hpost : ∀ first second defined exits, left first defined exits → right second defined exits →
      post (make first second) defined exits) :
    Runs final mode nested (do
      let base ← getFlow
      let first ← yes
      let afterFirst ← getFlow
      setFlow base
      let second ← no
      setFlow (afterFirst.meet (← getFlow))
      return make first second) post where
  keeps := keeps_getFlow fun _ => hyes.keeps.bind fun _ => keeps_getFlow fun _ => (keeps_setFlow _).bind fun _ =>
    hno.keeps.bind fun _ => keeps_getFlow fun _ => (keeps_setFlow _).bind fun _ => keeps_pure _
  runs a hstands hextends defined exits hgrants hfall hleave hskip := by
    obtain ⟨middle, hmiddle⟩ : ∃ middle, { (yes a).2 with flow := a.flow } = middle := ⟨_, rfl⟩
    have hbefore : (yes a).2.SameFacts middle := hmiddle ▸ ⟨rfl, rfl, rfl, rfl⟩
    have hbehind (flow : FlowState) : (no middle).2.SameFacts { (no middle).2 with flow } := ⟨rfl, rfl, rfl, rfl⟩
    have hsecond : (no middle).2.Extends final := by
      subst hmiddle
      exact (hbehind _).extends.trans hextends
    have hfirst : (yes a).2.Extends final := hbefore.extends.trans ((hno.keeps middle).toExtends.trans hsecond)
    have hloops : middle.loops = (yes a).2.loops := hmiddle ▸ rfl
    have hgrowth : PathsGrow (yes a).2.loops (no middle).2.loops := hloops ▸ (hno.keeps middle).loops
    have hbetween : middle.Stands mode nested := by
      subst hmiddle
      exact (hstands.keep (hyes.keeps a)).withFlow _
    have hleft := hyes.runs a hstands hfirst defined exits hgrants
      (fun more hmore h => hfall more hmore ?_) (fun more hmore h => hleave more hmore ?_) hskip
    have hright := hno.runs middle hbetween hsecond defined exits ?_
      (fun more hmore h => hfall more hmore ?_) (fun more hmore h => hleave more hmore ?_) hskip
    · subst hmiddle
      exact hpost _ _ _ _ hleft hright
    all_goals subst hmiddle
    · exact hgrants
    · exact h.weaken (FlowState.weakens_meet_right (yes a).2.flow (no _).2.flow)
    · exact h
    · exact h.weaken (FlowState.weakens_meet_left (yes a).2.flow (no _).2.flow)
    · exact h.grow hgrowth

/-- A name leads to a declaration, and whether that is global is known for good. -/
theorem runs_lookup (name : String) {next : Option BindingId → Check α} {known : BindingId → Bool → Check α}
    {post : α → Globals → Exits → Prop} (hknown : ∀ id, next (some id) = isGlobal id >>= known id)
    (hmissing : Runs final mode nested (next none) post)
    (hnext : ∀ id flag, Runs final mode nested (known id flag) fun value defined exits =>
      (final.IsGlobal id → flag = true) → post value defined exits) :
    Runs final mode nested (lookup name >>= next) post where
  keeps := (keeps_lookup name).bind fun target => by
    cases target with
    | none => exact hmissing.keeps
    | some id =>
      rw [hknown]
      exact (keeps_isGlobal id).bind fun flag => (hnext id flag).keeps
  runs a hstands hextends defined exits hgrants hfall hleave hskip := by
    have heq : (lookup name >>= next) a = next ((a.scope :: a.outerScopes).findSome? (·.names[name]?)) a := rfl
    rw [heq] at hextends hfall hleave ⊢
    cases htarget : (a.scope :: a.outerScopes).findSome? (·.names[name]?) with
    | none =>
      rw [htarget] at hextends hfall hleave
      exact hmissing.runs a hstands hextends defined exits hgrants hfall hleave hskip
    | some id =>
      rw [htarget, hknown] at hextends hfall hleave
      rw [hknown]
      obtain ⟨scope, hscope, hfound⟩ := List.exists_of_findSome?_eq_some htarget
      have hin := hstands.regular.names scope hscope name id hfound
      refine (hnext id _).runs a hstands hextends defined exits hgrants hfall hleave hskip fun hglobal => ?_
      have hfirst : a.Extends final := ((hnext id _).keeps a).toExtends.trans hextends
      have hflag := (hfirst.isGlobal_iff (Array.getElem?_eq_getElem hin)).mp hglobal
      simpa [Array.getElem?_eq_getElem hin] using hflag

/-- A variable gets a value. -/
theorem runs_assigning (id : BindingId) (flag : Bool) (name : String) (location : Location) (part : Expr)
    {next : Unit → Check Stmt} (hkeeps : Keeps (next ())) (hflow : ∀ a : Analysis, (next () a).2.flow = a.flow)
    (hresult : ∀ a : Analysis, (next () a).1 = .assign location name part ⟨some id, flag⟩) :
    Runs final mode nested (assignBinding id name location >>= next) fun stmt defined exits =>
      part.Timely final.readiness.May defined → (final.IsGlobal id → flag = true) →
        stmt.Timely final.readiness.May defined exits where
  keeps := (keeps_assignBinding id name location).bind fun _ => hkeeps
  runs a hstands hextends defined exits hgrants hfall _ _ hpart hflag := by
    have hset : (assignBinding id name location a).2.flow = a.flow.set id .initialized := by
      simp only [assignBinding]
      change ((if a.borrows.any (·.target == id) = true then _ else _ : Check Unit) a).2.flow = _
      split
      · change ((if a.silence = 0 then _ else a : Analysis)).flow.set id .initialized = _
        split <;> rfl
      · rfl
    change (next () (assignBinding id name location a).2).1.Timely _ _ _
    rw [hresult]
    refine ⟨hpart, hfall _ (fun _ => .inl) ?_⟩
    change final.Grants mode (next () (assignBinding id name location a).2).2.flow _
    rw [hflow, hset]
    exact hgrants.set (fun _ => .inl) fun _ hglobal => .inr ⟨hflag hglobal, rfl⟩

section Names

variable (haccepted : final.Accepted)

include haccepted

/-- A variable is declared, and has a value unless its initial value is left out. -/
theorem runs_declaring (name : String) (location : Location) (part : Expr) {next : BindingId → Check Stmt}
    (hkeeps : ∀ id, Keeps (next id)) (hflow : ∀ id a, (next id a).2.flow = a.flow)
    (hresult : ∀ id a, (next id a).1 =
      .declare location name part ⟨some id, (a.symbols[id]?.map (·.isGlobal)).getD false⟩) :
    Runs final mode nested
      (declareName name location (if part.isAbsent then .uninitialized else .initialized) >>= next)
      fun stmt defined exits => part.Timely final.readiness.May defined →
        stmt.Timely final.readiness.May defined exits where
  keeps := (keeps_declareName name location _).bind hkeeps
  runs a hstands hextends defined exits hgrants hfall _ _ hpart := by
    generalize hinitial :
      (if part.isAbsent then InitState.uninitialized else .initialized) = initial at hextends hfall ⊢
    have hfirst : (declareName name location initial a).2.Extends final :=
      (hkeeps (declareName name location initial a).1 _).toExtends.trans hextends
    have heq := declareName_eq hstands.loud haccepted.errors hfirst
    rw [heq] at hfirst
    have hglobal := declared_isGlobal a name location initial hfirst
    change (next (declareName name location initial a).1 (declareName name location initial a).2).1.Timely _ _ _
    change ∀ more, defined ⊆ more → final.Grants mode
      (next (declareName name location initial a).1 (declareName name location initial a).2).2.flow more → _ at hfall
    rw [heq, hresult]
    rw [heq, hflow] at hfall
    have hflag : (((declaredNew name location initial a).symbols[a.symbols.size]?.map (·.isGlobal)).getD false) =
        a.outerScopes.isEmpty := by simp [declaredNew]
    refine ⟨hpart, hfall _ ?_ ?_⟩
    · split
      · exact subset_rfl
      · exact fun _ => .inl
    · split
      · rename_i habsent
        rw [if_pos habsent] at hinitial
        exact hgrants.set subset_rfl fun h => by rw [← hinitial] at h; cases h
      · refine hgrants.set (fun _ => .inl) fun _ h => .inr ⟨?_, rfl⟩
        rw [hflag]
        exact List.isEmpty_iff.mpr (hglobal.mp h)

/-- In the body of a function no global gives up its value. -/
theorem errors_moveBinding {a : Analysis} {id : BindingId} {symbol : Symbol} {name : String} {location : Location}
    (hstands : a.Stands mode nested) (hfound : a.symbols[id]? = some symbol) (hglobal : symbol.isGlobal = true)
    (hdeep : 0 < a.functionDepth) (hextends : (moveBinding id name location a).2.Extends final) : False := by
  have huse := keeps_useBinding id name location a
  have hafter := hstands.keep huse
  obtain ⟨found, hlater, hsame, -⟩ := huse.symbols id symbol hfound
  have hrest : Keeps (do
      if ← isBorrowed id then
        report .conflictingBorrow s!"cannot move '{name}' while it is borrowed" location name
      releaseHeldBy id
      setState id .moved) := by
    refine (keeps_isBorrowed id).bind fun borrowed => ?_
    split
    · exact (keeps_report _ _ _ _).bind fun _ => (keeps_releaseHeldBy id).bind fun _ => keeps_setState _ _
    · exact (keeps_releaseHeldBy id).bind fun _ => keeps_setState _ _
  have hdepth : found.functionDepth < (useBinding id name location a).2.functionDepth := by
    rw [hafter.regular.depths id found hlater (hsame.trans hglobal), huse.functionDepth]
    exact hdeep
  have hmove : moveBinding id name location a = (do
      report .useAfterMove s!"cannot move '{name}' out of an enclosing function" location name
      if ← isBorrowed id then
        report .conflictingBorrow s!"cannot move '{name}' while it is borrowed" location name
      releaseHeldBy id
      setState id .moved : Check Unit) (useBinding id name location a).2 := by
    have hbind (step : Check Unit) (next : Unit → Check Unit) : (step >>= next) a = next (step a).1 (step a).2 := rfl
    rw [moveBinding, hbind, get_bind_run, hlater]
    exact congrFun (if_pos hdepth) _
  rw [hmove] at hextends
  exact errors_report hafter.loud haccepted.errors ((hrest _).toExtends.trans hextends)

/-- A named variable gives up its value, so it is defined. -/
theorem serves_lookup_move (name : String) (location : Location) {next : Option BindingId → Check α}
    {make : BindingId → Bool → α} {post : α → Globals → Prop}
    (hknown : ∀ id, next (some id) = (do
      let flag ← isGlobal id
      moveBinding id name location
      return make id flag))
    (hmissing : Serves final mode nested (next none) post)
    (hpost : ∀ id flag defined, (flag = true → id ∈ defined) → post (make id flag) defined) :
    Serves final mode nested (lookup name >>= next) post where
  keeps := (keeps_lookup name).bind fun target => by
    cases target with
    | none => exact hmissing.keeps
    | some id =>
      rw [hknown]
      exact (keeps_isGlobal id).bind fun _ => (keeps_moveBinding id name location).bind fun _ => keeps_pure _
  serves a hstands hextends defined hgrants := by
    have heq : (lookup name >>= next) a = next ((a.scope :: a.outerScopes).findSome? (·.names[name]?)) a := rfl
    rw [heq] at hextends ⊢
    generalize (a.scope :: a.outerScopes).findSome? (·.names[name]?) = target at hextends ⊢
    cases target with
    | none => exact hmissing.serves a hstands hextends defined hgrants
    | some id =>
      rw [hknown] at hextends ⊢
      change (moveBinding id name location a).2.Extends final at hextends
      have hfirst : a.Extends final := (keeps_moveBinding id name location a).toExtends.trans hextends
      obtain ⟨hmoved, hafter⟩ :=
        (serves_moveBinding haccepted id name location).serves a hstands hextends defined hgrants
      refine ⟨hpost _ _ _ fun hflag => ?_, hafter⟩
      cases hfound : a.symbols[id]? with
      | none => simp [hfound] at hflag
      | some symbol =>
        rw [hfound] at hflag
        cases mode with
        | none => exact hmoved rfl ((hfirst.isGlobal_iff hfound).mpr hflag)
        | some function =>
          exact (errors_moveBinding haccepted hstands hfound hflag (hstands.deep (by simp)) hextends).elim

/-- A function that is declared inside a scope. -/
theorem serves_declareFunction (name : String) (location : Location) {body : Check α} {post : α → Globals → Prop}
    (hbody : Serves final mode true body post) (make : BindingId → Bool → α → β) :
    Serves final mode true (do
      let id ← declareName name location .initialized
      let flag ← isGlobal id
      let part ← declaredBody id body
      return make id flag part) fun result defined => ∃ id flag part,
        result = make id flag part ∧ post part defined where
  keeps := (keeps_declareName name location _).bind fun id => (keeps_isGlobal id).bind fun _ =>
    (keeps_declaredBody id hbody.keeps).bind fun _ => keeps_pure _
  serves a hstands hextends defined hgrants := by
    have hdeclare := keeps_declareName name location .initialized a
    have hfirst : (declareName name location .initialized a).2.Extends final :=
      ((keeps_declaredBody _ hbody.keeps) (declareName name location .initialized a).2).toExtends.trans hextends
    obtain ⟨-, hbetween⟩ :=
      (serves_declareName haccepted name location .initialized).serves a hstands hfirst defined hgrants
    have heq := declareName_eq hstands.loud haccepted.errors hfirst
    have hplain : declaredBody (declareName name location .initialized a).1 body
      (declareName name location .initialized a).2 =
        body (declareName name location .initialized a).2 := by
      rw [declaredBody_snd, heq, if_neg (by simp [declaredNew])]
    obtain ⟨inner, hinner⟩ : ∃ inner, declaredBody (declareName name location .initialized a).1 body
        (declareName name location .initialized a).2 = inner := ⟨_, rfl⟩
    have hbehind : inner.2.Extends final := hinner ▸ hextends
    have hserved : post inner.1 defined ∧ final.Grants mode inner.2.flow defined := by
      rw [← hinner, hplain] at hbehind ⊢
      exact hbody.serves _ (hstands.keep hdeclare) hbehind defined hbetween
    subst hinner
    exact ⟨⟨_, _, _, rfl, hserved.1⟩, hserved.2⟩

end Names

/-- A step in the body of a function. The path to it is the one to the function, whether or not that can be
taken. -/
structure ServesBody (final : Analysis) (mode : Option BindingId) (flow : FlowState) (step : Check α)
    (post : α → Globals → Prop) : Prop where
  encloses : Encloses step
  serves : ∀ a : Analysis, a.Regular → a.silence = 0 → a.currentFunction = mode → 0 < a.functionDepth →
    (step a).2.Extends final → ∀ defined, final.Grants mode { flow with reachable := true } defined →
    post (step a).1 defined

theorem servesBody_done {flow : FlowState} {value : α} {post : α → Globals → Prop}
    (hpost : ∀ defined, post value defined) :
    ServesBody final mode flow (pure value) post where
  encloses := ⟨keeps_pure value, fun _ h => h⟩
  serves _ _ _ _ _ _ defined _ := hpost defined

theorem ServesBody.mono {flow : FlowState} {step : Check α} {post wider : α → Globals → Prop}
    (hstep : ServesBody final mode flow step post)
    (hwider : ∀ value defined, post value defined → wider value defined) :
    ServesBody final mode flow step wider where
  encloses := hstep.encloses
  serves a hregular hloud hfunction hdeep hextends defined hgrants :=
    hwider _ _ (hstep.serves a hregular hloud hfunction hdeep hextends defined hgrants)

theorem serves_functionBody {body : FlowState → Check α} {post : α → Globals → Prop}
    (hbody : ∀ flow, ServesBody final mode flow (body flow) post) :
    Serves final mode nested (functionBody body) post where
  keeps := keeps_functionBody fun flow => (hbody flow).encloses
  serves a hstands hextends defined hgrants := by
    refine ⟨(hbody a.flow).serves { a with loops := [], functionDepth := a.functionDepth + 1 }
      (hstands.regular.of_same rfl (fun _ h => h) rfl) hstands.loud hstands.function
      (Nat.succ_pos _) ?_ defined hgrants.reach, hgrants⟩
    exact hextends.of_facts rfl rfl rfl rfl

/-- A clause of a function, and those behind it. -/
theorem servesBody_clause {γ : Type} {flow : FlowState} {parameters : Check γ} {body : Check α} {next : γ → α → Check β}
    {middle : α → Globals → Prop} {post : β → Globals → Prop}
    (hparameters : Serves final mode true parameters fun _ _ => True)
    (hbody : Runs final mode true body fun part defined exits => exits = .free → middle part defined)
    (hnext : ∀ bound part, ServesBody final mode flow (next bound part) fun result defined =>
      middle part defined → post result defined) :
    ServesBody final mode flow (do
      setFlow { flow with reachable := true }
      enterScope
      let bound ← parameters
      let part ← body
      exitScope
      next bound part) post where
  encloses := by
    have hinner (a : Analysis) := (hparameters.keeps (enterScope a).2).trans (hbody.keeps _)
    refine ⟨fun a => ?_, fun a hregular => ?_⟩
    · exact (keeps_setFlow _ a).trans ((Analysis.Keeps.ofScope (hinner _)).trans ((hnext _ _).encloses.1 _))
    · exact (hnext _ _).encloses.2 _
        (Analysis.Keeps.regular_ofScope (hinner _) (hregular.of_same rfl (fun _ h => h) rfl))
  serves a hregular hloud hfunction hdeep hextends defined hgrants := by
    obtain ⟨start, hstart⟩ : ∃ start, { a with flow := { flow with reachable := true } } = start := ⟨_, rfl⟩
    obtain ⟨opened, hopened⟩ : ∃ opened, parameters (enterScope start).2 = opened := ⟨_, rfl⟩
    obtain ⟨inner, hinner⟩ : ∃ inner, body opened.2 = inner := ⟨_, rfl⟩
    obtain ⟨behind, hbehind⟩ : ∃ behind, next opened.1 inner.1 = behind := ⟨_, rfl⟩
    have hrest := hnext opened.1 inner.1
    rw [hbehind] at hrest
    have hopen : start.Regular := hstart ▸ hregular.of_same rfl (fun _ h => h) rfl
    have hinside : (enterScope start).2.Stands mode true := by
      subst hstart
      exact ⟨hopen.enterScope, hloud, hfunction, rooted_enterScope _, fun _ => hdeep, fun _ h => by cases h⟩
    have hgiven : final.Grants mode (enterScope start).2.flow defined := by
      subst hstart
      exact hgrants
    have hlast : (behind (exitScope inner.2).2).2.Extends final := by
      subst hbehind hinner hopened hstart
      exact hextends
    have hinner' : inner.2.Extends final :=
      (extends_exitScope _).trans ((hrest.encloses.1 (exitScope inner.2).2).toExtends.trans hlast)
    have hfirst : (enterScope start).2.Keeps opened.2 := hopened ▸ hparameters.keeps (enterScope start).2
    have hsecond : opened.2.Keeps inner.2 := hinner ▸ hbody.keeps opened.2
    have hkeeps := Analysis.Keeps.ofScope (hfirst.trans hsecond)
    obtain ⟨-, hbound⟩ := hparameters.serves _ hinside (hopened ▸ hsecond.toExtends.trans hinner') defined hgiven
    have hpart := hbody.runs opened.2 (hinside.keep hfirst) (hinner ▸ hinner') defined .free (hopened ▸ hbound)
      (fun _ _ _ => trivial) (fun _ _ _ => trivial) (fun _ _ => trivial) rfl
    rw [hinner] at hpart
    have hregular' := Analysis.Keeps.regular_ofScope (hfirst.trans hsecond) hopen
    have hserved : post (behind (exitScope inner.2).2).1 defined := by
      subst hstart
      exact hrest.serves _ hregular' (hkeeps.silence.trans hloud) (hkeeps.currentFunction.trans hfunction)
        (hdeep.trans_eq hkeeps.functionDepth.symm) hlast defined hgrants hpart
    subst hbehind hinner hopened hstart
    exact hserved

/-- The body of a function that has been declared before. -/
theorem serves_declaredBody (id : BindingId) {body : Check α} (hkeeps : Keeps body)
    (hflow : ∀ a, (body a).2.flow = a.flow) : Serves final mode nested (declaredBody id body) fun _ _ => True := by
  refine serves_quiet (keeps_declaredBody id hkeeps) fun a => ?_
  rw [declaredBody_snd]
  split
  · exact hflow _
  · exact hflow a

/-- The body of a global function, which may run once what it may read is defined. -/
theorem ready_declaredBody (id : BindingId) {body : FlowState → Check α} {post : α → Globals → Prop}
    (hbody : ∀ flow, ServesBody final (some id) flow (body flow) post) {a : Analysis} (hrooted : a.Rooted)
    (hregular : a.Regular) (hloud : a.silence = 0) (hhoisted : a.Hoisted id)
    (hextends : (declaredBody id (functionBody body) a).2.Extends final) (defined : Globals)
    (hready : final.readiness.Ready id defined) : post (declaredBody id (functionBody body) a).1 defined := by
  have hflag : (a.symbols[id]?.map (·.hoisted)).getD false = true := by
    obtain ⟨symbol, hfound, hflag⟩ := hhoisted
    simp [hfound, hflag]
  have hinner : Regular { a with currentFunction := some id, summaries := a.summaries.insert id (a.summaries.of id) } :=
    ((keeps_summary (a := a) id (fun _ h => h) (fun _ h => h) fun _ => .inl).regular hrooted hregular).of_same rfl
      (fun _ h => h) rfl
  rw [declaredBody_snd, if_pos hflag] at hextends ⊢
  refine (hbody a.flow).serves { a with
      currentFunction := some id, summaries := a.summaries.insert id (a.summaries.of id), loops := []
      functionDepth := a.functionDepth + 1 }
    (hinner.of_same rfl (fun _ h => h) rfl) hloud rfl (Nat.succ_pos _) ?_ defined hready
  exact hextends.of_facts rfl rfl rfl rfl

/-- One look at the body of a loop. The test of the loop is left with what is defined before the loop, and so is
every way out of the body with what is defined there. -/
structure Turns (final : Analysis) (mode : Option BindingId) (body : Check (α × Option FlowState))
    (post : α → Globals → Exits → Prop) : Prop where
  keeps : Keeps body
  turns : ∀ a : Analysis, a.Stands mode true → (body a).2.Extends final → ∀ defined exits,
    final.Grants mode a.flow defined →
    (∀ flow, (body a).1.2 = some flow → final.Grants mode flow defined → exits.fall defined) →
    (∀ more, defined ⊆ more → final.Leaves mode (body a).2.loops more → exits.fall more) →
      post (body a).1.1 defined exits

/-- The path at the start of a loop says no more than the path before it. -/
theorem weakens_loopEntry (body : Check (α × Option FlowState)) (outer : Nat) (before : FlowState) (passes : Nat)
    {entry : FlowState} (hentry : before.Weakens entry) (a : Analysis) :
    before.Weakens (loopEntry body outer before passes entry a).1 := by
  induction passes generalizing entry a with
  | zero => exact hentry
  | succ passes ih =>
    obtain ⟨pass, hpass⟩ : ∃ pass, loopPass body entry a = pass := ⟨_, rfl⟩
    obtain ⟨next, hnext⟩ : ∃ next, (before.meet (pass.1.2.2.skipping.foldl FlowState.meet pass.2.flow)).truncate outer =
        next := ⟨_, rfl⟩
    have heq : loopEntry body outer before (passes + 1) entry a =
        (if next = entry then pure entry else loopEntry body outer before passes next : Check FlowState) pass.2 := by
      subst hnext hpass
      rfl
    rw [heq]
    split
    · exact hentry
    · refine ih (hnext ▸ ?_) pass.2
      exact (FlowState.weakens_meet_left _ _).trans (FlowState.weakens_truncate _ _)

/-- A loop. All its turns start with what is defined before it. -/
theorem runs_analyzeLoop {body : Check (α × Option FlowState)} {post : α → Globals → Exits → Prop}
    (hbody : Turns final mode body post) : Runs final mode nested (analyzeLoop body) post where
  keeps := keeps_analyzeLoop hbody.keeps
  runs a hstands hextends defined exits hgrants hfall hleave hskip := by
    have hbefore := weakens_loopEntry body a.symbols.size a.flow (a.symbols.size * 2 + 3) (.refl _)
      { a with silence := a.silence + 1 }
    have hsilent := Analysis.Keeps.ofSilence (keeps_loopEntry hbody.keeps a.symbols.size a.flow (a.symbols.size * 2 + 3)
      a.flow { a with silence := a.silence + 1 })
    obtain ⟨found, hfound⟩ : ∃ found, loopEntry body a.symbols.size a.flow (a.symbols.size * 2 + 3) a.flow
        { a with silence := a.silence + 1 } = found := ⟨_, rfl⟩
    rw [hfound] at hbefore hsilent
    obtain ⟨quiet, hquiet⟩ : ∃ quiet, { found.2 with silence := found.2.silence - 1 } = quiet := ⟨_, rfl⟩
    rw [hquiet] at hsilent
    obtain ⟨inner, hinner⟩ : ∃ inner, body (enterScope { quiet with flow := found.1, loops := {} :: quiet.loops }).2 =
        inner := ⟨_, rfl⟩
    have heq : analyzeLoop body a = (inner.1.1, { (exitScope inner.2).2 with
        loops := (exitScope inner.2).2.loops.tail
        flow := (((exitScope inner.2).2.loops.headD {}).leaving.foldl FlowState.meet
          (inner.1.2.getD .unreachable)).truncate a.symbols.size }) := by
      subst hinner hquiet hfound
      rfl
    rw [heq, loops_exitScope] at hextends hfall hleave
    rw [heq]
    have hstart := ((hstands.keep hsilent).withFlow found.1).withLoops ({} :: quiet.loops)
    have hgrown := (hbody.keeps (enterScope { quiet with flow := found.1, loops := {} :: quiet.loops }).2).loops
    obtain ⟨grown, hgrown, -⟩ : PathsGrow ({} :: quiet.loops) inner.2.loops := hinner ▸ hgrown
    rw [hgrown] at hfall
    -- Whoever leaves the loop goes on with no more than is known behind it.
    have hexit (flow : FlowState) (more : Globals) (hflow : flow.Weakens (grown.leaving.foldl FlowState.meet
        (inner.1.2.getD .unreachable))) (hmore : defined ⊆ more) (h : final.Grants mode flow more) : exits.fall more :=
      hfall more hmore (h.weaken (hflow.trans (FlowState.weakens_truncate _ _)))
    have hturn := hbody.turns _ hstart.enter
      ((hinner ▸ (extends_exitScope _).trans (hextends.of_facts rfl rfl rfl rfl))) defined exits
      (hgrants.weaken hbefore)
    rw [hinner] at hturn
    refine hturn (fun flow hflow h => hexit flow defined ?_ subset_rfl h) fun more hmore h => ?_
    · rw [hflow]
      exact (FlowState.weakens_foldl _ _).1
    · obtain ⟨flow, hflow, h⟩ := h grown quiet.loops hgrown
      exact hexit flow more ((FlowState.weakens_foldl _ _).2 flow hflow) hmore h

/-- A loop with a test: it is left behind the test, with what is defined before it. -/
theorem turns_tested {γ : Type} {test : Check α} {part : Check β} {first : α → Globals → Prop}
    {second : β → Globals → Exits → Prop} {post : γ → Globals → Exits → Prop}
    (htest : Serves final mode true test first) (hpart : Runs final mode true part second) (make : α → β → γ)
    (hpost : ∀ value result defined exits, first value defined → second result defined (exits.turn defined) →
      exits.fall defined → post (make value result) defined exits) :
    Turns final mode (do
      let value ← test
      let testExit ← getFlow
      let result ← part
      return (make value result, some testExit)) post where
  keeps := htest.keeps.bind fun _ => keeps_getFlow fun _ => hpart.keeps.bind fun _ => keeps_pure _
  turns a hstands hextends defined exits hgrants hexit hleave := by
    obtain ⟨hvalue, hbetween⟩ :=
      htest.serves a hstands ((hpart.keeps (test a).2).toExtends.trans hextends) defined hgrants
    exact hpost _ _ _ _ hvalue
      (hpart.runs (test a).2 (hstands.keep (htest.keeps a)) hextends defined _ hbetween (fun _ hmore _ => hmore) hleave
        fun _ hmore => hmore)
      (hexit _ rfl hbetween)

/-- A loop that only its body leaves. -/
theorem turns_untested {part : Check α} {post : α → Globals → Exits → Prop} (hpart : Runs final mode true part post) :
    Turns final mode (do
      let result ← part
      return (result, none)) fun result defined exits => post result defined (exits.turn defined) where
  keeps := hpart.keeps.bind fun _ => keeps_pure _
  turns a hstands hextends defined _ hgrants _ hleave :=
    hpart.runs a hstands hextends defined _ hgrants (fun _ hmore _ => hmore) hleave fun _ hmore => hmore

theorem runs_leaveLoop (value : α) : Runs final mode nested (do
    leaveLoop
    return value) fun result defined exits => result = value ∧ exits.leave defined where
  keeps := keeps_leaveLoop.bind fun _ => keeps_pure value
  runs a _ _ defined exits hgrants _ hleave _ := by
    refine ⟨rfl, hleave defined subset_rfl ?_⟩
    change final.Leaves mode (leaveLoop a).2.loops defined
    rw [leaveLoop_snd]
    intro loop rest hloops
    cases hold : a.loops with
    | nil => simp [hold] at hloops
    | cons old others =>
      rw [hold, List.modifyHead_cons] at hloops
      cases hloops
      exact ⟨a.flow, Array.mem_push_self, hgrants⟩

theorem runs_skipLoop (value : α) : Runs final mode nested (do
    skipLoop
    return value) fun result defined exits => result = value ∧ exits.skip defined where
  keeps := keeps_skipLoop.bind fun _ => keeps_pure value
  runs _ _ _ defined _ _ _ _ hskip := ⟨rfl, hskip defined subset_rfl⟩

theorem runs_endPath (value : α) : Runs final mode nested (do
    endPath
    return value) fun result _ _ => result = value where
  keeps := keeps_endPath.bind fun _ => keeps_pure value
  runs _ _ _ _ _ _ _ _ _ := rfl

/-- The look at the arms of a cond, from the path on which the first one is tested and the one on which those
before it end. -/
structure Chooses (final : Analysis) (mode : Option BindingId) (nested : Bool) (test after : FlowState)
    (step : Check (α × FlowState)) (post : α → Globals → Exits → Prop) : Prop where
  keeps : Keeps step
  weakens : ∀ a, after.Weakens (step a).1.2
  chooses : ∀ a : Analysis, a.Stands mode nested → (step a).2.Extends final → ∀ defined exits,
    final.Grants mode test defined →
    (∀ more, defined ⊆ more → final.Grants mode (step a).1.2 more → exits.fall more) →
    (∀ more, defined ⊆ more → final.Leaves mode (step a).2.loops more → exits.leave more) →
    (∀ more, defined ⊆ more → exits.skip more) → post (step a).1.1 defined exits

theorem chooses_done {test after : FlowState} {value : α} {post : α → Globals → Exits → Prop}
    (hpost : ∀ defined exits, post value defined exits) :
    Chooses final mode nested test after (pure (value, after)) post where
  keeps := keeps_pure _
  weakens _ := .refl after
  chooses _ _ _ defined exits _ _ _ _ := hpost defined exits

/-- An arm of a cond. The one behind it is tested where the guard has failed, and goes on where that one does. -/
theorem chooses_arm {γ : Type} {outer : Nat} {test after : FlowState} {pattern : Check γ} {guard : Check Expr}
    {body : Check β} {next : γ → Expr → FlowState → β → FlowState → Check (α × FlowState)}
    {first : Expr → Globals → Prop} {middle : β → Globals → Exits → Prop}
    {last : γ → Expr → β → α → Globals → Exits → Prop} {post : α → Globals → Exits → Prop}
    (hpattern : Serves final mode true pattern fun _ _ => True) (hguard : Serves final mode true guard first)
    (hbody : Runs final mode true body middle)
    (hnext : ∀ pattern guard test part armEnd, Chooses final mode nested test (after.meet armEnd)
      (next pattern guard test part armEnd) (last pattern guard part))
    (hpost : ∀ pattern guard part result defined exits, first guard defined → middle part defined exits →
      last pattern guard part result defined exits → post result defined exits) :
    Chooses final mode nested test after (do
      setFlow test
      enterScope
      let pattern ← pattern
      let guard ← guard
      let test := (← getFlow).truncate outer
      let part ← body
      exitScope
      let armEnd := (← getFlow).truncate outer
      next pattern guard test part armEnd) post where
  keeps a := by
    have hinner := ((hpattern.keeps (enterScope { a with flow := test }).2).trans (hguard.keeps _)).trans
      (hbody.keeps _)
    exact (keeps_setFlow test a).trans (hinner.ofScope.trans ((hnext _ _ _ _ _).keeps _))
  weakens _ := (FlowState.weakens_meet_left _ _).trans ((hnext _ _ _ _ _).weakens _)
  chooses a hstands hextends defined exits hgrants hfall hleave hskip := by
    obtain ⟨start, hstart⟩ : ∃ start, (enterScope { a with flow := test }).2 = start := ⟨_, rfl⟩
    obtain ⟨opened, hopened⟩ : ∃ opened, pattern start = opened := ⟨_, rfl⟩
    obtain ⟨tested, htested⟩ : ∃ tested, guard opened.2 = tested := ⟨_, rfl⟩
    obtain ⟨inner, hinner⟩ : ∃ inner, body tested.2 = inner := ⟨_, rfl⟩
    obtain ⟨armEnd, hend⟩ : ∃ armEnd, (exitScope inner.2).2.flow.truncate outer = armEnd := ⟨_, rfl⟩
    obtain ⟨behind, hbehind⟩ : ∃ behind, next opened.1 tested.1 (tested.2.flow.truncate outer) inner.1 armEnd =
        behind := ⟨_, rfl⟩
    have hrest := hnext opened.1 tested.1 (tested.2.flow.truncate outer) inner.1 armEnd
    rw [hbehind] at hrest
    have heq : (do
        setFlow test
        enterScope
        let pattern ← pattern
        let guard ← guard
        let test := (← getFlow).truncate outer
        let part ← body
        exitScope
        let armEnd := (← getFlow).truncate outer
        next pattern guard test part armEnd) a = behind (exitScope inner.2).2 := by
      subst hbehind hend hinner htested hopened hstart
      rfl
    rw [heq] at hextends hfall hleave ⊢
    have hfirst : start.Keeps opened.2 := hopened ▸ hpattern.keeps start
    have hsecond : opened.2.Keeps tested.2 := htested ▸ hguard.keeps opened.2
    have hthird : tested.2.Keeps inner.2 := hinner ▸ hbody.keeps tested.2
    have hscope : Analysis.Keeps { a with flow := test } (exitScope inner.2).2 := by
      subst hstart
      exact ((hfirst.trans hsecond).trans hthird).ofScope
    have hlast := hrest.keeps (exitScope inner.2).2
    have hinner' : inner.2.Extends final := (extends_exitScope inner.2).trans (hlast.toExtends.trans hextends)
    have htested' : tested.2.Extends final := hthird.toExtends.trans hinner'
    have hinside : start.Stands mode true := hstart ▸ (hstands.withFlow test).enter
    have hgiven : final.Grants mode start.flow defined := by
      subst hstart
      exact hgrants
    obtain ⟨-, hbound⟩ := hpattern.serves start hinside (hopened ▸ hsecond.toExtends.trans htested') defined hgiven
    rw [hopened] at hbound
    obtain ⟨hguarded, hbetween⟩ := hguard.serves opened.2 (hinside.keep hfirst) (htested ▸ htested') defined hbound
    rw [htested] at hguarded hbetween
    have hran := hbody.runs tested.2 ((hinside.keep hfirst).keep hsecond) (hinner ▸ hinner') defined exits hbetween
    rw [hinner] at hran
    refine hpost _ _ _ _ _ _ hguarded (hran (fun more hmore h => ?_) (fun more hmore h => ?_) hskip)
      (hrest.chooses _ ((hstands.withFlow test).keep hscope) hextends defined exits
        (hbetween.weaken (FlowState.weakens_truncate _ _)) hfall hleave hskip)
    · refine hfall more hmore (h.weaken ?_)
      rw [← flow_exitScope inner.2]
      exact ((hend ▸ FlowState.weakens_truncate _ outer).trans (FlowState.weakens_meet_right after armEnd)).trans
        (hrest.weakens _)
    · rw [← loops_exitScope inner.2] at h
      exact hleave more hmore (h.grow hlast.loops)

/-- All arms of a cond, from the path in front of them. Without an arm that matches the program stops. -/
theorem runs_chooses {arms : Nat → FlowState → Check (α × FlowState)} {middle : α → Globals → Exits → Prop}
    {post : β → Globals → Exits → Prop}
    (harms : ∀ outer test, Chooses final mode nested test .unreachable (arms outer test) middle) (make : α → β)
    (hpost : ∀ value defined exits, middle value defined exits → post (make value) defined exits) :
    Runs final mode nested (do
      let outer := (← get).symbols.size
      let (value, after) ← arms outer (← getFlow)
      setFlow after
      return make value) post where
  keeps a := ((harms a.symbols.size a.flow).keeps a).trans (keeps_setFlow _ _)
  runs a hstands hextends defined exits hgrants hfall hleave hskip := by
    have hsame (flow : FlowState) : (arms a.symbols.size a.flow a).2.SameFacts
        { (arms a.symbols.size a.flow a).2 with flow } := ⟨rfl, rfl, rfl, rfl⟩
    exact hpost _ _ _ ((harms a.symbols.size a.flow).chooses a hstands ((hsame _).extends.trans hextends) defined exits
      hgrants hfall hleave hskip)

end Check

end OwnScript
