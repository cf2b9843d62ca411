import OwnScript.Proofs.Analysis.Growth
import OwnScript.Proofs.Analysis.Summaries
import OwnScript.Proofs.Analysis.Walks
import OwnScript.Proofs.Program.Timing

/-!
What a path of an accepted analysis says about a run. The globals that are defined when control gets to a point
include those that the path to it knows to be initialized. In the body of a global function the path says
nothing, and the globals that the function may read according to its summary are defined instead. Steps that
look at names keep this, and without a diagnostic the names may be read.
-/

namespace OwnScript

namespace FlowState

variable {flow middle after other : FlowState}

/-- A path that says no more than another one, wherever the other one can be taken. -/
def Weakens (flow after : FlowState) : Prop :=
  flow.reachable = true →
    after.reachable = true ∧ ∀ id, after.get id = .initialized → flow.get id = .initialized

theorem Weakens.refl (flow : FlowState) : flow.Weakens flow :=
  fun h => ⟨h, fun _ => id⟩

theorem Weakens.trans (hfirst : flow.Weakens middle) (hsecond : middle.Weakens after) : flow.Weakens after := by
  intro h
  obtain ⟨hreachable, hfirst⟩ := hfirst h
  obtain ⟨hreachable, hsecond⟩ := hsecond hreachable
  exact ⟨hreachable, fun id hid => hfirst id (hsecond id hid)⟩

theorem meet_eq_initialized {a b : InitState} (hmeet : a.meet b = .initialized) :
    a = .initialized ∧ b = .initialized := by
  cases a <;> cases b <;> first | exact ⟨rfl, rfl⟩ | cases hmeet

theorem get_meet (hflow : flow.reachable = true) (hother : other.reachable = true) {id : BindingId}
    (hmeet : (flow.meet other).get id = .initialized) :
    flow.get id = .initialized ∧ other.get id = .initialized := by
  have hstates : (flow.meet other).states = Array.ofFn fun i : Fin (max flow.states.size other.states.size) =>
      (flow.get i).meet (other.get i) := by
    simp [meet, hflow, hother]
  rw [get, hstates] at hmeet
  by_cases hin : id < max flow.states.size other.states.size
  · rw [Array.getElem?_ofFn, dif_pos hin] at hmeet
    exact meet_eq_initialized hmeet
  · rw [Array.getElem?_ofFn, dif_neg hin] at hmeet
    cases hmeet

theorem weakens_meet_left (flow other : FlowState) : flow.Weakens (flow.meet other) := by
  intro hflow
  by_cases hother : other.reachable = true
  · exact ⟨by simp [meet, hflow, hother], fun id h => (get_meet hflow hother h).1⟩
  · have hsame : flow.meet other = flow := by simp [meet, hflow, hother]
    rw [hsame]
    exact ⟨hflow, fun _ => id⟩

theorem weakens_meet_right (flow other : FlowState) : other.Weakens (flow.meet other) := by
  intro hother
  by_cases hflow : flow.reachable = true
  · exact ⟨by simp [meet, hflow, hother], fun id h => (get_meet hflow hother h).2⟩
  · have hsame : flow.meet other = other := by simp [meet, hflow]
    rw [hsame]
    exact ⟨hother, fun _ => id⟩

theorem weakens_truncate (flow : FlowState) (count : Nat) : flow.Weakens (flow.truncate count) := by
  intro hflow
  refine ⟨hflow, fun id h => ?_⟩
  simp only [truncate, get, Array.take_eq_extract, Array.getElem?_extract, Nat.zero_add] at h
  split at h
  · exact h
  · cases h

/-- Where many paths join, no more is known than on each of them. -/
theorem weakens_foldl (flows : Array FlowState) (start : FlowState) :
    start.Weakens (flows.foldl meet start) ∧ ∀ flow ∈ flows, flow.Weakens (flows.foldl meet start) := by
  rw [← Array.foldl_toList]
  simp only [← Array.mem_toList_iff]
  generalize flows.toList = flows
  induction flows generalizing start with
  | nil => exact ⟨.refl _, fun _ h => by cases h⟩
  | cons flow rest ih =>
    obtain ⟨hstart, hrest⟩ := ih (start.meet flow)
    refine ⟨(weakens_meet_left start flow).trans hstart, fun other hother => ?_⟩
    rcases List.mem_cons.mp hother with rfl | hother
    · exact (weakens_meet_right start other).trans hstart
    · exact hrest other hother

end FlowState

namespace Analysis

variable {final a after : Analysis} {mode : Option BindingId} {nested : Bool} {flow : FlowState}
  {defined more : Globals} {id : BindingId}

/-- The global functions of an analyzed program and the globals that they may read. -/
def readiness (final : Analysis) : Readiness where
  functions := { id | final.Hoisted id }
  reads function := { id | id ∈ final.summaries.globalReads function }

/-- What is defined agrees with what is known at a point of the program. -/
def Grants (final : Analysis) (mode : Option BindingId) (flow : FlowState) (defined : Globals) : Prop :=
  final.readiness.functions ⊆ defined ∧
    match mode with
    | some function => final.readiness.reads function ⊆ defined
    | none => flow.reachable = true ∧ ∀ id, final.IsGlobal id → flow.get id = .initialized → id ∈ defined

theorem Grants.weaken (hgrants : final.Grants mode flow defined) {weaker : FlowState} (hweakens : flow.Weakens weaker) :
    final.Grants mode weaker defined := by
  cases mode with
  | some function => exact hgrants
  | none =>
    obtain ⟨hfunctions, hreachable, hknown⟩ := hgrants
    obtain ⟨hreachable, hless⟩ := hweakens hreachable
    exact ⟨hfunctions, hreachable, fun id hglobal h => hknown id hglobal (hless id h)⟩

/-- A variable has reached a new state. -/
theorem Grants.set (hgrants : final.Grants mode flow defined) (hmore : defined ⊆ more) {state : InitState}
    (hstate : state = .initialized → final.IsGlobal id → id ∈ more) : final.Grants mode (flow.set id state) more := by
  cases mode with
  | some function => exact ⟨hgrants.1.trans hmore, hgrants.2.trans hmore⟩
  | none =>
    obtain ⟨hfunctions, hreachable, hknown⟩ := hgrants
    refine ⟨hfunctions.trans hmore, hreachable, fun other hglobal h => ?_⟩
    by_cases hsame : other = id
    · subst hsame
      rw [FlowState.get_set_self] at h
      exact hstate h hglobal
    · rw [FlowState.get_set_of_ne flow state hsame] at h
      exact hmore (hknown other hglobal h)

/-- Inside a function, where the path can be taken. -/
theorem Grants.reach (hgrants : final.Grants mode flow defined) :
    final.Grants mode { flow with reachable := true } defined := by
  cases mode with
  | some function => exact hgrants
  | none => exact ⟨hgrants.1, rfl, hgrants.2.2⟩

/-- What is defined where a path leaves the innermost loop. -/
def Leaves (final : Analysis) (mode : Option BindingId) (loops : List LoopPaths) (defined : Globals) : Prop :=
  ∀ loop rest, loops = loop :: rest → ∃ flow ∈ loop.leaving, final.Grants mode flow defined

theorem Leaves.grow {loops grown : List LoopPaths} (hleaves : final.Leaves mode loops defined)
    (hgrow : PathsGrow loops grown) : final.Leaves mode grown defined := by
  rintro loop rest rfl
  cases loops with
  | nil => cases hgrow
  | cons old others =>
    obtain ⟨_, hsame, hleaving⟩ := hgrow
    cases hsame
    obtain ⟨flow, hflow, hgrants⟩ := hleaves old rest rfl
    exact ⟨flow, hleaving flow hflow, hgrants⟩

/-- An analysis that reports, at a point of the program. -/
structure Stands (mode : Option BindingId) (nested : Bool) (a : Analysis) : Prop where
  regular : a.Regular
  loud : a.silence = 0
  function : a.currentFunction = mode
  rooted : a.Rooted
  deep : mode ≠ none → 0 < a.functionDepth
  inside : nested = true → a.outerScopes ≠ []

theorem Stands.keep (hstands : a.Stands mode nested) (hkeeps : a.Keeps after) : after.Stands mode nested where
  regular := hkeeps.regular hstands.rooted hstands.regular
  loud := hkeeps.silence.trans hstands.loud
  function := hkeeps.currentFunction.trans hstands.function
  rooted := hkeeps.rooted hstands.rooted
  deep h := hkeeps.functionDepth ▸ hstands.deep h
  inside h := hkeeps.outerScopes ▸ hstands.inside h

/-- The state at the end of an analysis that has found nothing wrong. -/
structure Accepted (final : Analysis) : Prop where
  regular : final.Regular
  errors : final.errors = #[]
  pending : ∀ reference ∈ final.pending, ∀ id ∈ final.summaries.globalReads reference.function,
    reference.flow.get id = .initialized

theorem Accepted.isGlobal (haccepted : final.Accepted) {function : BindingId}
    (hread : id ∈ final.summaries.globalReads function) : final.IsGlobal id := by
  obtain ⟨f, -, hread⟩ := Summaries.mem_globalReads.mp hread
  exact haccepted.regular.reads f id hread

/-- Whether a declaration is global or hoisted is known as soon as it is there. -/
theorem Extends.isGlobal_iff (hextends : a.Extends final) {symbol : Symbol} (hfound : a.symbols[id]? = some symbol) :
    final.IsGlobal id ↔ symbol.isGlobal = true := by
  obtain ⟨later, hlater, hglobal, -⟩ := hextends.symbols id symbol hfound
  constructor
  · rintro ⟨found, hsame, hflag⟩
    cases hlater.symm.trans hsame
    exact hglobal.symm.trans hflag
  · exact fun h => ⟨later, hlater, hglobal.trans h⟩

theorem Extends.hoisted_iff (hextends : a.Extends final) {symbol : Symbol} (hfound : a.symbols[id]? = some symbol) :
    final.Hoisted id ↔ symbol.hoisted = true := by
  obtain ⟨later, hlater, -, hhoisted⟩ := hextends.symbols id symbol hfound
  constructor
  · rintro ⟨found, hsame, hflag⟩
    cases hlater.symm.trans hsame
    exact hhoisted.symm.trans hflag
  · exact fun h => ⟨later, hlater, hhoisted.trans h⟩

end Analysis

namespace Check

open Analysis

variable {α β : Type} {final : Analysis} {mode : Option BindingId} {nested : Bool}

/-- A step that defines nothing. What is known before it is known behind it, and its result is as wanted for
what is defined. -/
structure Serves (final : Analysis) (mode : Option BindingId) (nested : Bool) (step : Check α)
    (post : α → Globals → Prop) : Prop where
  keeps : Keeps step
  serves : ∀ a : Analysis, a.Stands mode nested → (step a).2.Extends final → ∀ defined,
    final.Grants mode a.flow defined → post (step a).1 defined ∧ final.Grants mode (step a).2.flow defined

/-- The result of a step that may change what is defined, where control leaves it as the exits ask for. -/
structure Runs (final : Analysis) (mode : Option BindingId) (nested : Bool) (step : Check α)
    (post : α → Globals → Exits → Prop) : Prop where
  keeps : Keeps step
  runs : ∀ a : Analysis, a.Stands mode nested → (step a).2.Extends final → ∀ defined exits,
    final.Grants mode a.flow defined →
    (∀ more, defined ⊆ more → final.Grants mode (step a).2.flow more → exits.fall more) →
    (∀ more, defined ⊆ more → final.Leaves mode (step a).2.loops more → exits.leave more) →
    (∀ more, defined ⊆ more → exits.skip more) → post (step a).1 defined exits

theorem Serves.mono {step : Check α} {post wider : α → Globals → Prop} (hstep : Serves final mode nested step post)
    (hwider : ∀ value defined, post value defined → wider value defined) : Serves final mode nested step wider where
  keeps := hstep.keeps
  serves a hstands hextends defined hgrants := by
    obtain ⟨hpost, hafter⟩ := hstep.serves a hstands hextends defined hgrants
    exact ⟨hwider _ _ hpost, hafter⟩

theorem serves_pure {value : α} {post : α → Globals → Prop} (hpost : ∀ defined, post value defined) :
    Serves final mode nested (pure value) post where
  keeps := keeps_pure value
  serves _ _ _ defined hgrants := ⟨hpost defined, hgrants⟩

theorem Serves.bind {step : Check α} {next : α → Check β} {middle : α → Globals → Prop} {post : β → Globals → Prop}
    (hstep : Serves final mode nested step middle)
    (hnext : ∀ value, Serves final mode nested (next value) fun result defined =>
      middle value defined → post result defined) : Serves final mode nested (step >>= next) post where
  keeps := hstep.keeps.bind fun value => (hnext value).keeps
  serves a hstands hextends defined hgrants := by
    have hlater := (hnext (step a).1).keeps (step a).2
    obtain ⟨hmiddle, hbetween⟩ := hstep.serves a hstands (hlater.toExtends.trans hextends) defined hgrants
    obtain ⟨hpost, hafter⟩ :=
      (hnext _).serves (step a).2 (hstands.keep (hstep.keeps a)) hextends defined hbetween
    exact ⟨hpost hmiddle, hafter⟩

/-- A step that leaves the path as it is, and whose result does not matter. -/
theorem serves_quiet {step : Check α} (hkeeps : Keeps step) (hflow : ∀ a, (step a).2.flow = a.flow) :
    Serves final mode nested step fun _ _ => True where
  keeps := hkeeps
  serves a _ _ _ hgrants := ⟨trivial, (hflow a).symm ▸ hgrants⟩

/-- A step whose result does not matter. -/
theorem Serves.after {step : Check α} {next : α → Check β} {middle : α → Globals → Prop} {post : β → Globals → Prop}
    (hstep : Serves final mode nested step middle) (hnext : ∀ value, Serves final mode nested (next value) post) :
    Serves final mode nested (step >>= next) post :=
  hstep.bind fun value => (hnext value).mono fun _ _ h _ => h

/-- A step that is followed by the other statements. -/
theorem Serves.followed {step : Check α} {next : α → Check β} {middle : α → Globals → Prop}
    {post : β → Globals → Exits → Prop} (hstep : Serves final mode nested step middle)
    (hnext : ∀ value, Runs final mode nested (next value) fun result defined exits =>
      middle value defined → post result defined exits) : Runs final mode nested (step >>= next) post where
  keeps := hstep.keeps.bind fun value => (hnext value).keeps
  runs a hstands hextends defined exits hgrants hfall hleave hskip := by
    have hlater := (hnext (step a).1).keeps (step a).2
    obtain ⟨hmiddle, hbetween⟩ := hstep.serves a hstands (hlater.toExtends.trans hextends) defined hgrants
    exact (hnext _).runs (step a).2 (hstands.keep (hstep.keeps a)) hextends defined exits hbetween hfall hleave hskip
      hmiddle

theorem Runs.mono {step : Check α} {post wider : α → Globals → Exits → Prop} (hstep : Runs final mode nested step post)
    (hwider : ∀ value defined exits, post value defined exits → wider value defined exits) :
    Runs final mode nested step wider where
  keeps := hstep.keeps
  runs a hstands hextends defined exits hgrants hfall hleave hskip :=
    hwider _ _ _ (hstep.runs a hstands hextends defined exits hgrants hfall hleave hskip)

/-- Control goes on behind a statement that defines nothing. -/
theorem Serves.falls {step : Check α} {middle : α → Globals → Prop} {post : α → Globals → Exits → Prop}
    (hstep : Serves final mode nested step middle)
    (hpost : ∀ value defined (exits : Exits), middle value defined → exits.fall defined → post value defined exits) :
    Runs final mode nested step post where
  keeps := hstep.keeps
  runs a hstands hextends defined exits hgrants hfall _ _ := by
    obtain ⟨hmiddle, hafter⟩ := hstep.serves a hstands hextends defined hgrants
    exact hpost _ _ _ hmiddle (hfall defined subset_rfl hafter)

theorem serves_get {next : Analysis → Check β} {post : β → Globals → Prop}
    (hnext : ∀ a, Serves final mode nested (next a) post) : Serves final mode nested (get >>= next) post where
  keeps := keeps_get fun a => (hnext a).keeps
  serves a hstands hextends defined hgrants := (hnext a).serves a hstands hextends defined hgrants

theorem runs_get {next : Analysis → Check β} {post : β → Globals → Exits → Prop}
    (hnext : ∀ a, Runs final mode nested (next a) post) : Runs final mode nested (get >>= next) post where
  keeps := keeps_get fun a => (hnext a).keeps
  runs a := (hnext a).runs a

theorem runs_pure {value : α} {post : α → Globals → Exits → Prop}
    (hpost : ∀ defined (exits : Exits), exits.fall defined → post value defined exits) :
    Runs final mode nested (pure value) post where
  keeps := keeps_pure value
  runs _ _ _ defined exits hgrants hfall _ _ := hpost defined exits (hfall defined subset_rfl hgrants)

/-- A variable gives up its value. -/
theorem serves_setState_moved (id : BindingId) : Serves final mode nested (setState id .moved) fun _ _ => True where
  keeps := keeps_setState id .moved
  serves _ _ _ _ hgrants := ⟨trivial, hgrants.set subset_rfl fun h => by cases h⟩

theorem serves_newExtent : Serves final mode nested newExtent fun _ _ => True :=
  serves_quiet keeps_newExtent fun _ => rfl

theorem serves_releaseExtent (extent : Extent) : Serves final mode nested (releaseExtent extent) fun _ _ => True :=
  serves_quiet (keeps_releaseExtent extent) fun _ => rfl

theorem serves_releaseHeldBy (holder : BindingId) : Serves final mode nested (releaseHeldBy holder) fun _ _ => True :=
  serves_quiet (keeps_releaseHeldBy holder) fun _ => rfl

theorem serves_isBorrowed (id : BindingId) : Serves final mode nested (isBorrowed id) fun _ _ => True :=
  serves_quiet (keeps_isBorrowed id) fun _ => rfl

section Names

variable (haccepted : final.Accepted)

include haccepted

/-- Where diagnostics are reported, an accepted analysis does not come along a report. -/
theorem serves_report (kind : ErrorKind) (message : String) (location : Location) (name : String)
    (post : Unit → Globals → Prop) : Serves final mode nested (report kind message location name) post where
  keeps := keeps_report kind message location name
  serves _ hstands hextends _ _ := (errors_report hstands.loud haccepted.errors hextends).elim

omit haccepted in
/-- A variable is read: what matters is what is known of it on a path that gets there. -/
theorem useBinding_apply (id : BindingId) (name : String) (location : Location) (a : Analysis) :
    useBinding id name location a = (if a.flow.reachable = true then
      match a.flow.get id with
      | .initialized => pure ()
      | .uninitialized => do
        report .useOfUninitialized s!"'{name}' may be read before it is initialized" location name
        setState id .initialized
      | .moved => do
        report .useAfterMove s!"'{name}' is used after its value was moved" location name
        setState id .initialized
    else pure () : Check Unit) a := by
  simp only [useBinding]
  change (if a.flow.reachable = true then _ else _ : Check Unit) a = _
  cases a.flow.get id <;> rfl

theorem serves_useBinding (id : BindingId) (name : String) (location : Location) :
    Serves final mode nested (useBinding id name location) fun _ defined =>
      mode = none → final.IsGlobal id → id ∈ defined where
  keeps := keeps_useBinding id name location
  serves a hstands hextends defined hgrants := by
    have hbad (kind : ErrorKind) (message : String) (h : Analysis.Extends ((do
        report kind message location name
        setState id .initialized : Check Unit) a).2 final) : False :=
      errors_report hstands.loud haccepted.errors ((keeps_setState id .initialized _).toExtends.trans h)
    rw [useBinding_apply] at hextends ⊢
    cases mode with
    | some function =>
      refine ⟨fun h => (by cases h), hgrants⟩
    | none =>
      rw [if_pos hgrants.2.1] at hextends ⊢
      cases hstate : a.flow.get id with
      | initialized => exact ⟨fun _ hglobal => hgrants.2.2 id hglobal hstate, hgrants⟩
      | uninitialized =>
        rw [hstate] at hextends
        exact (hbad _ _ hextends).elim
      | moved =>
        rw [hstate] at hextends
        exact (hbad _ _ hextends).elim

omit haccepted in
theorem flow_noteReference (id : BindingId) (location : Location) (a : Analysis) :
    (noteReference id location a).2.flow = a.flow := by
  cases hfound : a.symbols[id]? with
  | none => simp [noteReference, modify_snd, hfound]
  | some symbol =>
    have hmarked : (marked a symbol id).flow = a.flow := by
      unfold marked
      split <;> rfl
    rw [noteReference_eq hfound]
    split
    · exact hmarked
    · split
      · exact hmarked
      · split
        · exact hmarked
        · exact hmarked

/-- A reference to a global function is noted, and what the function may read is defined: in the body of another
global function because its summary says so, and elsewhere because the reference waits for its check. A
reference to another global in the body of a global function is noted as well. -/
theorem may_of_noted {a : Analysis} {id : BindingId} {symbol : Symbol} {location : Location} {defined : Globals}
    (hstands : a.Stands mode nested) (hextends : (noteReference id location a).2.Extends final)
    (hfound : a.symbols[id]? = some symbol) (hglobal : symbol.isGlobal = true)
    (hgrants : final.Grants mode a.flow defined) (hknown : mode = none → final.IsGlobal id → id ∈ defined) :
    final.readiness.May defined id := by
  have hfirst : a.Extends final := (keeps_noteReference id location a).toExtends.trans hextends
  rw [noteReference_eq hfound, if_neg (by simp [hglobal]), hstands.function] at hextends
  cases mode with
  | some function =>
    have hof : Summaries.of (a.summaries.insert function (noted symbol id (a.summaries.of function))) function =
        noted symbol id (a.summaries.of function) := by
      simp [Summaries.of]
    cases hhoisted : symbol.hoisted with
    | true =>
      have hcall : id ∈ (final.summaries.of function).calls := by
        refine hextends.calls function id ?_
        rw [hof, noted, if_pos hhoisted]
        exact List.mem_cons_self ..
      refine ⟨hgrants.1 ((hfirst.hoisted_iff hfound).mpr hhoisted), fun _ => ⟨hgrants.1, fun other hother => ?_⟩⟩
      exact hgrants.2 (Summaries.mem_globalReads_of_calls hcall hother)
    | false =>
      have hread : id ∈ (final.summaries.of function).reads := by
        refine hextends.reads function id ?_
        rw [hof, noted, if_neg (by simp [hhoisted])]
        exact List.mem_cons_self ..
      refine ⟨hgrants.2 (Summaries.mem_globalReads_of_reads hread), fun h => ?_⟩
      rw [(hfirst.hoisted_iff hfound).mp h] at hhoisted
      cases hhoisted
  | none =>
    refine ⟨hknown rfl ((hfirst.isGlobal_iff hfound).mpr hglobal), fun h => ⟨hgrants.1, fun other hother => ?_⟩⟩
    have hready : symbol.hoisted = true ∧ a.silence = 0 ∧ a.flow.reachable = true :=
      ⟨(hfirst.hoisted_iff hfound).mp h, hstands.loud, hgrants.2.1⟩
    dsimp only at hextends
    rw [if_pos hready] at hextends
    have hpending := hextends.pending _ (Array.mem_push_self ..)
    exact hgrants.2.2 other (haccepted.isGlobal hother) (haccepted.pending _ hpending other hother)

omit haccepted in
/-- A name is looked up in the scopes around it, and what it leads to is written on it. -/
theorem resolve_apply (identifier : Identifier) (a : Analysis) :
    resolve identifier a = (match (a.scope :: a.outerScopes).findSome? (·.names[identifier.name]?) with
      | none => do
        report .undefinedName s!"undefined name '{identifier.name}'" identifier.location identifier.name
        return (identifier, none)
      | some id => do
        noteReference id identifier.location
        return ({ identifier with
          resolution := { binding := some id, isGlobal := (a.symbols[id]?.map (·.isGlobal)).getD false } }, some id)
      : Check (Identifier × Option BindingId)) a := by
  simp only [resolve]
  rw [lookup_bind_run, Analysis.found]
  cases (a.scope :: a.outerScopes).findSome? (·.names[identifier.name]?) <;> rfl

theorem serves_resolve (identifier : Identifier) :
    Serves final mode nested (resolve identifier) fun found defined =>
      ∃ id, found.2 = some id ∧ ((mode = none → final.IsGlobal id → id ∈ defined) →
        found.1.resolution.Timely final.readiness.May defined) where
  keeps := keeps_resolve identifier
  serves a hstands hextends defined hgrants := by
    rw [resolve_apply] at hextends ⊢
    generalize (a.scope :: a.outerScopes).findSome? (·.names[identifier.name]?) = target at hextends ⊢
    cases target with
    | none => exact (errors_report hstands.loud haccepted.errors hextends).elim
    | some id =>
      refine ⟨⟨id, rfl, fun hknown hflag other hother => ?_⟩, ?_⟩
      · cases hother
        cases hfound : a.symbols[id]? with
        | none =>
          change (a.symbols[id]?.map (·.isGlobal)).getD false = true at hflag
          simp [hfound] at hflag
        | some symbol =>
          change (a.symbols[id]?.map (·.isGlobal)).getD false = true at hflag
          rw [hfound] at hflag
          exact may_of_noted haccepted hstands hextends hfound hflag hgrants hknown
      · change final.Grants mode (noteReference id identifier.location a).2.flow defined
        rw [flow_noteReference]
        exact hgrants

theorem serves_moveBinding (id : BindingId) (name : String) (location : Location) :
    Serves final mode nested (moveBinding id name location) fun _ defined =>
      mode = none → final.IsGlobal id → id ∈ defined := by
  have hmove : Serves final mode nested (do
      releaseHeldBy id
      setState id .moved) fun _ _ => True :=
    (serves_releaseHeldBy id).after fun _ => serves_setState_moved id
  have hrest : Serves final mode nested (do
      if ← isBorrowed id then
        report .conflictingBorrow s!"cannot move '{name}' while it is borrowed" location name
      releaseHeldBy id
      setState id .moved) fun _ _ => True := by
    refine (serves_isBorrowed id).after fun borrowed => ?_
    split
    · exact (serves_report haccepted _ _ _ _ fun _ _ => True).after fun _ => hmove
    · exact hmove
  refine (serves_useBinding haccepted id name location).bind fun _ => serves_get fun a => ?_
  suffices hchecked : Serves final mode nested _ fun _ _ => True from hchecked.mono fun _ _ _ h => h
  split
  · split
    · exact (serves_report haccepted _ _ _ _ fun _ _ => True).after fun _ => hrest
    · split
      · exact (serves_report haccepted _ _ _ _ fun _ _ => True).after fun _ => hrest
      · exact hrest
  · exact hrest

/-- What is known of a place: if it is reached from a variable that may be read, all of it may. -/
def PlaceServed (final : Analysis) (mode : Option BindingId) (found : Expr × PlaceRoot) (defined : Globals) : Prop :=
  found.2 ≠ .unresolved ∧ ∀ identifier id, found.2 = .resolved identifier id →
    (mode = none → final.IsGlobal id → id ∈ defined) → found.1.Timely final.readiness.May defined

theorem serves_borrowPlace {location : Location} {exclusive : Bool} {extent : Extent}
    {place : Check (Expr × PlaceRoot)} {whole : Check Expr}
    (hplace : Serves final mode nested place (PlaceServed final mode))
    (hwhole : Serves final mode nested whole fun part defined => part.Timely final.readiness.May defined) :
    Serves final mode nested (borrowPlace location exclusive extent place whole) fun found defined =>
      found.1.Timely final.readiness.May defined := by
  refine hplace.bind fun found => ?_
  obtain ⟨part, root⟩ := found
  cases root with
  | expression => exact hwhole.bind fun _ => serves_pure fun _ h _ => h
  | unresolved => exact serves_pure fun _ h => (h.1 rfl).elim
  | resolved identifier id =>
    have hbegin (post : Nat → Globals → Prop) (hpost : ∀ place defined, post place defined) :
        Serves final mode nested (beginBorrow id identifier.name exclusive extent location) post := by
      have hpush (borrow : Borrow) (place : Nat) : Serves final mode nested (do
          modify fun a => { a with borrows := a.borrows.push borrow }
          return place) post :=
        (serves_quiet (fun _ => .of_same rfl rfl rfl (.refl _) (fun h => h) rfl rfl rfl rfl rfl) fun _ => rfl).after
          fun _ => serves_pure fun _ => hpost _ _
      refine serves_get fun a => ?_
      split
      · exact (serves_report haccepted _ _ _ _ fun _ _ => True).after fun _ => hpush _ _
      · exact hpush _ _
    refine (serves_useBinding haccepted id _ _).bind fun _ => ?_
    refine (hbegin (fun _ _ => True) fun _ _ => trivial).after fun _ => serves_pure fun _ hknown h => ?_
    exact h.2 identifier id rfl hknown

omit haccepted in
/-- An analysis that finds nothing wrong meets no name that is declared already. -/
theorem declareName_eq {a : Analysis} {name : String} {location : Location} {initial : InitState}
    (hloud : a.silence = 0) (hfinal : final.errors = #[])
    (hextends : (declareName name location initial a).2.Extends final) :
    declareName name location initial a = (a.symbols.size, declaredNew name location initial a) := by
  cases hknown : a.scope.names[name]? with
  | none => exact declareName_new hknown initial
  | some id =>
    rw [declareName_known hknown] at hextends
    exact (errors_report hloud hfinal hextends).elim

omit haccepted in
theorem declared_isGlobal (a : Analysis) (name : String) (location : Location) (initial : InitState)
    (hextends : (declaredNew name location initial a).Extends final) :
    final.IsGlobal a.symbols.size ↔ a.outerScopes = [] := by
  have hfound : (declaredNew name location initial a).symbols[a.symbols.size]? = some
      { name, location, extent := a.scope.extent, functionDepth := a.functionDepth
        isGlobal := a.outerScopes.isEmpty } := by simp [declaredNew]
  rw [hextends.isGlobal_iff hfound, List.isEmpty_iff]

/-- A declaration inside a scope is not global. -/
theorem serves_declareName (name : String) (location : Location) (initial : InitState) :
    Serves final mode true (declareName name location initial) fun _ _ => True where
  keeps := keeps_declareName name location initial
  serves a hstands hextends defined hgrants := by
    have heq := declareName_eq hstands.loud haccepted.errors hextends
    rw [heq] at hextends ⊢
    refine ⟨trivial, hgrants.set subset_rfl fun _ h => ?_⟩
    exact absurd ((declared_isGlobal a name location initial hextends).mp h) (hstands.inside rfl)

theorem serves_declareVariable (location : Location) (name : String) :
    Serves final mode true (declareVariable location name) fun _ _ => True :=
  (serves_declareName haccepted name location _).after fun _ => serves_pure fun _ => trivial

end Names

mutual

theorem serves_declarePattern (haccepted : final.Accepted) (pattern : Pattern) :
    Serves final mode true (declarePattern pattern) fun _ _ => True := by
  cases pattern with
  | bind location name binding => exact serves_declareVariable haccepted location name
  | destructure location fields =>
    exact (serves_declareFields haccepted fields []).after fun _ => serves_pure fun _ => trivial
  | wildcard location => exact serves_pure fun _ => trivial
  | literal location value => exact serves_pure fun _ => trivial
termination_by structural pattern

theorem serves_declareFields (haccepted : final.Accepted) (fields done : List (String × Pattern)) :
    Serves final mode true (declareFields fields done) fun _ _ => True := by
  cases fields with
  | nil => exact serves_pure fun _ => trivial
  | cons field rest => exact (serves_declarePattern haccepted field.2).after fun _ =>
      serves_declareFields haccepted rest _
termination_by structural fields

end

theorem serves_declareParameters (haccepted : final.Accepted) (parameters done : List Pattern) :
    Serves final mode true (declareParameters parameters done) fun _ _ => True := by
  induction parameters generalizing done with
  | nil => exact serves_pure fun _ => trivial
  | cons pattern rest ih => exact (serves_declarePattern haccepted pattern).after fun _ => ih _

end Check

end OwnScript
