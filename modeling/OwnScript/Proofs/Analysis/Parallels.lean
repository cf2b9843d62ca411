import OwnScript.Proofs.Analysis.Readiness

/-!
Two walks through the same part. What a part does to the knowledge about a variable does not depend on that knowledge:
the part replaces it, or it joins it with what other paths know. So two walks that start from different paths stay
comparable in every variable that was declared before, whatever else the walks meet: other numbers for the names that
the part declares, other borrows, other captures, other diagnostics.
-/

namespace OwnScript

section Drift

variable {γ : Type} {join : γ → γ → γ} {start other value twin : γ}

/-- Two walks bring a piece of knowledge from `start` to `value` and from `other` to `twin` in the same way: both
replace it by one piece, or both join it with one piece. -/
def Drift (join : γ → γ → γ) (start other value twin : γ) : Prop :=
  ∃ piece, (value = piece ∧ twin = piece) ∨ (value = join piece start ∧ twin = join piece other)

theorem drift_same (join : γ → γ → γ) (start other value : γ) : Drift join start other value value :=
  ⟨value, .inl ⟨rfl, rfl⟩⟩

theorem drift_refl (neutral : γ) (hneutral : ∀ piece, join neutral piece = piece) (start other : γ) :
    Drift join start other start other :=
  ⟨neutral, .inr ⟨(hneutral start).symm, (hneutral other).symm⟩⟩

variable [Std.Associative join] [Std.IdempotentOp join]

/-- A piece that is joined a second time adds nothing. -/
theorem join_again (join : γ → γ → γ) [Std.Associative join] [Std.IdempotentOp join] (piece start : γ) :
    join piece (join piece start) = join piece start := by
  have hassoc : join (join piece piece) start = join piece (join piece start) := Std.Associative.assoc piece piece start
  have hself : join piece piece = piece := Std.IdempotentOp.idempotent piece
  rw [← hassoc, hself]

/-- A walk from where a walk has ended changes nothing more. -/
theorem Drift.twice (hdrift : Drift join start value value twin) : twin = value := by
  obtain ⟨piece, ⟨hvalue, htwin⟩ | ⟨hvalue, htwin⟩⟩ := hdrift
  · rw [htwin, hvalue]
  · rw [htwin, hvalue, join_again join]

variable [Std.Commutative join]

/-- Nor does one from where the start joins the end of a walk, once the start joins it again. -/
theorem Drift.again (hdrift : Drift join start (join start value) value twin) : join start twin = join start value := by
  have hcomm (piece : γ) : join piece start = join start piece := Std.Commutative.comm piece start
  obtain ⟨piece, ⟨hvalue, htwin⟩ | ⟨hvalue, htwin⟩⟩ := hdrift
  · rw [htwin, hvalue]
  · have hvalue' : join start value = join piece start := by rw [hvalue, hcomm, join_again join]
    rw [htwin, hvalue', join_again join, hcomm, join_again join]

theorem Drift.joined {value' twin' : γ} (hfirst : Drift join start other value twin)
    (hsecond : Drift join start other value' twin') : Drift join start other (join value value') (join twin twin') := by
  obtain ⟨first, ⟨hvalue, htwin⟩ | ⟨hvalue, htwin⟩⟩ := hfirst <;>
    obtain ⟨second, ⟨hvalue', htwin'⟩ | ⟨hvalue', htwin'⟩⟩ := hsecond <;> rw [hvalue, hvalue', htwin, htwin']
  · exact drift_same ..
  · exact ⟨join first second, .inr ⟨by ac_rfl, by ac_rfl⟩⟩
  · exact ⟨join first second, .inr ⟨by ac_rfl, by ac_rfl⟩⟩
  · exact ⟨join first second, .inr ⟨by ac_rfl, by ac_rfl⟩⟩

end Drift

instance : Std.Associative InitState.meet := ⟨InitState.meet_assoc⟩

instance : Std.Commutative InitState.meet := ⟨InitState.meet_comm⟩

instance : Std.IdempotentOp InitState.meet := ⟨InitState.meet_self⟩

/-- The numbers of two variables are the same, or neither was declared before. -/
def SameId (outer : Nat) (id twin : BindingId) : Prop :=
  id = twin ∨ outer ≤ id ∧ outer ≤ twin

namespace FlowState

variable {outer : Nat} {start other flow twin flow' twin' : FlowState}

/-- Where two paths that can be taken join, so does what they know. -/
theorem get_meet_eq (hflow : flow.reachable = true) (hother : other.reachable = true) (id : BindingId) :
    (flow.meet other).get id = (flow.get id).meet (other.get id) := by
  have hstates : (flow.meet other).states = Array.ofFn fun i : Fin (max flow.states.size other.states.size) =>
      (flow.get i).meet (other.get i) := by
    simp [meet, hflow, hother]
  rw [get, hstates, Array.getElem?_ofFn]
  split
  · rfl
  · rename_i hout
    have hmissing (known : FlowState) (hknown : known.states.size ≤ id) : known.get id = .uninitialized := by
      simp [get, hknown]
    rw [hmissing flow (by omega), hmissing other (by omega)]
    rfl

theorem size_meet (hflow : flow.reachable = true) (hother : other.reachable = true) :
    (flow.meet other).states.size = max flow.states.size other.states.size := by
  simp [meet, hflow, hother]

theorem meet_of_unreachable (hflow : flow.reachable = false) : flow.meet other = other := by
  simp [meet, hflow]

theorem meet_unreachable (hflow : flow.reachable = true) (hother : other.reachable = false) :
    flow.meet other = flow := by
  simp [meet, hflow, hother]

theorem reachable_meet : (flow.meet other).reachable = (flow.reachable || other.reachable) := by
  cases hflow : flow.reachable
  · rw [meet_of_unreachable hflow, Bool.false_or]
  · cases hother : other.reachable
    · rw [meet_unreachable hflow hother, hflow]
      rfl
    · simp [meet, hflow, hother]

theorem size_set (flow : FlowState) (id : BindingId) (state : InitState) :
    (flow.set id state).states.size = max flow.states.size (id + 1) := by
  simp only [set, Array.size_setIfInBounds, Array.size_append, Array.size_replicate]
  omega

/-- Nothing changes when a variable that is initialized gets initialized. -/
theorem set_initialized {flow : FlowState} {id : Nat} (hflow : flow.get id = .initialized) :
    flow.set id .initialized = flow := by
  have hin : id < flow.states.size := by
    by_contra hout
    simp [get, Array.getElem?_eq_none (Nat.le_of_not_lt hout)] at hflow
  have hroom : id + 1 - flow.states.size = 0 := by omega
  have hstate : flow.states[id] = .initialized := by simpa [get, hin] using hflow
  simp only [set, hroom, Array.replicate_zero, Array.append_empty]
  rw [← hstate, Array.setIfInBounds, dif_pos hin, Array.set_getElem_self]

theorem get_truncate (flow : FlowState) {count id : Nat} (hid : id < count) :
    (flow.truncate count).get id = flow.get id := by
  simp only [truncate, get, Array.take_eq_extract, Array.getElem?_extract, Nat.zero_add]
  split
  · rfl
  · rename_i hout
    rw [Array.getElem?_eq_none (Nat.le_of_not_lt fun hin => hout (by omega))]

theorem size_truncate (flow : FlowState) (count : Nat) :
    (flow.truncate count).states.size = min count flow.states.size := by
  simp [truncate]

/-- What a path knows about the variables before a binding is all that is left of it there. -/
theorem truncate_eq (hreachable : twin.reachable = flow.reachable) (hstates : ∀ id < outer, twin.get id = flow.get id)
    (hsize : min outer twin.states.size = min outer flow.states.size) : twin.truncate outer = flow.truncate outer := by
  have hsizes : (twin.truncate outer).states.size = (flow.truncate outer).states.size := by
    rw [size_truncate, size_truncate, hsize]
  have harrays : (twin.truncate outer).states = (flow.truncate outer).states := by
    refine Array.ext hsizes fun id hid hid' => ?_
    have hin : id < outer := by
      rw [size_truncate] at hid
      omega
    have hget := hstates id hin
    rw [← get_truncate twin hin, ← get_truncate flow hin] at hget
    simpa [get, hid, hid'] using hget
  simp only [truncate] at harrays ⊢
  rw [harrays, hreachable]

/-- What a read leaves: a path that can be taken reports the variable once. -/
def reading (id : BindingId) (flow : FlowState) : FlowState :=
  if flow.reachable then flow.set id .initialized else flow

/-- Two paths, each from its own start, that two walks through the same part have come to. -/
structure Parallel (outer : Nat) (start other flow twin : FlowState) : Prop where
  reachable : twin.reachable = flow.reachable
  ended : start.reachable = false → flow.reachable = false
  states : ∀ id < outer, Drift InitState.meet (start.get id) (other.get id) (flow.get id) (twin.get id)
  sizes : Drift max (min outer start.states.size) (min outer other.states.size) (min outer flow.states.size)
    (min outer twin.states.size)

namespace Parallel

theorem ofStart (hreachable : other.reachable = start.reachable) : Parallel outer start other start other where
  reachable := hreachable
  ended := id
  states id _ := drift_refl .initialized (fun state => by cases state <;> rfl) ..
  sizes := drift_refl 0 Nat.zero_max ..

theorem same (hended : start.reachable = false → flow.reachable = false) : Parallel outer start other flow flow where
  reachable := rfl
  ended := hended
  states _ _ := drift_same ..
  sizes := drift_same ..

theorem unreachable : Parallel outer start other .unreachable .unreachable :=
  .same fun _ => rfl

theorem endPath (hparallel : Parallel outer start other flow twin) :
    Parallel outer start other { flow with reachable := false } { twin with reachable := false } :=
  { hparallel with reachable := rfl, ended := fun _ => rfl }

theorem meet (hfirst : Parallel outer start other flow twin) (hsecond : Parallel outer start other flow' twin') :
    Parallel outer start other (flow.meet flow') (twin.meet twin') := by
  cases hflow : flow.reachable with
  | false => rwa [meet_of_unreachable hflow, meet_of_unreachable (hfirst.reachable.trans hflow)]
  | true =>
    have htwin := hfirst.reachable.trans hflow
    cases hflow' : flow'.reachable with
    | false => rwa [meet_unreachable hflow hflow', meet_unreachable htwin (hsecond.reachable.trans hflow')]
    | true =>
      have htwin' := hsecond.reachable.trans hflow'
      refine ⟨by simp [reachable_meet, hflow, htwin], fun h => ?_, fun id hid => ?_, ?_⟩
      · rw [hfirst.ended h] at hflow
        cases hflow
      · rw [get_meet_eq hflow hflow', get_meet_eq htwin htwin']
        exact (hfirst.states id hid).joined (hsecond.states id hid)
      · rw [size_meet hflow hflow', size_meet htwin htwin', Nat.min_max_distrib_left, Nat.min_max_distrib_left]
        exact hfirst.sizes.joined hsecond.sizes

theorem truncate (hparallel : Parallel outer start other flow twin) {count count' : Nat} (hcount : outer ≤ count)
    (hcount' : outer ≤ count') : Parallel outer start other (flow.truncate count) (twin.truncate count') where
  reachable := hparallel.reachable
  ended := hparallel.ended
  states id hid := by
    rw [get_truncate _ (hid.trans_le hcount), get_truncate _ (hid.trans_le hcount')]
    exact hparallel.states id hid
  sizes := by
    rw [size_truncate, size_truncate, ← Nat.min_assoc, ← Nat.min_assoc, Nat.min_eq_left hcount, Nat.min_eq_left hcount']
    exact hparallel.sizes

theorem set (hparallel : Parallel outer start other flow twin) {id id' : BindingId} (hids : SameId outer id id')
    (state : InitState) : Parallel outer start other (flow.set id state) (twin.set id' state) where
  reachable := hparallel.reachable
  ended := hparallel.ended
  states known hknown := by
    by_cases hid : known = id
    · obtain rfl | hlate := hids
      · rw [hid, get_set_self, get_set_self]
        exact drift_same ..
      · omega
    · have hid' : known ≠ id' := by
        rcases hids with rfl | hlate
        · exact hid
        · omega
      rw [get_set_of_ne _ _ hid, get_set_of_ne _ _ hid']
      exact hparallel.states known hknown
  sizes := by
    have hsame : min outer (id' + 1) = min outer (id + 1) := by
      rcases hids with rfl | hlate
      · rfl
      · omega
    rw [size_set, size_set, Nat.min_max_distrib_left, Nat.min_max_distrib_left, hsame]
    exact hparallel.sizes.joined (drift_same ..)

theorem reading (hparallel : Parallel outer start other flow twin) {id id' : BindingId} (hids : SameId outer id id') :
    Parallel outer start other (flow.reading id) (twin.reading id') := by
  unfold FlowState.reading
  rw [hparallel.reachable]
  split
  · exact hparallel.set hids .initialized
  · exact hparallel

theorem foldl_meet {paths paths' : List FlowState} (hpaths : List.Forall₂ (Parallel outer start other) paths paths')
    (hparallel : Parallel outer start other flow twin) :
    Parallel outer start other (paths.foldl FlowState.meet flow) (paths'.foldl FlowState.meet twin) := by
  induction hpaths generalizing flow twin with
  | nil => exact hparallel
  | cons hpath _ ih => exact ih (hparallel.meet hpath)

/-- The path from which a loop starts its second turn is the one from which it starts its third. -/
theorem settles {before back back' : FlowState}
    (hparallel : Parallel outer before ((before.meet back).truncate outer) back back') :
    (before.meet back').truncate outer = (before.meet back).truncate outer := by
  cases hbefore : before.reachable with
  | false =>
    rw [meet_of_unreachable hbefore, meet_of_unreachable hbefore] at *
    refine truncate_eq hparallel.reachable (fun id hid => ?_) ?_
    · have hdrift := hparallel.states id hid
      rw [get_truncate _ hid] at hdrift
      exact hdrift.twice
    · have hdrift := hparallel.sizes
      rw [size_truncate, ← Nat.min_assoc, Nat.min_self] at hdrift
      exact hdrift.twice
  | true =>
    cases hback : back.reachable with
    | false => rw [meet_unreachable hbefore hback, meet_unreachable hbefore (hparallel.reachable.trans hback)]
    | true =>
      have hback' := hparallel.reachable.trans hback
      refine truncate_eq (by simp [reachable_meet, hbefore]) (fun id hid => ?_) ?_
      · have hdrift := hparallel.states id hid
        rw [get_truncate _ hid, get_meet_eq hbefore hback] at hdrift
        rw [get_meet_eq hbefore hback, get_meet_eq hbefore hback']
        exact hdrift.again
      · have hdrift := hparallel.sizes
        rw [size_truncate, ← Nat.min_assoc, Nat.min_self, size_meet hbefore hback, Nat.min_max_distrib_left] at hdrift
        rw [size_meet hbefore hback, size_meet hbefore hback', Nat.min_max_distrib_left, Nat.min_max_distrib_left]
        exact hdrift.again

end Parallel

end FlowState

/-- Two scopes that declare the same names. -/
def Scope.Alike (outer : Nat) (scope twin : Scope) : Prop :=
  ∀ name : String, Option.Rel (SameId outer) scope.names[name]? twin.names[name]?

theorem Scope.alike_refl (outer : Nat) (scope : Scope) : scope.Alike outer scope := by
  intro name
  cases scope.names[name]? with
  | none => exact .none
  | some id => exact .some (.inl rfl)

theorem Scope.alike_new {outer : Nat} {extent extent' : Extent} :
    Scope.Alike outer { extent } { extent := extent' } := by
  intro name
  simp

/-- The names of two walks after both have declared one. -/
theorem Scope.Alike.insert {outer : Nat} {scope scope' : Scope} (halike : scope.Alike outer scope') {id id' : BindingId}
    (hids : SameId outer id id') (name : String) :
    Scope.Alike outer { scope with names := scope.names.insert name id }
      { scope' with names := scope'.names.insert name id' } := by
  intro wanted
  rw [Std.TreeMap.getElem?_insert, Std.TreeMap.getElem?_insert]
  split
  · exact .some hids
  · exact halike wanted

/-- The ways out of a loop, in two walks. -/
structure LoopPaths.Parallel (outer : Nat) (start other : FlowState) (paths twin : LoopPaths) : Prop where
  leaving : List.Forall₂ (FlowState.Parallel outer start other) paths.leaving.toList twin.leaving.toList
  skipping : List.Forall₂ (FlowState.Parallel outer start other) paths.skipping.toList twin.skipping.toList

namespace Analysis

/-- Two walks at the same place: they see the same names. -/
structure Abreast (outer : Nat) (a b : Analysis) : Prop where
  scope : a.scope.Alike outer b.scope
  outerScopes : List.Forall₂ (Scope.Alike outer) a.outerScopes b.outerScopes
  left : outer ≤ a.symbols.size
  right : outer ≤ b.symbols.size

/-- Two walks at the same place that have come to parallel paths. -/
structure InStep (outer : Nat) (start other : FlowState) (a b : Analysis) : Prop extends Abreast outer a b where
  flow : FlowState.Parallel outer start other a.flow b.flow
  loop : Option.Rel (LoopPaths.Parallel outer start other) a.loops.head? b.loops.head?

/-- A step that changes the path, and neither the names in sight nor the loops. -/
structure Moved (change : FlowState → FlowState) (a after : Analysis) : Prop where
  scope : after.scope = a.scope
  outerScopes : after.outerScopes = a.outerScopes
  symbols : a.symbols.size ≤ after.symbols.size
  loops : after.loops = a.loops
  flow : after.flow = change a.flow

variable {outer : Nat} {start other : FlowState} {a b after twin : Analysis}

theorem Abreast.of_same (habreast : a.Abreast outer b) (hscope : after.scope = a.scope)
    (houter : after.outerScopes = a.outerScopes) (hsymbols : a.symbols.size ≤ after.symbols.size)
    (hscope' : twin.scope = b.scope)
    (houter' : twin.outerScopes = b.outerScopes) (hsymbols' : b.symbols.size ≤ twin.symbols.size) :
    after.Abreast outer twin where
  scope := by rw [hscope, hscope']; exact habreast.scope
  outerScopes := by rw [houter, houter']; exact habreast.outerScopes
  left := habreast.left.trans hsymbols
  right := habreast.right.trans hsymbols'

theorem InStep.moved (hinStep : a.InStep outer start other b) {change change' : FlowState → FlowState}
    (hmoved : a.Moved change after) (hmoved' : b.Moved change' twin)
    (hflow : FlowState.Parallel outer start other (change a.flow) (change' b.flow)) :
    after.InStep outer start other twin where
  toAbreast := hinStep.of_same hmoved.scope hmoved.outerScopes hmoved.symbols hmoved'.scope hmoved'.outerScopes
    hmoved'.symbols
  flow := by rw [hmoved.flow, hmoved'.flow]; exact hflow
  loop := by rw [hmoved.loops, hmoved'.loops]; exact hinStep.loop

end Analysis

namespace Check

open Analysis FlowState

variable {α β γ δ : Type} {outer : Nat} {start other : FlowState}

/-- A step that changes the path, and neither the names in sight nor the loops. -/
def Moves (change : FlowState → FlowState) (step : Check α) : Prop :=
  ∀ a, Moved change a (step a).2

/-- A step that changes nothing that a path depends on. -/
abbrev Still (step : Check α) : Prop :=
  Moves id step

section Moves

variable {first second : FlowState → FlowState} {id : BindingId}

theorem still_pure (value : α) : Still (pure value) :=
  fun _ => ⟨rfl, rfl, le_rfl, rfl, rfl⟩

theorem Moves.bind {step : Check α} {next : α → Check β} (hstep : Moves first step)
    (hnext : ∀ value, Moves second (next value)) :
    Moves (second ∘ first) (step >>= next) := by
  intro a
  have hmoved := hstep a
  have hrest := hnext (step a).1 (step a).2
  exact ⟨hrest.scope.trans hmoved.scope, hrest.outerScopes.trans hmoved.outerScopes, hmoved.symbols.trans hrest.symbols,
    hrest.loops.trans hmoved.loops, hrest.flow.trans (congrArg second hmoved.flow)⟩

theorem Moves.after {change : FlowState → FlowState} {step : Check α} {next : α → Check β} (hstep : Still step)
    (hnext : ∀ value, Moves change (next value)) : Moves change (step >>= next) :=
  Moves.bind hstep hnext

theorem moves_get {change : FlowState → FlowState} {next : Analysis → Check β} (hnext : ∀ a, Moves change (next a)) :
    Moves change (get >>= next) :=
  fun a => hnext a a

theorem still_report (kind : ErrorKind) (message : String) (location : Location) (name : String) :
    Still (report kind message location name) := by
  intro a
  rw [report_eq]
  split <;> exact ⟨rfl, rfl, le_rfl, rfl, rfl⟩

theorem still_newExtent : Still newExtent :=
  fun _ => ⟨rfl, rfl, le_rfl, rfl, rfl⟩

theorem still_releaseExtent (extent : Extent) : Still (releaseExtent extent) :=
  fun _ => ⟨rfl, rfl, le_rfl, rfl, rfl⟩

theorem still_releaseHeldBy (holder : BindingId) : Still (releaseHeldBy holder) :=
  fun _ => ⟨rfl, rfl, le_rfl, rfl, rfl⟩

theorem still_holdBorrow (place : Nat) (holder : BindingId) : Still (holdBorrow place holder) :=
  fun _ => ⟨rfl, rfl, le_rfl, rfl, rfl⟩

theorem still_isGlobal (id : BindingId) : Still (isGlobal id) :=
  fun _ => ⟨rfl, rfl, le_rfl, rfl, rfl⟩

theorem still_isBorrowed (id : BindingId) : Still (isBorrowed id) :=
  fun _ => ⟨rfl, rfl, le_rfl, rfl, rfl⟩

theorem still_beginBorrow (target : BindingId) (name : String) (exclusive : Bool) (extent : Extent)
    (location : Location) : Still (beginBorrow target name exclusive extent location) := by
  have hpush (borrow : Borrow) (place : Nat) : Still (do
      modify fun a => { a with borrows := a.borrows.push borrow }
      return place) :=
    fun _ => ⟨rfl, rfl, le_rfl, rfl, rfl⟩
  refine moves_get fun a => ?_
  split
  · exact Moves.after (still_report _ _ _ _) fun _ => hpush _ _
  · exact hpush _ _

theorem still_noteReference (id : BindingId) (location : Location) : Still (noteReference id location) := by
  intro a
  have hmarked (symbol : Symbol) : Moved (fun flow => flow) a (marked a symbol id) := by
    unfold marked
    split
    · exact ⟨rfl, rfl, Array.size_modify.ge, rfl, rfl⟩
    · exact ⟨rfl, rfl, le_rfl, rfl, rfl⟩
  cases hfound : a.symbols[id]? with
  | none =>
    have hsame : (noteReference id location a).2 = a := by simp [noteReference, modify_snd, hfound]
    rw [hsame]
    exact ⟨rfl, rfl, le_rfl, rfl, rfl⟩
  | some symbol =>
    obtain ⟨hscope, houter, hsymbols, hloops, hflow⟩ := hmarked symbol
    rw [noteReference_eq hfound]
    split
    · exact hmarked symbol
    · split
      · exact ⟨hscope, houter, hsymbols, hloops, hflow⟩
      · split
        · exact ⟨hscope, houter, hsymbols, hloops, hflow⟩
        · exact hmarked symbol

theorem moves_setState (id : BindingId) (state : InitState) : Moves (·.set id state) (setState id state) :=
  fun _ => ⟨rfl, rfl, le_rfl, rfl, rfl⟩

theorem moves_endPath : Moves ({ · with reachable := false }) endPath :=
  fun _ => ⟨rfl, rfl, le_rfl, rfl, rfl⟩

theorem moves_useBinding (id : BindingId) (name : String) (location : Location) :
    Moves (reading id) (useBinding id name location) := by
  intro a
  rw [useBinding_apply]
  unfold reading
  split
  · rename_i hreachable
    have hset (kind : ErrorKind) (message : String) :
        Moves (·.set id .initialized) (do report kind message location name; setState id .initialized) :=
      Moves.after (still_report _ _ _ _) fun _ => moves_setState id .initialized
    cases hstate : a.flow.get id with
    | initialized => exact ⟨rfl, rfl, le_rfl, rfl, by rw [if_pos hreachable, set_initialized hstate]; rfl⟩
    | uninitialized =>
      have hmoved := hset .useOfUninitialized s!"'{name}' may be read before it is initialized" a
      exact { hmoved with flow := by rw [if_pos hreachable]; exact hmoved.flow }
    | moved =>
      have hmoved := hset .useAfterMove s!"'{name}' is used after its value was moved" a
      exact { hmoved with flow := by rw [if_pos hreachable]; exact hmoved.flow }
  · rename_i hreachable
    exact ⟨rfl, rfl, le_rfl, rfl, by rw [if_neg hreachable]; rfl⟩

theorem moves_moveBinding (id : BindingId) (name : String) (location : Location) :
    Moves ((·.set id .moved) ∘ reading id) (moveBinding id name location) := by
  have hrest : Moves (·.set id .moved) (do
      if ← isBorrowed id then
        report .conflictingBorrow s!"cannot move '{name}' while it is borrowed" location name
      releaseHeldBy id
      setState id .moved) := by
    refine Moves.after (still_isBorrowed id) fun borrowed => ?_
    have hlast := Moves.after (still_releaseHeldBy id) fun _ => moves_setState id .moved
    split
    · exact Moves.after (still_report _ _ _ _) fun _ => hlast
    · exact hlast
  refine Moves.bind (moves_useBinding id name location) fun _ => moves_get fun a => ?_
  split
  · split
    · exact Moves.after (still_report _ _ _ _) fun _ => hrest
    · split
      · exact Moves.after (still_report _ _ _ _) fun _ => hrest
      · exact hrest
  · exact hrest

theorem moves_assignBinding (id : BindingId) (name : String) (location : Location) :
    Moves (·.set id .initialized) (assignBinding id name location) := by
  refine Moves.after (still_isBorrowed id) fun borrowed => ?_
  split
  · exact Moves.after (still_report _ _ _ _) fun _ => moves_setState id .initialized
  · exact moves_setState id .initialized

end Moves

end Check

end OwnScript
