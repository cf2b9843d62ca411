import Mathlib
import OwnScript.Proofs.Analysis.Names

/-!
Steps of an analysis as walks. A step that has nothing to do with names is quiet; a step that looks at a part of
a program walks over its outline. Patterns, loops, places of borrows and function bodies walk over theirs if what
is inside of them does.
-/

namespace OwnScript

namespace Check

open Analysis

variable {α β : Type} {a b : Analysis} {scopes : Scopes} {outline more : List Naming} {name : String}
  {location : Location} {resolution : Resolution}

/-- A step that looks at a part of a program. What it writes on the names of the part comes with its result. -/
def WalksAt (a : Analysis) (scopes : Scopes) (step : Check α) (outline : List Naming) (post : α → List Naming → Prop) :
    Prop :=
  ∃ resolved, post (step a).1 resolved ∧ Walked a scopes outline resolved (step a).2

/-- A step that neither declares a name nor reports that a rule of scoping is broken. -/
def Quiet (step : Check α) : Prop :=
  ∀ a, Hushed a (step a).2

section Quiet

theorem quiet_pure (value : α) : Quiet (pure value) :=
  Hushed.refl

theorem quiet_get : Quiet (get : Check Analysis) :=
  Hushed.refl

theorem Quiet.bind {step : Check α} {next : α → Check β} (hstep : Quiet step) (hnext : ∀ value, Quiet (next value)) :
    Quiet (step >>= next) :=
  fun a => (hstep a).trans (hnext _ _)

theorem Quiet.ite {condition : Prop} [Decidable condition] {yes no : Check α} (hyes : Quiet yes) (hno : Quiet no) :
    Quiet (if condition then yes else no) := by
  split
  · exact hyes
  · exact hno

/-- A change of anything but scopes, declarations and diagnostics. -/
theorem quiet_modify {f : Analysis → Analysis}
    (hf : ∀ a, (f a).scope = a.scope ∧ (f a).outerScopes = a.outerScopes ∧ (f a).symbols = a.symbols ∧
      (f a).silence = a.silence ∧ (f a).errors = a.errors) :
    Quiet (modify f) := by
  intro a
  obtain ⟨hscope, houter, hsymbols, hsilence, herrors⟩ := hf a
  exact hushed_of_eq hscope houter hsymbols hsilence herrors

theorem report_eq (kind : ErrorKind) (message : String) (location : Location) (name : String) (a : Analysis) :
    (report kind message location name a).2 =
      if a.silence = 0 then { a with errors := a.errors.push { kind, location, message, context := name } } else a :=
  rfl

theorem report_same (kind : ErrorKind) (message : String) (location : Location) (name : String) (a : Analysis) :
    (report kind message location name a).2.scope = a.scope ∧
      (report kind message location name a).2.outerScopes = a.outerScopes ∧
      (report kind message location name a).2.symbols = a.symbols ∧
      (report kind message location name a).2.silence = a.silence := by
  rw [report_eq]
  split <;> exact ⟨rfl, rfl, rfl, rfl⟩

theorem reports_report {kind rule : ErrorKind} {message : String} :
    (report kind message location name a).2.Reports rule ↔ a.Reports rule ∨ (a.silence = 0 ∧ kind = rule) := by
  rw [report_eq]
  split
  · rename_i hloud
    simp only [Reports, Array.mem_push, or_and_right, exists_or, exists_eq_left, hloud, true_and]
  · rename_i hsilent
    exact (or_iff_left fun h => hsilent h.1).symm

theorem quiet_report {kind : ErrorKind} (hkind : kind ∉ scopingRules) {message : String} {location : Location}
    {name : String} : Quiet (report kind message location name) := by
  intro a
  obtain ⟨hscope, houter, hsymbols, hsilence⟩ := report_same kind message location name a
  refine ⟨hscope, houter, grown_of_eq hsymbols, hsilence, fun rule hrule => ?_⟩
  rw [reports_report]
  exact or_iff_left fun h => hkind (h.2 ▸ hrule)

/-- A flag of a declaration that has nothing to do with names. -/
theorem hushed_flag {f : Symbol → Symbol} (hf : ∀ symbol, (f symbol).isGlobal = symbol.isGlobal) (id : BindingId) :
    Hushed a { a with symbols := a.symbols.modify id f } where
  scope := rfl
  outer := rfl
  grown :=
    { size := Nat.le_of_eq Array.size_modify.symm
      resolution := fun other _ => by
        simp only [resolutionOf, Array.getElem?_modify]
        split <;> simp [Function.comp_def, hf] }
  silence := rfl
  reports _ _ := Iff.rfl

theorem quiet_newExtent : Quiet newExtent :=
  fun _ => hushed_of_eq rfl rfl rfl rfl rfl

theorem quiet_releaseExtent {extent : Extent} : Quiet (releaseExtent extent) :=
  quiet_modify fun _ => ⟨rfl, rfl, rfl, rfl, rfl⟩

theorem quiet_releaseHeldBy {holder : BindingId} : Quiet (releaseHeldBy holder) :=
  quiet_modify fun _ => ⟨rfl, rfl, rfl, rfl, rfl⟩

theorem quiet_setState {id : BindingId} {state : InitState} : Quiet (setState id state) :=
  quiet_modify fun _ => ⟨rfl, rfl, rfl, rfl, rfl⟩

theorem quiet_setFlow {flow : FlowState} : Quiet (setFlow flow) :=
  quiet_modify fun _ => ⟨rfl, rfl, rfl, rfl, rfl⟩

theorem quiet_endPath : Quiet endPath :=
  quiet_modify fun _ => ⟨rfl, rfl, rfl, rfl, rfl⟩

theorem quiet_holdBorrow {place : Nat} {holder : BindingId} : Quiet (holdBorrow place holder) :=
  quiet_modify fun _ => ⟨rfl, rfl, rfl, rfl, rfl⟩

theorem quiet_getFlow : Quiet getFlow :=
  quiet_get.bind fun _ => quiet_pure _

theorem quiet_isBorrowed {id : BindingId} : Quiet (isBorrowed id) :=
  quiet_get.bind fun _ => quiet_pure _

theorem quiet_leaveLoop : Quiet leaveLoop := by
  refine Quiet.bind (quiet_modify fun a => ?_) fun _ => quiet_endPath
  split <;> exact ⟨rfl, rfl, rfl, rfl, rfl⟩

theorem quiet_skipLoop : Quiet skipLoop := by
  refine Quiet.bind (quiet_modify fun a => ?_) fun _ => quiet_endPath
  split <;> exact ⟨rfl, rfl, rfl, rfl, rfl⟩

theorem quiet_useBinding {id : BindingId} {name : String} {location : Location} :
    Quiet (useBinding id name location) := by
  refine quiet_getFlow.bind fun flow => ?_
  refine Quiet.ite ?_ (quiet_pure _)
  cases flow.get id with
  | initialized => exact quiet_pure _
  | uninitialized => exact (quiet_report (by decide)).bind fun _ => quiet_setState
  | moved => exact (quiet_report (by decide)).bind fun _ => quiet_setState

theorem quiet_moveBinding {id : BindingId} {name : String} {location : Location} :
    Quiet (moveBinding id name location) := by
  have hlast : Quiet (do
      releaseHeldBy id
      setState id .moved) := quiet_releaseHeldBy.bind fun _ => quiet_setState
  have hborrowed : Quiet (do
      if ← isBorrowed id then report .conflictingBorrow s!"cannot move '{name}' while it is borrowed" location name
      releaseHeldBy id
      setState id .moved) :=
    quiet_isBorrowed.bind fun _ => Quiet.ite ((quiet_report (by decide)).bind fun _ => hlast) hlast
  refine quiet_useBinding.bind fun _ => quiet_get.bind fun a => ?_
  split
  · exact Quiet.ite ((quiet_report (by decide)).bind fun _ => hborrowed)
      (Quiet.ite ((quiet_report (by decide)).bind fun _ => hborrowed) hborrowed)
  · exact hborrowed

theorem quiet_assignBinding {id : BindingId} {name : String} {location : Location} :
    Quiet (assignBinding id name location) :=
  quiet_isBorrowed.bind fun _ =>
    Quiet.ite ((quiet_report (by decide)).bind fun _ => quiet_setState) quiet_setState

theorem quiet_beginBorrow {target : BindingId} {name : String} {exclusive : Bool} {extent : Extent}
    {location : Location} : Quiet (beginBorrow target name exclusive extent location) := by
  have hlast (size : Nat) : Quiet (do
      modify fun a => { a with borrows := a.borrows.push { target, exclusive, extent, location } }
      return size : Check Nat) :=
    Quiet.bind (quiet_modify fun _ => ⟨rfl, rfl, rfl, rfl, rfl⟩) fun _ => quiet_pure _
  refine quiet_get.bind fun a => ?_
  split
  · exact (quiet_report (by decide)).bind fun _ => hlast _
  · exact hlast _

theorem quiet_noteReference {id : BindingId} {location : Location} : Quiet (noteReference id location) := by
  intro a
  simp -zeta only [noteReference, modify, modifyGet, MonadStateOf.modifyGet, StateT.modifyGet, Pure.pure]
  cases hsymbol : a.symbols[id]? with
  | none => exact Hushed.refl a
  | some symbol =>
    simp -zeta only
    extract_lets marked
    have hmarked : Hushed a marked := by
      dsimp only [marked]
      split
      · exact @hushed_flag a (fun symbol => { symbol with captured := true }) (fun _ => rfl) id
      · exact Hushed.refl a
    clear_value marked
    refine hmarked.trans ?_
    split
    · exact Hushed.refl marked
    cases marked.currentFunction with
    | some function => exact hushed_of_eq rfl rfl rfl rfl rfl
    | none =>
      dsimp only
      split
      · exact hushed_of_eq rfl rfl rfl rfl rfl
      · exact Hushed.refl marked

theorem quiet_forM {γ : Type} {step : γ → Check Unit} (hstep : ∀ item, Quiet (step item)) (items : List γ) :
    Quiet (items.forM step) := by
  induction items with
  | nil => exact quiet_pure _
  | cons item rest ih => exact (hstep item).bind fun _ => ih

theorem quiet_checkReference {reference : PendingReference} : Quiet (checkReference reference) := by
  refine quiet_get.bind fun a => quiet_forM (fun id => ?_) _
  dsimp only
  split
  · exact quiet_pure _
  · exact quiet_report (by decide)
  · exact quiet_report (by decide)

theorem quiet_checkPendingReferences : Quiet checkPendingReferences := by
  refine quiet_get.bind fun a => ?_
  have hlist : a.pending.forM checkReference = a.pending.toList.forM checkReference := by
    rw [← List.forM_toArray, Array.toArray_toList, Array.forM_eq_forM]
  exact hlist ▸ quiet_forM (fun _ => quiet_checkReference) _

end Quiet

section Walks

variable {xs ys : List Naming} {step : Check α} {next : α → Check β} {mid : α → List Naming → Prop}
  {post : β → List Naming → Prop}

theorem walks_pure {value : β} (hsees : a.Sees scopes) (hpost : post value []) :
    WalksAt a scopes (pure value) [] post :=
  ⟨[], hpost, (Hushed.refl a).walked hsees⟩

theorem WalksAt.bind (hstep : WalksAt a scopes step xs mid)
    (hnext : ∀ value done b, mid value done → b.Sees (scopes.afterAll done) →
      WalksAt b (scopes.afterAll done) (next value) ys fun result more => post result (done ++ more)) :
    WalksAt a scopes (step >>= next) (xs ++ ys) post := by
  obtain ⟨done, hmid, hfirst⟩ := hstep
  obtain ⟨more, hpost, hsecond⟩ := hnext _ done _ hmid hfirst.sees
  exact ⟨done ++ more, hpost, hfirst.trans hsecond⟩

/-- A part that declares nothing, and then the rest. -/
theorem WalksAt.neutral (hstep : WalksAt a scopes step xs mid) (hneutral : ∀ value done, mid value done → Neutral done)
    (hnext : ∀ value done b, mid value done → b.Sees scopes →
      WalksAt b scopes (next value) ys fun result more => post result (done ++ more)) :
    WalksAt a scopes (step >>= next) (xs ++ ys) post :=
  hstep.bind fun value done b hmid hsees => by
    rw [hneutral value done hmid scopes] at hsees ⊢
    exact hnext value done b hmid hsees

/-- A part, and then steps that have nothing to do with names. -/
theorem WalksAt.settle (hstep : WalksAt a scopes step xs mid) (hquiet : ∀ value, Quiet (next value))
    (hpost : ∀ value done b, mid value done → post (next value b).1 done) :
    WalksAt a scopes (step >>= next) xs post := by
  obtain ⟨done, hmid, hwalked⟩ := hstep
  have hlast := hwalked.trans ((hquiet (step a).1 (step a).2).walked hwalked.sees)
  rw [List.append_nil, List.append_nil] at hlast
  exact ⟨done, hpost _ done _ hmid, hlast⟩

/-- A part, from which the result is built. -/
theorem WalksAt.map {f : α → β} (hstep : WalksAt a scopes step xs mid)
    (hpost : ∀ value done, mid value done → post (f value) done) :
    WalksAt a scopes (step >>= fun value => pure (f value)) xs post :=
  hstep.settle (fun _ => quiet_pure _) fun value done _ => hpost value done

/-- A step that has nothing to do with names, and then a part. -/
theorem Quiet.walks (hstep : Quiet step) (hsees : a.Sees scopes)
    (hnext : ∀ value b, b.Sees scopes → WalksAt b scopes (next value) ys post) :
    WalksAt a scopes (step >>= next) ys post := by
  obtain ⟨more, hpost, hsecond⟩ := hnext (step a).1 _ (hsees.hushed (hstep a))
  exact ⟨more, hpost, ((hstep a).walked hsees).trans hsecond⟩

theorem WalksAt.mono {early : β → List Naming → Prop} {step : Check β} (hstep : WalksAt a scopes step xs early)
    (himp : ∀ value done, early value done → post value done) : WalksAt a scopes step xs post := by
  obtain ⟨done, hearly, hwalked⟩ := hstep
  exact ⟨done, himp _ done hearly, hwalked⟩

end Walks

section Names

/-- A use of a name that leads to a declaration. -/
theorem walked_refers {target : Resolution} (hsees : a.Sees scopes) (hvisible : scopes.visible name = some target)
    (hhushed : Hushed a b) : Walked a scopes [.refers name resolution] [.refers name target] b := by
  have hobeys (rule : ErrorKind) : Obeys rule scopes [.refers name target] := by
    refine ⟨?_, trivial⟩
    rw [Naming.Throughout, Scopes.fault, hvisible]
    exact nofun
  refine
    { bare := rfl, outer := hhushed.outer, sees := hsees.hushed hhushed, grown := hhushed.grown
      silence := hhushed.silence, reports := fun rule hrule => ?_, resolves := fun _ => ⟨hvisible, trivial⟩
      numbered := fun _ naming hmem id hid => ?_, declared := fun _ h => nomatch h
      distinct := fun _ => ⟨List.nodup_nil, fun _ h => nomatch h⟩ }
  · exact (hhushed.reports rule hrule).trans (or_iff_left fun h => h.2 (hobeys rule)).symm
  · cases List.mem_singleton.mp hmem
    rw [hsees.visible] at hvisible
    obtain ⟨other, hfound, rfl⟩ := Option.map_eq_some_iff.mp hvisible
    cases hid
    exact Nat.lt_of_lt_of_le (hsees.known name _ hfound) hhushed.grown.size

theorem mem_scopingRules {rule : ErrorKind} (hrule : rule ∈ scopingRules) :
    rule = .duplicateBinding ∨ rule = .undefinedName := by
  simpa [scopingRules] using hrule

/-- A use of a name that leads nowhere: it keeps what was written on it. -/
theorem walked_undefined (hsees : a.Sees scopes) (hfound : a.found name = none) {message : String} :
    Walked a scopes [.refers name resolution] [.refers name resolution]
      (report .undefinedName message location name a).2 := by
  obtain ⟨hscope, houter, hsymbols, hsilence⟩ := report_same .undefinedName message location name a
  have hvisible : scopes.visible name = none := by rw [hsees.visible, hfound, Option.map_none]
  have hbroken : ¬ Obeys .undefinedName scopes [.refers name resolution] := by
    intro hobeys
    have hfault := hobeys.1
    rw [Naming.Throughout, Scopes.fault, hvisible] at hfault
    exact hfault rfl
  have hother : Obeys .duplicateBinding scopes [.refers name resolution] := by
    refine ⟨?_, trivial⟩
    rw [Naming.Throughout, Scopes.fault, hvisible]
    exact nofun
  refine
    { bare := rfl, outer := houter, sees := hsees.carry hscope houter (grown_of_eq hsymbols)
      grown := grown_of_eq hsymbols, silence := hsilence, reports := fun rule hrule => ?_
      resolves := fun hobeys => absurd (hobeys _ (by decide)) hbroken
      numbered := fun hobeys => absurd (hobeys _ (by decide)) hbroken, declared := fun _ h => nomatch h
      distinct := fun _ => ⟨List.nodup_nil, fun _ h => nomatch h⟩ }
  rw [reports_report]
  rcases mem_scopingRules hrule with rfl | rfl
  · simp [hother]
  · simp [hbroken]

theorem get_bind_run {next : Analysis → Check α} : (get >>= next) a = next a a :=
  rfl

theorem lookup_bind_run {next : Option BindingId → Check α} : (lookup name >>= next) a = next (a.found name) a :=
  rfl

theorem declareName_known {id : BindingId} (hknown : a.scope.names[name]? = some id) (initial : InitState) :
    declareName name location initial a =
      (id, (report .duplicateBinding s!"'{name}' is already declared in this scope" location name a).2) := by
  simp only [declareName, get_bind_run, hknown]
  rfl

/-- The state after the declaration of a name that its scope has not declared before. -/
def declaredNew (name : String) (location : Location) (initial : InitState) (a : Analysis) : Analysis :=
  { a with
    symbols := a.symbols.push
      { name, location, extent := a.scope.extent, functionDepth := a.functionDepth
        isGlobal := a.outerScopes.isEmpty }
    scope := { a.scope with names := a.scope.names.insert name a.symbols.size }
    flow := a.flow.set a.symbols.size initial }

theorem declareName_new (hnew : a.scope.names[name]? = none) (initial : InitState) :
    declareName name location initial a = (a.symbols.size, declaredNew name location initial a) := by
  simp only [declareName, get_bind_run, hnew]
  rfl

theorem found_of_innermost {id : BindingId} (hknown : a.scope.names[name]? = some id) : a.found name = some id := by
  rw [found, List.findSome?_cons, hknown]

/-- A second declaration of a name in its scope keeps the first. -/
theorem walked_duplicate (hsees : a.Sees scopes) {id : BindingId} (hknown : a.scope.names[name]? = some id)
    {message : String} :
    Walked a scopes [.declares name resolution] [.declares name (a.resolutionOf id)]
      (report .duplicateBinding message location name a).2 := by
  obtain ⟨hscope, houter, hsymbols, hsilence⟩ := report_same .duplicateBinding message location name a
  have hsecond : a.Sees (scopes.after (.declares name (a.resolutionOf id))) := by
    refine { hsees with innermost := fun wanted => ?_, visible := fun wanted => ?_ }
    · rw [Scopes.lookup_declares, hsees.innermost]
      split
      · rename_i heq
        rw [heq, hknown, Option.map_some]
      · rfl
    · rw [Scopes.visible_declares, hsees.visible]
      split
      · rename_i heq
        rw [heq, found_of_innermost hknown, Option.map_some]
      · rfl
  have hdeclared : scopes.innermost.lookup name = some (a.resolutionOf id) := by
    rw [hsees.innermost, hknown, Option.map_some]
  have hbroken : ¬ Obeys .duplicateBinding scopes [.declares name (a.resolutionOf id)] := by
    intro hobeys
    have hfault := hobeys.1
    rw [Naming.Throughout, Scopes.fault, hdeclared] at hfault
    exact hfault rfl
  have hother : Obeys .undefinedName scopes [.declares name (a.resolutionOf id)] := by
    refine ⟨?_, trivial⟩
    rw [Naming.Throughout, Scopes.fault, hdeclared]
    exact nofun
  refine
    { bare := rfl, outer := houter, sees := hsecond.carry hscope houter (grown_of_eq hsymbols)
      grown := grown_of_eq hsymbols, silence := hsilence, reports := fun rule hrule => ?_
      resolves := fun hobeys => absurd (hobeys _ (by decide)) hbroken
      numbered := fun hobeys => absurd (hobeys _ (by decide)) hbroken, declared := fun other hother => ?_
      distinct := fun hobeys => absurd hobeys hbroken }
  · rw [reports_report]
    rcases mem_scopingRules hrule with rfl | rfl
    · simp [hbroken]
    · simp [hother]
  · cases List.mem_singleton.mp hother
    rw [hsymbols]
    exact hsees.known name _ (found_of_innermost hknown)

theorem resolutionOf_declaredNew {initial : InitState} :
    (declaredNew name location initial a).resolutionOf a.symbols.size =
      { binding := some a.symbols.size, isGlobal := a.outerScopes.isEmpty } := by
  simp [resolutionOf, declaredNew]

theorem grown_declaredNew {initial : InitState} : Grown a (declaredNew name location initial a) where
  size := by simp [declaredNew]
  resolution id hid := by
    simp only [resolutionOf, declaredNew, Array.getElem?_push_lt hid, Array.getElem?_eq_getElem hid]

theorem names_declaredNew {initial : InitState} (wanted : String) :
    (declaredNew name location initial a).scope.names[wanted]? =
      if wanted = name then some a.symbols.size else a.scope.names[wanted]? := by
  simp only [declaredNew, Std.TreeMap.getElem?_insert, Std.compare_eq_iff_eq, @eq_comm _ name]

theorem found_declaredNew {initial : InitState} (wanted : String) :
    (declaredNew name location initial a).found wanted =
      if wanted = name then some a.symbols.size else a.found wanted := by
  rw [found, List.findSome?_cons, names_declaredNew]
  by_cases heq : wanted = name
  · rw [if_pos heq, if_pos heq]
  · rw [if_neg heq, if_neg heq]
    rfl

/-- After its declaration a name is known in the innermost scope. -/
theorem names_declareName (name : String) (location : Location) (initial : InitState) (a : Analysis) :
    (declareName name location initial a).2.scope.names[name]? = some (declareName name location initial a).1 := by
  cases hknown : a.scope.names[name]? with
  | some id =>
    rw [declareName_known hknown, (report_same ..).1]
    exact hknown
  | none =>
    rw [declareName_new hknown]
    exact (names_declaredNew name).trans (if_pos rfl)

/-- The declaration of a name that its scope has not declared before. -/
theorem walked_declares (hsees : a.Sees scopes) (hnew : a.scope.names[name]? = none) {initial : InitState} :
    Walked a scopes [.declares name resolution]
      [.declares name ((declaredNew name location initial a).resolutionOf a.symbols.size)]
      (declaredNew name location initial a) := by
  have hinnermost : scopes.innermost.lookup name = none := by rw [hsees.innermost, hnew, Option.map_none]
  have hobeys (resolution : Resolution) (rule : ErrorKind) : Obeys rule scopes [.declares name resolution] := by
    refine ⟨?_, trivial⟩
    rw [Naming.Throughout, Scopes.fault, hinnermost]
    exact nofun
  have hgrown := @grown_declaredNew a name location initial
  have hhere {wanted : String} {id : BindingId} (h : a.scope.names[wanted]? = some id) : id < a.symbols.size :=
    hsees.known wanted id (found_of_innermost h)
  have hglobal : ((declaredNew name location initial a).resolutionOf a.symbols.size).isGlobal = true ↔
      a.outerScopes = [] := by
    rw [resolutionOf_declaredNew]
    exact List.isEmpty_iff
  refine
    { bare := rfl, outer := rfl,
      sees := ⟨fun wanted => ?_, fun wanted => ?_, fun wanted id h => ?_, ?_, fun wanted id h => ?_⟩
      grown := hgrown, silence := rfl, reports := fun rule _ => ?_, resolves := fun _ => ⟨⟨rfl, ?_⟩, trivial⟩
      numbered := fun _ naming hmem id hid => ?_, declared := fun id hid => ?_
      distinct := fun _ => ⟨?_, fun id hid => ?_⟩ }
  · rw [Scopes.afterAll_cons, Scopes.afterAll_nil, Scopes.lookup_declares, names_declaredNew, hsees.innermost]
    split
    · rfl
    · exact Option.map_congr fun id h => (hgrown.resolution id (hhere h)).symm
  · rw [Scopes.afterAll_cons, Scopes.afterAll_nil, Scopes.visible_declares, found_declaredNew, hsees.visible]
    split
    · rfl
    · exact Option.map_congr fun id h => (hgrown.resolution id (hsees.known _ id h)).symm
  · rw [found_declaredNew] at h
    split at h
    · cases h
      simp [declaredNew]
    · exact Nat.lt_of_lt_of_le (hsees.known _ id h) hgrown.size
  · exact hsees.outermost
  · rw [names_declaredNew] at h
    split at h
    · cases h
      exact hglobal
    · rw [hgrown.resolution id (hhere h)]
      exact hsees.level _ id h
  · exact (or_iff_left fun h => h.2 (hobeys _ rule)).symm
  · exact hglobal.trans hsees.outermost.symm
  · cases List.mem_singleton.mp hmem
    cases hid
    simp [declaredNew]
  · cases List.mem_singleton.mp hid
    simp [declaredNew]
  · exact List.nodup_cons.mpr ⟨nofun, List.nodup_nil⟩
  · cases List.mem_singleton.mp hid
    exact Nat.le_refl _

/-- The declaration of a name, and whether it is global. -/
def declared (name : String) (location : Location) (initial : InitState) (after : BindingId → Check Unit) :
    Check (BindingId × Bool) := do
  let id ← declareName name location initial
  after id
  return (id, ← isGlobal id)

theorem declared_eq (initial : InitState) (after : BindingId → Check Unit) :
    declared name location initial after a =
      (((declareName name location initial a).1,
        ((after (declareName name location initial a).1 (declareName name location initial a).2).2.resolutionOf
          (declareName name location initial a).1).isGlobal),
        (after (declareName name location initial a).1 (declareName name location initial a).2).2) :=
  rfl

theorem walked_declareName (hsees : a.Sees scopes) (initial : InitState) :
    Walked a scopes [.declares name resolution]
      [.declares name ((declareName name location initial a).2.resolutionOf (declareName name location initial a).1)]
      (declareName name location initial a).2 := by
  cases hknown : a.scope.names[name]? with
  | some id =>
    rw [declareName_known hknown]
    have hsame := (report_same .duplicateBinding s!"'{name}' is already declared in this scope" location name a).2.2.1
    rw [resolutionOf, hsame]
    exact walked_duplicate hsees hknown
  | none =>
    rw [declareName_new hknown]
    exact walked_declares hsees hknown

theorem walks_declared (hsees : a.Sees scopes) {initial : InitState} {after : BindingId → Check Unit}
    (hafter : ∀ id, Quiet (after id)) :
    WalksAt a scopes (declared name location initial after) [.declares name resolution] fun found more =>
      more = [.declares name { binding := some found.1, isGlobal := found.2 }] := by
  have hdeclared := @walked_declareName a scopes name location resolution hsees initial
  rw [WalksAt, declared_eq]
  generalize declareName name location initial a = state at hdeclared ⊢
  obtain ⟨id, b⟩ := state
  have hquiet : Hushed b (after id b).2 := hafter id b
  have hbound : id < b.symbols.size := hdeclared.declared id (List.mem_singleton.mpr rfl)
  refine ⟨_, ?_, hdeclared.trans (hquiet.walked hdeclared.sees)⟩
  rw [hquiet.grown.resolution id hbound]
  rfl

end Names

section Steps

variable {α β γ : Type} {a b : Analysis} {scopes : Scopes} {outline more : List Naming} {name : String}
  {location : Location} {resolution : Resolution}

/-- A list that goes on from a part that is done, in reverse, with parts of a given outline. -/
def GoesOn (outlines : List γ → List Naming) (done result : List γ) (more : List Naming) : Prop :=
  ∃ parts, result = done.reverse ++ parts ∧ more = outlines parts

theorem goesOn_done {outlines : List γ → List Naming} (hnil : outlines [] = []) (done : List γ) :
    GoesOn outlines done done.reverse [] :=
  ⟨[], (List.append_nil _).symm, hnil.symm⟩

theorem GoesOn.step {outlines : List γ → List Naming} {part : γ} {done result : List γ} {first : List Naming}
    (hrest : GoesOn outlines (part :: done) result more)
    (hstep : ∀ parts, outlines (part :: parts) = first ++ outlines parts) :
    GoesOn outlines done result (first ++ more) := by
  obtain ⟨parts, rfl, rfl⟩ := hrest
  exact ⟨part :: parts, by simp, (hstep parts).symm⟩

theorem GoesOn.all {outlines : List γ → List Naming} {result : List γ} (hresult : GoesOn outlines [] result more) :
    more = outlines result := by
  obtain ⟨parts, rfl, hmore⟩ := hresult
  exact hmore

theorem walks_resolve (hsees : a.Sees scopes) {identifier : Identifier} :
    WalksAt a scopes (resolve identifier) [.refers identifier.name identifier.resolution] fun found more =>
      more = [.refers found.1.name found.1.resolution] := by
  cases hfound : a.found identifier.name with
  | none =>
    have hresult : resolve identifier a = ((identifier, none),
        (report .undefinedName s!"undefined name '{identifier.name}'" identifier.location identifier.name a).2) := by
      simp only [resolve, lookup_bind_run, hfound]
      rfl
    rw [WalksAt, hresult]
    exact ⟨_, rfl, walked_undefined hsees hfound⟩
  | some id =>
    have hresult : resolve identifier a =
        (({ identifier with resolution := a.resolutionOf id }, some id),
          (noteReference id identifier.location a).2) := by
      simp only [resolve, lookup_bind_run, hfound]
      rfl
    rw [WalksAt, hresult]
    exact ⟨_, rfl, walked_refers hsees (hsees.visible_found hfound) (quiet_noteReference a)⟩

/-- A part in a scope of its own. -/
def inScope (body : Check α) : Check α := do
  enterScope
  let part ← body
  exitScope
  return part

theorem exitScope_eq {scope : Scope} {outerScopes : List Scope} (houter : a.outerScopes = scope :: outerScopes) :
    (exitScope a).2.scope = scope ∧ (exitScope a).2.outerScopes = outerScopes ∧
      (exitScope a).2.symbols = a.symbols ∧ (exitScope a).2.silence = a.silence ∧
      (exitScope a).2.errors = a.errors := by
  cases a
  cases houter
  exact ⟨rfl, rfl, rfl, rfl, rfl⟩

theorem walks_inScope {body : Check α} {mid : α → List Naming → Prop} (hsees : a.Sees scopes)
    (hbody : ∀ b, b.Sees scopes.enter → WalksAt b scopes.enter body outline mid) :
    WalksAt a scopes (inScope body) [.scope outline] fun part more =>
      ∃ inner, mid part inner ∧ more = [.scope inner] := by
  have hopened : Grown a (enterScope a).2 := grown_of_eq rfl
  obtain ⟨inner, hmid, hwalked⟩ := hbody (enterScope a).2 (hsees.enter rfl rfl hopened)
  obtain ⟨hscope, houter, hsymbols, hsilence, herrors⟩ := exitScope_eq hwalked.outer
  exact ⟨_, ⟨inner, hmid, rfl⟩,
    Walked.scoped hsees hopened rfl (fun _ _ => Iff.rfl) hwalked hscope houter hsymbols hsilence herrors⟩

/-- The declarations in the outermost scope are global. -/
theorem global_declareName (hsees : a.Sees scopes) (initial : InitState) :
    ((declareName name location initial a).2.resolutionOf (declareName name location initial a).1).isGlobal = true ↔
      scopes.outer = [] := by
  have hwalked := @walked_declareName a scopes name location {} hsees initial
  generalize declareName name location initial a = state at hwalked ⊢
  have hdeclared := hwalked.sees.innermost name
  rw [Scopes.afterAll_cons, Scopes.afterAll_nil, Scopes.lookup_declares, if_pos rfl] at hdeclared
  obtain ⟨other, hnames, hother⟩ := Option.map_eq_some_iff.mp hdeclared.symm
  have hlevel := hwalked.sees.level name other hnames
  rwa [hother, hwalked.outer, ← hsees.outermost] at hlevel

/-- A declaration inside of a scope. -/
theorem walks_declareName (hsees : a.Sees scopes) (hinside : scopes.outer ≠ []) {initial : InitState} :
    WalksAt a scopes (declareName name location initial) [.declares name resolution] fun id more =>
      more = [.declares name { binding := some id }] := by
  have hlocal := Bool.eq_false_iff.mpr fun h =>
    hinside ((@global_declareName a scopes name location hsees initial).mp h)
  exact ⟨_, congrArg (fun isGlobal => [Naming.declares name ⟨some _, isGlobal⟩]) hlocal,
    walked_declareName hsees initial⟩

/-- The declaration of a global function. -/
theorem walks_hoisted (hsees : a.Sees scopes) (houtermost : scopes.outer = []) :
    WalksAt a scopes (do
      let id ← declareName name location .initialized
      modify fun a => { a with symbols := a.symbols.modify id fun symbol => { symbol with hoisted := true } }
      return id) [.declares name resolution] fun id more =>
      more = [.declares name { binding := some id, isGlobal := true }] := by
  have hdeclared : WalksAt a scopes (declareName name location .initialized) [.declares name resolution] fun id more =>
      more = [.declares name { binding := some id, isGlobal := true }] := by
    have hglobal := (@global_declareName a scopes name location hsees .initialized).mpr houtermost
    exact ⟨_, congrArg (fun isGlobal => [Naming.declares name ⟨some _, isGlobal⟩]) hglobal,
      walked_declareName hsees .initialized⟩
  exact hdeclared.settle (fun id b => @hushed_flag b (fun symbol => { symbol with hoisted := true })
    (fun _ => rfl) id) fun _ _ _ h => h

mutual

theorem walks_pattern (pattern : Pattern) (a : Analysis) (scopes : Scopes) (hsees : a.Sees scopes)
    (hinside : scopes.outer ≠ []) :
    WalksAt a scopes (declarePattern pattern) pattern.outline fun part more => more = part.outline := by
  cases pattern with
  | wildcard location => exact walks_pure hsees rfl
  | literal location value => exact walks_pure hsees rfl
  | bind location name binding =>
    exact (walks_declareName hsees hinside).map fun id more h => h
  | destructure location fields =>
    exact (walks_fieldPatterns fields [] a scopes hsees hinside).map fun parts more h => h.all
termination_by structural pattern

theorem walks_fieldPatterns (fields done : List (String × Pattern)) (a : Analysis) (scopes : Scopes)
    (hsees : a.Sees scopes) (hinside : scopes.outer ≠ []) :
    WalksAt a scopes (declareFields fields done) (Pattern.fieldOutlines fields)
      (GoesOn Pattern.fieldOutlines done) := by
  cases fields with
  | nil => exact walks_pure hsees (goesOn_done rfl done)
  | cons field rest =>
    obtain ⟨name, pattern⟩ := field
    refine (walks_pattern pattern a scopes hsees hinside).bind fun part first b hfirst hsees => ?_
    refine (walks_fieldPatterns rest ((name, part) :: done) b _ hsees ?_).mono fun result more h => ?_
    · rwa [Scopes.outer_afterAll]
    · exact h.step fun parts => by rw [hfirst, Pattern.fieldOutlines]
termination_by structural fields

end

theorem walks_parameters (parameters done : List Pattern) (hsees : a.Sees scopes) (hinside : scopes.outer ≠ []) :
    WalksAt a scopes (declareParameters parameters done) (parameters.flatMap Pattern.outline)
      (GoesOn (List.flatMap Pattern.outline) done) := by
  induction parameters generalizing done a scopes with
  | nil => exact walks_pure hsees (goesOn_done rfl done)
  | cons pattern rest ih =>
    rw [List.flatMap_cons]
    refine (walks_pattern pattern a scopes hsees hinside).bind fun part first b hfirst hsees => ?_
    refine (ih (part :: done) hsees ?_).mono fun result more h => ?_
    · rwa [Scopes.outer_afterAll]
    · exact h.step fun parts => by rw [hfirst, List.flatMap_cons]

/-- What is known after a walk along a place to what it is reached from. -/
def PlaceSeen (a : Analysis) (scopes : Scopes) (target : Expr) (found : Expr × PlaceRoot) (b : Analysis) : Prop :=
  match found.2 with
  | .expression => Glanced a scopes target.outline b
  | .unresolved | .resolved _ _ => Walked a scopes target.outline found.1.outline b

theorem walks_borrowPlace {exclusive : Bool} {extent : Extent} {place : Check (Expr × PlaceRoot)} {whole : Check Expr}
    {target : Expr} (hplace : PlaceSeen a scopes target (place a).1 (place a).2)
    (hwhole : ∀ b, b.Sees scopes → WalksAt b scopes whole target.outline fun part more => more = part.outline) :
    WalksAt a scopes (borrowPlace location exclusive extent place whole) target.outline fun found more =>
      more = found.1.outline := by
  change WalksAt a scopes (fun a => (match (place a).1.2 with
    | .expression => whole >>= fun part => pure (part, none)
    | .unresolved => pure ((place a).1.1, none)
    | .resolved identifier id => useBinding id identifier.name identifier.location >>= fun _ =>
        beginBorrow id identifier.name exclusive extent location >>= fun borrow =>
          pure ((place a).1.1, some borrow) : Check (Expr × Option Nat)) (place a).2) _ _
  rw [WalksAt]
  generalize place a = state at hplace ⊢
  obtain ⟨⟨part, root⟩, b⟩ := state
  cases root with
  | expression =>
    obtain ⟨more, hmore, hwalked⟩ := hwhole b (Glanced.sees hplace)
    exact ⟨more, hmore, Glanced.walked hplace hwalked⟩
  | unresolved => exact ⟨_, rfl, hplace⟩
  | resolved identifier id =>
    have hquiet : Quiet (useBinding id identifier.name identifier.location >>= fun _ =>
        beginBorrow id identifier.name exclusive extent location >>= fun borrow => pure (part, some borrow)) :=
      quiet_useBinding.bind fun _ => quiet_beginBorrow.bind fun _ => quiet_pure _
    refine ⟨part.outline, rfl, ?_⟩
    have hlast := Walked.trans hplace ((hquiet b).walked (Walked.sees hplace))
    rwa [List.append_nil, List.append_nil] at hlast

theorem walks_loopPass {body : Check (α × Option FlowState)} {mid : α → List Naming → Prop}
    (hbody : ∀ b, b.Sees scopes.enter → WalksAt b scopes.enter body outline fun found => mid found.1)
    (hsees : a.Sees scopes) (entry : FlowState) :
    WalksAt a scopes (loopPass body entry) [.scope outline] fun found more =>
      ∃ inner, mid found.1 inner ∧ more = [.scope inner] := by
  refine Quiet.walks (quiet_modify fun _ => ⟨rfl, rfl, rfl, rfl, rfl⟩) hsees fun _ b hsees => ?_
  change WalksAt b scopes (inScope body >>= fun found => get >>= fun state =>
    modify (fun a => { a with loops := a.loops.tail }) >>= fun _ => pure (found.1, found.2, state.loops.headD {})) _ _
  refine (walks_inScope hsees hbody).settle (fun found => ?_) fun found more b h => h
  exact quiet_get.bind fun _ => Quiet.bind (quiet_modify fun _ => ⟨rfl, rfl, rfl, rfl, rfl⟩) fun _ => quiet_pure _

theorem silent_loopEntry {body : Check (α × Option FlowState)} {mid : α → List Naming → Prop}
    (hbody : ∀ b, b.Sees scopes.enter → WalksAt b scopes.enter body outline fun found => mid found.1) (outer : Nat)
    (before : FlowState) (passes : Nat) (entry : FlowState) (hsees : a.Sees scopes) (hsilent : a.silence ≠ 0) :
    Walked a scopes [] [] (loopEntry body outer before passes entry a).2 := by
  induction passes generalizing a entry with
  | zero => exact (Hushed.refl a).walked hsees
  | succ passes ih =>
    obtain ⟨_, ⟨inner, _, rfl⟩, hwalked⟩ := walks_loopPass hbody hsees entry
    have hpass := hwalked.silent (neutral_nil.scope inner) hsilent
    refine hpass.trans ?_
    change Walked _ scopes [] [] ((if _ then _ else _ : Check FlowState) _).2
    split
    · exact (Hushed.refl _).walked hpass.sees
    · exact ih _ hpass.sees (hpass.silence ▸ hsilent)

/-- A step during which diagnostics are not reported. -/
def silently (step : Check α) : Check α := do
  modify fun a => { a with silence := a.silence + 1 }
  let part ← step
  modify fun a => { a with silence := a.silence - 1 }
  return part

theorem walks_silently {step : Check α} (hsees : a.Sees scopes)
    (hstep : ∀ b, b.Sees scopes → b.silence ≠ 0 → Walked b scopes [] [] (step b).2) :
    WalksAt a scopes (silently step) [] fun _ more => more = [] := by
  have hloud : Grown a { a with silence := a.silence + 1 } := grown_of_eq rfl
  have hwalked := hstep { a with silence := a.silence + 1 } (hsees.carry rfl rfl hloud) (Nat.succ_ne_zero _)
  have hsilence : (step { a with silence := a.silence + 1 }).2.silence - 1 = a.silence := by
    rw [hwalked.silence]
    rfl
  refine ⟨[], rfl, ?_⟩
  exact
    { hwalked with
      sees := hwalked.sees.carry rfl rfl (grown_of_eq rfl), silence := hsilence
      reports := fun rule hrule =>
        (hwalked.reports rule hrule).trans (or_congr_right ⟨fun h => absurd trivial h.2, fun h => absurd trivial h.2⟩)
      grown := hloud.trans (hwalked.grown.trans (grown_of_eq rfl)) }

theorem walks_analyzeLoop {body : Check (α × Option FlowState)} {mid : α → List Naming → Prop}
    (hbody : ∀ b, b.Sees scopes.enter → WalksAt b scopes.enter body outline fun found => mid found.1)
    (hsees : a.Sees scopes) :
    WalksAt a scopes (analyzeLoop body) [.scope outline] fun part more =>
      ∃ inner, mid part inner ∧ more = [.scope inner] := by
  refine quiet_getFlow.walks hsees fun before b hsees => quiet_get.walks hsees fun state b hsees => ?_
  change WalksAt b scopes
    (silently (loopEntry body state.symbols.size before (state.symbols.size * 2 + 3) before) >>= fun entry =>
      loopPass body entry >>= fun found =>
        setFlow ((found.2.2.leaving.foldl FlowState.meet (found.2.1.getD .unreachable)).truncate state.symbols.size) >>=
          fun _ => pure found.1) ([] ++ _) _
  refine (walks_silently hsees fun b hsees => silent_loopEntry hbody _ before _ before hsees).bind
    fun entry done b hdone hsees => ?_
  subst hdone
  exact (walks_loopPass hbody hsees entry).settle (fun _ => quiet_setFlow.bind fun _ => quiet_pure _) fun _ _ _ h => h

theorem walks_functionBody {body : FlowState → Check α} {mid : α → List Naming → Prop}
    (hbody : ∀ flow b, b.Sees scopes → WalksAt b scopes (body flow) outline mid) (hsees : a.Sees scopes) :
    WalksAt a scopes (functionBody body) outline mid := by
  refine quiet_getFlow.walks hsees fun flow b hsees => quiet_get.walks hsees fun state b hsees => ?_
  refine Quiet.walks (quiet_modify fun _ => ⟨rfl, rfl, rfl, rfl, rfl⟩) hsees fun _ b hsees => ?_
  refine (hbody flow b hsees).settle (fun _ => ?_) fun _ _ _ h => h
  exact Quiet.bind (quiet_modify fun _ => ⟨rfl, rfl, rfl, rfl, rfl⟩) fun _ => quiet_pure _

theorem walks_declaredBody {id : BindingId} {body : Check α} {mid : α → List Naming → Prop}
    (hbody : ∀ b, b.Sees scopes → WalksAt b scopes body outline mid) (hsees : a.Sees scopes) :
    WalksAt a scopes (declaredBody id body) outline mid := by
  refine quiet_get.walks hsees fun state b hsees => ?_
  split
  · refine Quiet.walks (quiet_modify fun _ => ⟨rfl, rfl, rfl, rfl, rfl⟩) hsees fun _ b hsees => ?_
    refine (hbody b hsees).settle (fun _ => ?_) fun _ _ _ h => h
    exact Quiet.bind (quiet_modify fun _ => ⟨rfl, rfl, rfl, rfl, rfl⟩) fun _ => quiet_pure _
  · exact hbody b hsees

end Steps

end Check

end OwnScript
