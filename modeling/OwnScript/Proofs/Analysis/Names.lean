import OwnScript.Analysis.Check
import OwnScript.Proofs.Program.Scoping

/-!
The names that an analysis sees. A step of an analysis walks over a part of a program: it reports where the
part breaks a rule of scoping, and what it writes on the names of the part is what lexical scoping says. The
numbers of declarations only grow, so that those written by one look are new, however often a part has been
looked at before.
-/

namespace OwnScript

namespace Analysis

/-- What an analysis writes on a name that leads to a declaration. -/
def resolutionOf (a : Analysis) (id : BindingId) : Resolution :=
  { binding := some id, isGlobal := (a.symbols[id]?.map (·.isGlobal)).getD false }

/-- The declaration that a name leads to. -/
def found (a : Analysis) (name : String) : Option BindingId :=
  (a.scope :: a.outerScopes).findSome? (·.names[name]?)

/-- The analysis has reported that a rule is broken. -/
def Reports (a : Analysis) (rule : ErrorKind) : Prop :=
  ∃ diagnostic ∈ a.errors, diagnostic.kind = rule

/-- An analysis that stands in some scopes. -/
structure Sees (a : Analysis) (scopes : Scopes) : Prop where
  innermost : ∀ name, scopes.innermost.lookup name = a.scope.names[name]?.map a.resolutionOf
  visible : ∀ name, scopes.visible name = (a.found name).map a.resolutionOf
  known : ∀ name id, a.found name = some id → id < a.symbols.size
  outermost : scopes.outer = [] ↔ a.outerScopes = []
  level : ∀ (name : String) (id : BindingId), a.scope.names[name]? = some id →
    ((a.resolutionOf id).isGlobal = true ↔ a.outerScopes = [])

/-- Declarations stay as they are, with new ones after them. -/
structure Grown (a b : Analysis) : Prop where
  size : a.symbols.size ≤ b.symbols.size
  resolution : ∀ id < a.symbols.size, b.resolutionOf id = a.resolutionOf id

/-- A change that neither declares a name nor reports that a rule of scoping is broken. -/
structure Hushed (a b : Analysis) : Prop where
  scope : b.scope = a.scope
  outer : b.outerScopes = a.outerScopes
  grown : Grown a b
  silence : b.silence = a.silence
  reports : ∀ rule ∈ scopingRules, (b.Reports rule ↔ a.Reports rule)

/-- A walk over a part of a program, from one state of the analysis to another. -/
structure Walked (a : Analysis) (scopes : Scopes) (outline resolved : List Naming) (b : Analysis) : Prop where
  bare : bare resolved = bare outline
  outer : b.outerScopes = a.outerScopes
  sees : b.Sees (scopes.afterAll resolved)
  grown : Grown a b
  silence : b.silence = a.silence
  reports : ∀ rule ∈ scopingRules,
    (b.Reports rule ↔ a.Reports rule ∨ (a.silence = 0 ∧ ¬ Obeys rule scopes resolved))
  resolves : (∀ rule ∈ scopingRules, Obeys rule scopes resolved) → Throughout Scopes.Resolves scopes resolved
  numbered : (∀ rule ∈ scopingRules, Obeys rule scopes resolved) → NumberedBelow b.symbols.size resolved
  declared : ∀ id ∈ declaredIds resolved, id < b.symbols.size
  distinct : Obeys .duplicateBinding scopes resolved →
    (declaredIds resolved).Nodup ∧ ∀ id ∈ declaredIds resolved, a.symbols.size ≤ id

variable {a b c : Analysis} {scopes : Scopes} {outline resolved more others : List Naming} {name : String}
  {resolution : Resolution}

theorem Grown.refl (a : Analysis) : Grown a a :=
  ⟨Nat.le_refl _, fun _ _ => rfl⟩

theorem Grown.trans (hfirst : Grown a b) (hsecond : Grown b c) : Grown a c where
  size := Nat.le_trans hfirst.size hsecond.size
  resolution id hid := by
    rw [hsecond.resolution id (Nat.lt_of_lt_of_le hid hfirst.size), hfirst.resolution id hid]

theorem grown_of_eq (hsymbols : b.symbols = a.symbols) : Grown a b where
  size := Nat.le_of_eq (congrArg Array.size hsymbols.symm)
  resolution _ _ := by rw [resolutionOf, hsymbols, resolutionOf]

theorem reports_of_eq (herrors : b.errors = a.errors) (rule : ErrorKind) : b.Reports rule ↔ a.Reports rule := by
  rw [Reports, herrors, Reports]

theorem hushed_of_eq (hscope : b.scope = a.scope) (houter : b.outerScopes = a.outerScopes)
    (hsymbols : b.symbols = a.symbols) (hsilence : b.silence = a.silence) (herrors : b.errors = a.errors) :
    Hushed a b :=
  ⟨hscope, houter, grown_of_eq hsymbols, hsilence, fun rule _ => reports_of_eq herrors rule⟩

theorem Hushed.refl (a : Analysis) : Hushed a a :=
  hushed_of_eq rfl rfl rfl rfl rfl

theorem Hushed.trans (hfirst : Hushed a b) (hsecond : Hushed b c) : Hushed a c where
  scope := hsecond.scope.trans hfirst.scope
  outer := hsecond.outer.trans hfirst.outer
  grown := hfirst.grown.trans hsecond.grown
  silence := hsecond.silence.trans hfirst.silence
  reports rule hrule := (hsecond.reports rule hrule).trans (hfirst.reports rule hrule)

/-- What an analysis sees depends on its scopes and on the declarations that they lead to. -/
theorem Sees.carry (hsees : a.Sees scopes) (hscope : b.scope = a.scope) (houter : b.outerScopes = a.outerScopes)
    (hgrown : Grown a b) : b.Sees scopes := by
  have hfound (name : String) : b.found name = a.found name := by rw [found, hscope, houter, found]
  have hhere {name : String} {id : BindingId} (h : a.scope.names[name]? = some id) : id < a.symbols.size := by
    refine hsees.known name id ?_
    rw [found, List.findSome?_cons, h]
  refine ⟨fun name => ?_, fun name => ?_, fun name id h => ?_, ?_, fun name id h => ?_⟩
  · rw [hsees.innermost, hscope]
    refine Option.map_congr fun id h => ?_
    exact (hgrown.resolution id (hhere h)).symm
  · rw [hsees.visible, hfound]
    exact Option.map_congr fun id h => (hgrown.resolution id (hsees.known name id h)).symm
  · exact Nat.lt_of_lt_of_le (hsees.known name id (hfound name ▸ h)) hgrown.size
  · rw [hsees.outermost, houter]
  · rw [hscope] at h
    rw [hgrown.resolution id (hhere h), houter]
    exact hsees.level name id h

theorem Sees.hushed (hsees : a.Sees scopes) (hhushed : Hushed a b) : b.Sees scopes :=
  hsees.carry hhushed.scope hhushed.outer hhushed.grown

theorem Sees.visible_found (hsees : a.Sees scopes) {id : BindingId} (hfound : a.found name = some id) :
    scopes.visible name = some (a.resolutionOf id) := by
  rw [hsees.visible, hfound, Option.map_some]

theorem Sees.visible_eq_none (hsees : a.Sees scopes) : scopes.visible name = none ↔ a.found name = none := by
  rw [hsees.visible, Option.map_eq_none_iff]

theorem sees_initial : ({} : Analysis).Sees {} where
  innermost name := by simp
  visible name := by simp [Scopes.visible, found]
  known name id h := by simp [found] at h
  outermost := by simp
  level name id h := by simp at h

theorem Hushed.walked (hhushed : Hushed a b) (hsees : a.Sees scopes) : Walked a scopes [] [] b where
  bare := rfl
  outer := hhushed.outer
  sees := hsees.hushed hhushed
  grown := hhushed.grown
  silence := hhushed.silence
  reports rule hrule := (hhushed.reports rule hrule).trans (or_iff_left fun h => h.2 trivial).symm
  resolves _ := trivial
  numbered _ _ h := nomatch h
  declared _ h := nomatch h
  distinct _ := ⟨List.nodup_nil, fun _ h => nomatch h⟩

theorem Walked.trans (hfirst : Walked a scopes outline resolved b)
    (hsecond : Walked b (scopes.afterAll resolved) more others c) :
    Walked a scopes (outline ++ more) (resolved ++ others) c where
  bare := by rw [bare_append, bare_append, hfirst.bare, hsecond.bare]
  outer := hsecond.outer.trans hfirst.outer
  sees := by
    rw [Scopes.afterAll_append]
    exact hsecond.sees
  grown := hfirst.grown.trans hsecond.grown
  silence := hsecond.silence.trans hfirst.silence
  reports rule hrule := by
    rw [hsecond.reports rule hrule, hfirst.reports rule hrule, hfirst.silence, obeys_append, or_assoc,
      Classical.not_and_iff_not_or_not, and_or_left]
  resolves hobeys := by
    have hboth := fun rule hrule => obeys_append.mp (hobeys rule hrule)
    exact throughout_append.mpr ⟨hfirst.resolves fun rule hrule => (hboth rule hrule).1,
      hsecond.resolves fun rule hrule => (hboth rule hrule).2⟩
  numbered hobeys := by
    have hboth := fun rule hrule => obeys_append.mp (hobeys rule hrule)
    exact numberedBelow_append.mpr ⟨(hfirst.numbered fun rule hrule => (hboth rule hrule).1).mono hsecond.grown.size,
      hsecond.numbered fun rule hrule => (hboth rule hrule).2⟩
  declared id hid := by
    rw [declaredIds_append] at hid
    rcases List.mem_append.mp hid with hid | hid
    · exact Nat.lt_of_lt_of_le (hfirst.declared id hid) hsecond.grown.size
    · exact hsecond.declared id hid
  distinct hobeys := by
    obtain ⟨hone, htwo⟩ := obeys_append.mp hobeys
    obtain ⟨hnodup, habove⟩ := hfirst.distinct hone
    obtain ⟨hothers, hbeyond⟩ := hsecond.distinct htwo
    rw [declaredIds_append]
    refine ⟨List.nodup_append.mpr ⟨hnodup, hothers, fun id hid other hother => ?_⟩, fun id hid => ?_⟩
    · exact Nat.ne_of_lt (Nat.lt_of_lt_of_le (hfirst.declared id hid) (hbeyond other hother))
    · rcases List.mem_append.mp hid with hid | hid
      · exact habove id hid
      · exact Nat.le_trans hfirst.grown.size (hbeyond id hid)

/-- Parts that declare nothing may be walked over in the other order. -/
theorem Walked.swap (hfirst : Walked a scopes outline resolved b) (hneutral : Neutral resolved)
    (hsecond : Walked b scopes more others c) (hstill : Neutral others) :
    Walked a scopes (more ++ outline) (others ++ resolved) c := by
  have hboth : Walked a scopes (outline ++ more) (resolved ++ others) c :=
    hfirst.trans ((hneutral scopes).symm ▸ hsecond)
  have hobeys (rule : ErrorKind) : Obeys rule scopes (others ++ resolved) ↔ Obeys rule scopes (resolved ++ others) := by
    rw [obeys_append, obeys_append, hneutral, hstill, and_comm]
  have hperm : (declaredIds (others ++ resolved)).Perm (declaredIds (resolved ++ others)) := by
    rw [declaredIds_append, declaredIds_append]
    exact List.perm_append_comm
  refine
    { hboth with
      bare := ?_, sees := ?_, reports := fun rule hrule => ?_, resolves := fun h => ?_, numbered := fun h => ?_
      declared := fun id hid => hboth.declared id (hperm.mem_iff.mp hid), distinct := fun h => ?_ }
  · rw [bare_append, bare_append, hfirst.bare, hsecond.bare]
  · rw [Scopes.afterAll_append, hstill, hneutral]
    exact hstill scopes ▸ hsecond.sees
  · rw [hobeys]
    exact hboth.reports rule hrule
  · have hresolves := hboth.resolves fun rule hrule => (hobeys rule).mp (h rule hrule)
    rw [throughout_append, hneutral] at hresolves
    rw [throughout_append, hstill]
    exact hresolves.symm
  · have hnumbered := hboth.numbered fun rule hrule => (hobeys rule).mp (h rule hrule)
    exact numberedBelow_append.mpr (numberedBelow_append.mp hnumbered).symm
  · obtain ⟨hnodup, habove⟩ := hboth.distinct ((hobeys _).mp h)
    exact ⟨hperm.nodup_iff.mpr hnodup, fun id hid => habove id (hperm.mem_iff.mp hid)⟩

/-- The scopes of an analysis in a scope that was just opened. -/
theorem Sees.enter (hsees : a.Sees scopes) (hnames : b.scope.names = {})
    (houter : b.outerScopes = a.scope :: a.outerScopes) (hgrown : Grown a b) : b.Sees scopes.enter := by
  have hfound (name : String) : b.found name = a.found name := by
    rw [found, houter, List.findSome?_cons, hnames, Std.TreeMap.getElem?_emptyc, found]
  refine ⟨fun name => ?_, fun name => ?_, fun name id h => ?_, ?_, fun name id h => ?_⟩
  · rw [hnames, Std.TreeMap.getElem?_emptyc]
    rfl
  · rw [Scopes.visible_enter, hsees.visible, hfound]
    exact Option.map_congr fun id h => (hgrown.resolution id (hsees.known name id h)).symm
  · exact Nat.lt_of_lt_of_le (hsees.known name id (hfound name ▸ h)) hgrown.size
  · exact ⟨nofun, fun h => nomatch houter.symm.trans h⟩
  · rw [hnames, Std.TreeMap.getElem?_emptyc] at h
    cases h

/-- A walk in a scope of its own. -/
theorem Walked.scoped {opened closed : Analysis} (hsees : a.Sees scopes) (hgrown : Grown a opened)
    (hsilence : opened.silence = a.silence) (hreports : ∀ rule ∈ scopingRules, (opened.Reports rule ↔ a.Reports rule))
    (hbody : Walked opened scopes.enter outline resolved b) (hscope : closed.scope = a.scope)
    (houter : closed.outerScopes = a.outerScopes) (hsymbols : closed.symbols = b.symbols)
    (hstill : closed.silence = b.silence) (herrors : closed.errors = b.errors) :
    Walked a scopes [.scope outline] [.scope resolved] closed where
  bare := congrArg (fun body => [Naming.scope body]) hbody.bare
  outer := houter
  sees := hsees.carry hscope houter ((hgrown.trans hbody.grown).trans (grown_of_eq hsymbols))
  grown := (hgrown.trans hbody.grown).trans (grown_of_eq hsymbols)
  silence := (hstill.trans hbody.silence).trans hsilence
  reports rule hrule := by
    rw [reports_of_eq herrors, hbody.reports rule hrule, hreports rule hrule, hsilence, obeys_scope]
  resolves hobeys := throughout_scope.mpr (hbody.resolves fun rule hrule => obeys_scope.mp (hobeys rule hrule))
  numbered hobeys := by
    rw [NumberedBelow, mentions_scope, hsymbols]
    exact hbody.numbered fun rule hrule => obeys_scope.mp (hobeys rule hrule)
  declared id hid := by
    rw [declaredIds, mentions_scope] at hid
    rw [hsymbols]
    exact hbody.declared id hid
  distinct hobeys := by
    rw [declaredIds, mentions_scope]
    obtain ⟨hnodup, habove⟩ := hbody.distinct (obeys_scope.mp hobeys)
    exact ⟨hnodup, fun id hid => Nat.le_trans hgrown.size (habove id hid)⟩

/-- A look at parts of an outline whose result is thrown away. -/
structure Glanced (a : Analysis) (scopes : Scopes) (outline : List Naming) (b : Analysis) : Prop where
  outer : b.outerScopes = a.outerScopes
  sees : b.Sees scopes
  grown : Grown a b
  silence : b.silence = a.silence
  kept : ∀ rule ∈ scopingRules, a.Reports rule → b.Reports rule
  reports : ∀ rule ∈ scopingRules, b.Reports rule → a.Reports rule ∨ (a.silence = 0 ∧ ¬ Obeys rule scopes outline)

theorem Glanced.refl (hsees : a.Sees scopes) (outline : List Naming) : Glanced a scopes outline a :=
  ⟨rfl, hsees, Grown.refl a, rfl, fun _ _ h => h, fun _ _ h => .inl h⟩

theorem Walked.glanced {more : List Naming} (hfirst : Walked a scopes outline resolved b)
    (hsecond : Glanced b scopes more c) (hstill : Neutral more) : Glanced a scopes (more ++ outline) c where
  outer := hsecond.outer.trans hfirst.outer
  sees := hsecond.sees
  grown := hfirst.grown.trans hsecond.grown
  silence := hsecond.silence.trans hfirst.silence
  kept rule hrule h := hsecond.kept rule hrule ((hfirst.reports rule hrule).mpr (.inl h))
  reports rule hrule h := by
    rw [obeys_append, hstill, ← obeys_congr _ _ hfirst.bare _ _ (.refl scopes)]
    rcases hsecond.reports rule hrule h with h | ⟨hloud, hbroken⟩
    · exact ((hfirst.reports rule hrule).mp h).imp_right fun h => ⟨h.1, fun hboth => h.2 hboth.2⟩
    · exact .inr ⟨hfirst.silence ▸ hloud, fun hboth => hbroken hboth.1⟩

/-- A second look counts. -/
theorem Glanced.walked (hfirst : Glanced a scopes outline b) (hsecond : Walked b scopes outline resolved c) :
    Walked a scopes outline resolved c where
  bare := hsecond.bare
  outer := hsecond.outer.trans hfirst.outer
  sees := hsecond.sees
  grown := hfirst.grown.trans hsecond.grown
  silence := hsecond.silence.trans hfirst.silence
  reports rule hrule := by
    rw [hsecond.reports rule hrule, hfirst.silence]
    refine ⟨fun h => ?_, fun h => h.imp_left (hfirst.kept rule hrule)⟩
    rcases h with h | h
    · rw [obeys_congr _ _ hsecond.bare _ _ (.refl scopes)]
      exact hfirst.reports rule hrule h
    · exact .inr h
  resolves := hsecond.resolves
  numbered := hsecond.numbered
  declared := hsecond.declared
  distinct hobeys := (hsecond.distinct hobeys).imp_right fun h id hid => Nat.le_trans hfirst.grown.size (h id hid)

/-- Diagnostics are not reported in a silent look. -/
theorem Walked.silent (hwalked : Walked a scopes outline resolved b) (hneutral : Neutral resolved)
    (hsilent : a.silence ≠ 0) : Walked a scopes [] [] b where
  bare := rfl
  outer := hwalked.outer
  sees := hneutral scopes ▸ hwalked.sees
  grown := hwalked.grown
  silence := hwalked.silence
  reports rule hrule :=
    (hwalked.reports rule hrule).trans (or_congr_right ⟨fun h => absurd h.1 hsilent, fun h => absurd h.1 hsilent⟩)
  resolves _ := trivial
  numbered _ _ h := nomatch h
  declared _ h := nomatch h
  distinct _ := ⟨List.nodup_nil, fun _ h => nomatch h⟩

end Analysis

end OwnScript
