import OwnScript.Proofs.Analysis.Extents
import OwnScript.Proofs.Analysis.Knowledge

/-!
Borrows passed to a function. Each argument is compared with the borrows that are live before it, the arguments
before it among them, and it is live for the arguments after it whether it conflicts or not. So a conflict is
reported if and only if some two of all these borrows conflict, in whatever order the arguments are written, and
with the call they all end.
-/

namespace OwnScript

/-- Two borrows that must not be live together. -/
def Borrow.Clashes (first second : Borrow) : Prop :=
  first.target = second.target ∧ (first.exclusive = true ∨ second.exclusive = true)

theorem Borrow.Clashes.symm {first second : Borrow} (hclash : first.Clashes second) : second.Clashes first :=
  ⟨hclash.1.symm, hclash.2.symm⟩

/-- Some variable is borrowed twice, at least once exclusively. -/
def Contested (borrows : List Borrow) : Prop :=
  ∃ (early late : Nat) (first second : Borrow), early < late ∧ borrows[early]? = some first ∧
    borrows[late]? = some second ∧
    first.Clashes second

theorem not_contested {borrows : List Borrow} :
    ¬ Contested borrows ↔ borrows.Pairwise fun first second => ¬ first.Clashes second := by
  rw [List.pairwise_iff_getElem]
  constructor
  · intro hpeace early late hearly hlate hless hclash
    exact hpeace ⟨early, late, _, _, hless, List.getElem?_eq_getElem hearly, List.getElem?_eq_getElem hlate, hclash⟩
  · rintro hpeace ⟨early, late, first, second, hless, hfirst, hsecond, hclash⟩
    obtain ⟨hearly, rfl⟩ := List.getElem?_eq_some_iff.mp hfirst
    obtain ⟨hlate, rfl⟩ := List.getElem?_eq_some_iff.mp hsecond
    exact hpeace early late hearly hlate hless hclash

/-- It does not matter in which order borrows are listed. -/
theorem contested_perm {borrows others : List Borrow} (hperm : borrows.Perm others) :
    Contested borrows ↔ Contested others := by
  rw [← not_iff_not, not_contested, not_contested]
  exact hperm.pairwise_iff fun hclash h => hclash h.symm

/-- One more borrow contests nothing if and only if it clashes with none of the others. -/
theorem not_contested_append {borrows : List Borrow} (hpeace : ¬ Contested borrows) {borrow : Borrow} :
    ¬ Contested (borrows ++ [borrow]) ↔ ∀ live ∈ borrows, ¬ live.Clashes borrow := by
  rw [not_contested] at hpeace ⊢
  simp [List.pairwise_append, hpeace]

theorem Contested.append {borrows : List Borrow} (hcontested : Contested borrows) (more : List Borrow) :
    Contested (borrows ++ more) := by
  by_contra hpeace
  rw [not_contested, List.pairwise_append] at hpeace
  exact not_contested.mpr hpeace.1 hcontested

/-- A variable borrowed as an argument of a call. -/
structure Lent where
  location : Location
  identifier : Identifier
  exclusive : Bool

/-- The argument that lends a variable. -/
def Lent.argument (lent : Lent) : Expr :=
  .borrow lent.location (.name lent.identifier) lent.exclusive

namespace Analysis

variable {a b c : Analysis}

/-- The borrow that an argument begins, if its name leads to a variable. -/
def lends (a : Analysis) (extent : Extent) (lent : Lent) : Option Borrow :=
  (a.found lent.identifier.name).map fun target =>
    { target, exclusive := lent.exclusive, extent, location := lent.location }

/-- A name leads to a variable that is initialized. -/
def Ready (a : Analysis) (name : String) : Prop :=
  ∃ id, a.found name = some id ∧ a.flow.get id = .initialized

/-- A state after names were used, with what was reported about them. -/
structure Mentions (a b : Analysis) (mentioned : List Diagnostic) : Prop where
  borrows : b.borrows = a.borrows
  nextExtent : b.nextExtent = a.nextExtent
  silence : b.silence = a.silence
  scope : b.scope = a.scope
  outerScopes : b.outerScopes = a.outerScopes
  initialized : ∀ id, a.flow.get id = .initialized → b.flow.get id = .initialized
  errors : b.errors.toList = a.errors.toList ++ mentioned

theorem Mentions.refl (a : Analysis) : a.Mentions a [] :=
  ⟨rfl, rfl, rfl, rfl, rfl, fun _ => id, (List.append_nil _).symm⟩

theorem Mentions.trans {first second : List Diagnostic} (hfirst : a.Mentions b first) (hsecond : b.Mentions c second) :
    a.Mentions c (first ++ second) where
  borrows := hsecond.borrows.trans hfirst.borrows
  nextExtent := hsecond.nextExtent.trans hfirst.nextExtent
  silence := hsecond.silence.trans hfirst.silence
  scope := hsecond.scope.trans hfirst.scope
  outerScopes := hsecond.outerScopes.trans hfirst.outerScopes
  initialized id h := hsecond.initialized id (hfirst.initialized id h)
  errors := by rw [hsecond.errors, hfirst.errors, List.append_assoc]

theorem found_eq (hscope : b.scope = a.scope) (houter : b.outerScopes = a.outerScopes) (name : String) :
    b.found name = a.found name := by
  rw [found, found, hscope, houter]

theorem Ready.carry {name : String} (hready : a.Ready name) (hscope : b.scope = a.scope)
    (houter : b.outerScopes = a.outerScopes)
    (hinitialized : ∀ id, a.flow.get id = .initialized → b.flow.get id = .initialized) : b.Ready name := by
  obtain ⟨id, hfound, hflow⟩ := hready
  exact ⟨id, (found_eq hscope houter name).trans hfound, hinitialized id hflow⟩

end Analysis

namespace Check

open Analysis

variable {a : Analysis}

theorem mentions_report (hloud : a.silence = 0) (kind : ErrorKind) (message : String) (location : Location)
    (name : String) :
    a.Mentions (report kind message location name a).2 [{ kind, location, message, context := name }] := by
  rw [report_eq, if_pos hloud]
  exact ⟨rfl, rfl, rfl, rfl, rfl, fun _ => id, Array.toList_push ..⟩

theorem mentions_noteReference (id : BindingId) (location : Location) (a : Analysis) :
    a.Mentions (noteReference id location a).2 [] := by
  cases hfound : a.symbols[id]? with
  | none =>
    have hsame : (noteReference id location a).2 = a := by simp [noteReference, modify_snd, hfound]
    rw [hsame]
    exact .refl a
  | some symbol =>
    have hmarked : a.Mentions (marked a symbol id) [] := by
      unfold marked
      split <;> exact ⟨rfl, rfl, rfl, rfl, rfl, fun _ h => h, (List.append_nil _).symm⟩
    rw [noteReference_eq hfound]
    split
    · exact hmarked
    · split
      · exact ⟨hmarked.1, hmarked.2, hmarked.3, hmarked.4, hmarked.5, hmarked.6, hmarked.7⟩
      · split
        · exact ⟨hmarked.1, hmarked.2, hmarked.3, hmarked.4, hmarked.5, hmarked.6, hmarked.7⟩
        · exact hmarked

/-- A name that leads to a variable is resolved. -/
theorem mentions_resolve {identifier : Identifier} {id : BindingId} (hfound : a.found identifier.name = some id) :
    a.Mentions (resolve identifier a).2 [] ∧
      ∃ resolved : Identifier, (resolve identifier a).1 = (resolved, some id) ∧ resolved.name = identifier.name := by
  have hresolve := resolve_apply identifier a
  unfold Analysis.found at hfound
  rw [hfound] at hresolve
  rw [hresolve]
  exact ⟨mentions_noteReference id identifier.location a, _, rfl, rfl⟩

/-- Knowing more of one variable. -/
theorem mentions_setInitialized (id : BindingId) (a : Analysis) : a.Mentions (setState id .initialized a).2 [] := by
  refine ⟨rfl, rfl, rfl, rfl, rfl, fun other h => ?_, (List.append_nil _).symm⟩
  show (a.flow.set id .initialized).get other = .initialized
  by_cases hsame : other = id
  · rw [hsame, FlowState.get_set_self]
  · rwa [FlowState.get_set_of_ne _ _ hsame]

/-- A variable that is initialized is read. -/
theorem useBinding_initialized {id : BindingId} (hready : a.flow.get id = .initialized) (name : String)
    (location : Location) : (useBinding id name location a).2 = a := by
  rw [useBinding_apply, hready]
  split <;> rfl

/-- A variable is read: what is reported is no conflict of borrows. -/
theorem mentions_useBinding (hloud : a.silence = 0) (id : BindingId) (name : String) (location : Location) :
    ∃ mentioned, (∀ error ∈ mentioned, error.kind ≠ .conflictingBorrow) ∧
      a.Mentions (useBinding id name location a).2 mentioned := by
  have hreported (kind : ErrorKind) (message : String) (hkind : kind ≠ .conflictingBorrow) :
      ∃ mentioned, (∀ error ∈ mentioned, error.kind ≠ .conflictingBorrow) ∧
        a.Mentions (setState id .initialized (report kind message location name a).2).2 mentioned := by
    refine ⟨_, ?_, (mentions_report hloud kind message location name).trans (mentions_setInitialized id _)⟩
    simpa using hkind
  rw [useBinding_apply]
  split
  · cases a.flow.get id with
    | initialized => exact ⟨[], by simp, .refl a⟩
    | uninitialized => exact hreported _ _ (by decide)
    | moved => exact hreported _ _ (by decide)
  · exact ⟨[], by simp, .refl a⟩

/-- A name that leads nowhere is reported. -/
theorem resolve_unknown {identifier : Identifier} (hfound : a.found identifier.name = none) :
    resolve identifier a = ((identifier, none),
      (report .undefinedName s!"undefined name '{identifier.name}'" identifier.location identifier.name a).2) := by
  have hresolve := resolve_apply identifier a
  unfold Analysis.found at hfound
  rwa [hfound] at hresolve

theorem bind_run {α β : Type} (step : Check α) (next : α → Check β) (a : Analysis) :
    (step >>= next) a = next (step a).1 (step a).2 :=
  rfl

/-- A name is used: what is reported is no conflict of borrows. -/
theorem mentions_name (hloud : a.silence = 0) (identifier : Identifier) :
    ∃ mentioned, (∀ error ∈ mentioned, error.kind ≠ .conflictingBorrow) ∧
      a.Mentions (checkExpr (.name identifier) a).2 mentioned := by
  rw [checkExpr, bind_run]
  cases hfound : a.found identifier.name with
  | none =>
    rw [resolve_unknown hfound]
    exact ⟨_, by simp, mentions_report hloud _ _ _ _⟩
  | some id =>
    obtain ⟨hmentions, resolved, hresolved, -⟩ := mentions_resolve hfound
    obtain ⟨mentioned, hkinds, hused⟩ :=
      mentions_useBinding (hmentions.silence.trans hloud) id resolved.name resolved.location
    rw [hresolved]
    exact ⟨_, hkinds, hmentions.trans hused⟩

/-- An argument that lends a variable: the variable is looked at, then its borrow begins. -/
theorem lends_argument {lent : Lent} (hready : a.Ready lent.identifier.name) (extent : Extent) (whole : Check Expr) :
    ∃ b id, a.Mentions b [] ∧ a.found lent.identifier.name = some id ∧
      (borrowPlace lent.location lent.exclusive extent (checkPlace (.name lent.identifier)) whole a).2 =
        (beginBorrow id lent.identifier.name lent.exclusive extent lent.location b).2 := by
  obtain ⟨id, hfound, hinitialized⟩ := hready
  obtain ⟨hmentions, resolved, hresolved, hname⟩ := mentions_resolve hfound
  refine ⟨_, id, hmentions, hfound, ?_⟩
  rw [borrowPlace, bind_run, checkPlace, bind_run, hresolved]
  show (beginBorrow id resolved.name lent.exclusive extent lent.location
    (useBinding id resolved.name resolved.location (resolve lent.identifier a).2).2).2 = _
  rw [useBinding_initialized (hmentions.initialized id hinitialized), hname]

/-- What the arguments of a call leave: all borrows are live, and there are complaints if and only if two of the live
borrows clash. -/
structure Lends (extent : Extent) (lents : List Lent) (a b : Analysis) (complaints : List Diagnostic) : Prop where
  borrows : b.borrows.toList = a.borrows.toList ++ lents.filterMap (a.lends extent)
  errors : b.errors.toList = a.errors.toList ++ complaints
  about : ∀ error ∈ complaints, error.kind = .conflictingBorrow ∧
    ∃ lent ∈ lents, error.location = lent.location ∧ error.context = lent.identifier.name
  contested : ¬ Contested a.borrows.toList →
    (complaints ≠ [] ↔ Contested (a.borrows.toList ++ lents.filterMap (a.lends extent)))

/-- A conflict is found if and only if a live borrow clashes with the new one. -/
theorem conflict?_eq_none {id : BindingId} {name : String} {location : Location} {exclusive : Bool} {extent : Extent} :
    conflict? name location id exclusive a = none ↔
      ∀ live ∈ a.borrows.toList, ¬ live.Clashes { target := id, exclusive, extent, location } := by
  simp only [conflict?, Option.map_eq_none_iff, Array.find?_eq_none, Array.mem_toList_iff, Borrow.Clashes]
  refine forall₂_congr fun live _ => ?_
  cases exclusive <;> simp [and_comm]

/-- One argument is looked at. -/
theorem lends_one (hloud : a.silence = 0) {lent : Lent} (hready : a.Ready lent.identifier.name) (extent : Extent)
    (whole : Check Expr) : ∃ b complaints,
      b = (borrowPlace lent.location lent.exclusive extent (checkPlace (.name lent.identifier)) whole a).2 ∧
        Lends extent [lent] a b complaints ∧ b.silence = 0 ∧ b.scope = a.scope ∧ b.outerScopes = a.outerScopes ∧
          ∀ id, a.flow.get id = .initialized → b.flow.get id = .initialized := by
  obtain ⟨middle, id, hmentions, hfound, hbegin⟩ := lends_argument hready extent whole
  have hquiet : middle.silence = 0 := hmentions.silence.trans hloud
  have hborrows : middle.borrows = a.borrows := hmentions.borrows
  have herrors : middle.errors.toList = a.errors.toList := hmentions.errors.trans (List.append_nil _)
  have hlends : [lent].filterMap (a.lends extent) =
      [{ target := id, exclusive := lent.exclusive, extent := extent, location := lent.location }] := by
    simp [lends, hfound]
  rw [beginBorrow_snd, if_pos hquiet] at hbegin
  refine ⟨_, (conflict? lent.identifier.name lent.location id lent.exclusive middle).toList, rfl, ?_, ?_⟩
  · rw [hbegin]
    refine ⟨?_, ?_, fun error herror => ?_, fun hpeace => ?_⟩
    · simp [hlends, hborrows]
    · simp [herrors]
    · obtain ⟨live, -, rfl⟩ := Option.map_eq_some_iff.mp (Option.mem_toList.mp herror)
      exact ⟨rfl, lent, List.mem_singleton_self _, rfl, rfl⟩
    · rw [hlends, ← not_iff_not, not_contested_append hpeace, ← hborrows, ← conflict?_eq_none, not_not]
      exact Option.toList_eq_nil_iff
  · rw [hbegin]
    exact ⟨hquiet, hmentions.scope, hmentions.outerScopes, hmentions.initialized⟩

theorem lends_congr {b : Analysis} (hscope : b.scope = a.scope) (houter : b.outerScopes = a.outerScopes)
    (extent : Extent) : b.lends extent = a.lends extent := by
  funext lent
  rw [lends, lends, found_eq hscope houter]

/-- Some arguments after others. -/
theorem Lends.append {b c : Analysis} {extent : Extent} {lents more : List Lent} {first second : List Diagnostic}
    (hfirst : Lends extent lents a b first) (hsecond : Lends extent more b c second)
    (hsame : b.lends extent = a.lends extent) : Lends extent (lents ++ more) a c (first ++ second) where
  borrows := by rw [hsecond.borrows, hfirst.borrows, hsame, List.filterMap_append, List.append_assoc]
  errors := by rw [hsecond.errors, hfirst.errors, List.append_assoc]
  about error herror := by
    rcases List.mem_append.mp herror with herror | herror
    · obtain ⟨hkind, lent, hlent, habout⟩ := hfirst.about error herror
      exact ⟨hkind, lent, List.mem_append_left _ hlent, habout⟩
    · obtain ⟨hkind, lent, hlent, habout⟩ := hsecond.about error herror
      exact ⟨hkind, lent, List.mem_append_right _ hlent, habout⟩
  contested hpeace := by
    have hleft := hfirst.contested hpeace
    rw [← hfirst.borrows] at hleft
    rw [List.filterMap_append, ← List.append_assoc, ← hfirst.borrows, ← hsame]
    by_cases hcontested : Contested b.borrows.toList
    · have hnone : first ≠ [] := hleft.mpr hcontested
      exact iff_of_true (by simp [hnone]) (hcontested.append _)
    · have hnone : first = [] := not_not.mp (mt hleft.mp hcontested)
      rw [hnone, List.nil_append]
      exact hsecond.contested hcontested

/-- All arguments of a call are looked at, one after the other. -/
theorem lends_arguments (extent : Extent) (lents : List Lent) (done : List Expr) {a : Analysis} (hloud : a.silence = 0)
    (hready : ∀ lent ∈ lents, a.Ready lent.identifier.name) :
    ∃ complaints, Lends extent lents a (checkArguments extent (lents.map Lent.argument) done a).2 complaints := by
  induction lents generalizing done a with
  | nil => exact ⟨[], (List.append_nil _).symm, (List.append_nil _).symm, by simp, fun hpeace => by simpa using hpeace⟩
  | cons lent rest ih =>
    obtain ⟨b, first, hb, hfirst, hquiet, hscope, houter, hinitialized⟩ :=
      lends_one hloud (hready lent (List.mem_cons_self ..)) extent (checkExpr (.name lent.identifier))
    have hrest (other : Lent) (hother : other ∈ rest) : b.Ready other.identifier.name :=
      (hready other (List.mem_cons_of_mem _ hother)).carry hscope houter hinitialized
    rw [List.map_cons, Lent.argument, checkArguments, bind_run, ← hb]
    obtain ⟨second, hsecond⟩ := ih _ hquiet hrest
    exact ⟨_, hfirst.append hsecond (lends_congr hscope houter extent)⟩

/-- The state after a call of a name with variables lent to it. -/
def afterCall (a : Analysis) (location : Location) (callee : Identifier) (lents : List Lent) : Analysis :=
  (checkExpr (.call location (.name callee) (lents.map Lent.argument)) a).2

/-- With the end of an extent that has just been handed out, all borrows from before it are left and no others. -/
theorem released (hnumbered : a.Numbered) (lents : List Lent) :
    (a.borrows.toList ++ lents.filterMap (a.lends a.nextExtent)).filter (·.extent != a.nextExtent) =
      a.borrows.toList := by
  have hkept : a.borrows.toList.filter (·.extent != a.nextExtent) = a.borrows.toList := by
    refine List.filter_eq_self.mpr fun live hlive => bne_iff_ne.mpr (Nat.ne_of_lt ?_)
    exact hnumbered.borrow (Array.mem_toList_iff.mp hlive)
  have hgone : (lents.filterMap (a.lends a.nextExtent)).filter (·.extent != a.nextExtent) = [] := by
    refine List.filter_eq_nil_iff.mpr fun borrow hborrow => ?_
    obtain ⟨lent, -, hlends⟩ := List.mem_filterMap.mp hborrow
    obtain ⟨id, -, rfl⟩ := Option.map_eq_some_iff.mp hlends
    simp
  rw [List.filter_append, hkept, hgone, List.append_nil]

/-- A call: the name is used, the arguments are looked at, and their borrows end. -/
theorem afterCall_spec (hloud : a.silence = 0) (hnumbered : a.Numbered) (location : Location) (callee : Identifier)
    {lents : List Lent} (hready : ∀ lent ∈ lents, a.Ready lent.identifier.name) {mentioned : List Diagnostic}
    (hmentions : a.Mentions (checkExpr (.name callee) a).2 mentioned) :
    ∃ complaints, (afterCall a location callee lents).borrows = a.borrows ∧
      (afterCall a location callee lents).errors.toList = a.errors.toList ++ mentioned ++ complaints ∧
      (∀ error ∈ complaints, error.kind = .conflictingBorrow ∧
        ∃ lent ∈ lents, error.location = lent.location ∧ error.context = lent.identifier.name) ∧
      (¬ Contested a.borrows.toList →
        (complaints ≠ [] ↔ Contested (a.borrows.toList ++ lents.filterMap (a.lends a.nextExtent)))) := by
  rw [afterCall, checkExpr, bind_run]
  obtain ⟨b, hb⟩ : ∃ b, b = (checkExpr (.name callee) a).2 := ⟨_, rfl⟩
  rw [← hb] at hmentions ⊢
  obtain ⟨opened, hopened⟩ : ∃ opened : Analysis, opened = { b with nextExtent := a.nextExtent + 1 } := ⟨_, rfl⟩
  have hscope : opened.scope = a.scope := by rw [hopened, hmentions.scope]
  have houter : opened.outerScopes = a.outerScopes := by rw [hopened, hmentions.outerScopes]
  have hborrows : opened.borrows = a.borrows := by rw [hopened, hmentions.borrows]
  have hsilence : opened.silence = 0 := by rw [hopened, ← hloud, ← hmentions.silence]
  have herrors : opened.errors.toList = a.errors.toList ++ mentioned := by rw [hopened, hmentions.errors]
  obtain ⟨complaints, hlends⟩ := lends_arguments a.nextExtent lents [] hsilence fun lent hlent =>
    (hready lent hlent).carry hscope houter fun id h => by
      rw [hopened]
      exact hmentions.initialized id h
  have hlive := hlends.borrows
  have hcontested := hlends.contested
  rw [lends_congr hscope houter, hborrows] at hlive hcontested
  have hcall : (newExtent >>= fun extent => do
      let arguments ← checkArguments extent (lents.map Lent.argument) []
      releaseExtent extent
      return Expr.call location (checkExpr (.name callee) a).1 arguments : Check Expr) b =
      (do
        let arguments ← checkArguments a.nextExtent (lents.map Lent.argument) []
        releaseExtent a.nextExtent
        return Expr.call location (checkExpr (.name callee) a).1 arguments : Check Expr) opened := by
    rw [hopened, ← hmentions.nextExtent]
    rfl
  rw [hcall]
  refine ⟨complaints, ?_, ?_, hlends.about, hcontested⟩
  · show Array.filter (·.extent != a.nextExtent) _ = a.borrows
    rw [← Array.toList_inj, Array.toList_filter, hlive]
    exact released hnumbered lents
  · rw [← herrors]
    exact hlends.errors

/-- A conflict of borrows has been reported for one of some arguments. -/
def Complains (a b : Analysis) (lents : List Lent) : Prop :=
  ∃ error ∈ b.errors.toList.drop a.errors.size, error.kind = .conflictingBorrow ∧
    ∃ lent ∈ lents, error.location = lent.location ∧ error.context = lent.identifier.name

/-- A conflict is reported for the arguments of a call if and only if some variable is borrowed twice, at least once
exclusively, by what is live and the arguments together. So the order of the arguments makes no difference to
whether there is a conflict and to whether the call is accepted. After the call the borrows from before it are live. -/
theorem call_complains_iff_contested (hloud : a.silence = 0) (hnumbered : a.Numbered)
    (hpeace : ¬ Contested a.borrows.toList) (location : Location) (callee : Identifier) {lents : List Lent}
    (hready : ∀ lent ∈ lents, a.Ready lent.identifier.name) :
    (Complains a (afterCall a location callee lents) lents ↔
      Contested (a.borrows.toList ++ lents.filterMap (a.lends a.nextExtent))) ∧
    (∀ order : List Lent, order.Perm lents →
      (Complains a (afterCall a location callee order) order ↔ Complains a (afterCall a location callee lents) lents) ∧
      ((afterCall a location callee order).errors = a.errors ↔ (afterCall a location callee lents).errors = a.errors)) ∧
    (afterCall a location callee lents).borrows = a.borrows := by
  obtain ⟨mentioned, hkinds, hmentions⟩ := mentions_name hloud callee
  have hcall (order : List Lent) (hperm : order.Perm lents) :
      (Complains a (afterCall a location callee order) order ↔
        Contested (a.borrows.toList ++ lents.filterMap (a.lends a.nextExtent))) ∧
      ((afterCall a location callee order).errors = a.errors ↔ mentioned = [] ∧
        ¬ Contested (a.borrows.toList ++ lents.filterMap (a.lends a.nextExtent))) := by
    obtain ⟨complaints, -, herrors, habout, hcontested⟩ := afterCall_spec hloud hnumbered location callee
      (fun lent hlent => hready lent (hperm.mem_iff.mp hlent)) hmentions
    rw [← contested_perm ((hperm.filterMap _).append_left a.borrows.toList), ← hcontested hpeace]
    have hnew : (afterCall a location callee order).errors.toList.drop a.errors.size = mentioned ++ complaints := by
      rw [herrors, List.append_assoc, ← Array.length_toList, List.drop_left]
    refine ⟨?_, ?_⟩
    · rw [Complains, hnew]
      constructor
      · rintro ⟨error, herror, hkind, -⟩ rfl
        exact hkinds error (by simpa using herror) hkind
      · intro hsome
        obtain ⟨error, herror⟩ := List.exists_mem_of_ne_nil _ hsome
        exact ⟨error, List.mem_append_right _ herror, habout error herror⟩
    · rw [← Array.toList_inj, herrors, List.append_assoc, List.append_right_eq_self, List.append_eq_nil_iff, not_not]
  refine ⟨(hcall lents (.refl _)).1, fun order hperm => ⟨?_, ?_⟩, ?_⟩
  · exact (hcall order hperm).1.trans (hcall lents (.refl _)).1.symm
  · exact (hcall order hperm).2.trans (hcall lents (.refl _)).2.symm
  · obtain ⟨complaints, hborrows, -⟩ := afterCall_spec hloud hnumbered location callee hready hmentions
    exact hborrows

/-- What the analysis knows after the declaration of one variable. -/
def oneVariable : Analysis :=
  between { statements := [.declare ⟨1, 1⟩ "x" (.literal ⟨1, 9⟩ (.scalar (.int 1))) {}] } 1

/-- The variable lent as shared and then as exclusive. -/
def lentTwice : List Lent :=
  [⟨⟨2, 6⟩, { location := ⟨2, 7⟩, name := "x" }, false⟩, ⟨⟨2, 9⟩, { location := ⟨2, 14⟩, name := "x" }, true⟩]

theorem found_oneVariable : oneVariable.found "x" = some 0 := by
  decide +kernel

/-- Lending a variable as shared and as exclusive in one call is a conflict in either order. -/
theorem call_complains_lentTwice :
    let callee : Identifier := { location := ⟨2, 1⟩, name := "pair" }
    Complains oneVariable (afterCall oneVariable ⟨2, 5⟩ callee lentTwice) lentTwice ∧
      Complains oneVariable (afterCall oneVariable ⟨2, 5⟩ callee lentTwice.reverse) lentTwice.reverse ∧
      (afterCall oneVariable ⟨2, 5⟩ callee lentTwice).borrows = #[] := by
  have hready : ∀ lent ∈ lentTwice, oneVariable.Ready lent.identifier.name := by
    intro lent hlent
    have hname : lent.identifier.name = "x" := by
      simp only [lentTwice, List.mem_cons, List.not_mem_nil, or_false] at hlent
      rcases hlent with rfl | rfl <;> rfl
    rw [hname]
    exact ⟨0, found_oneVariable, rfl⟩
  have hnumbered : oneVariable.Numbered := numbered_between _ 1
  have hborrows : oneVariable.borrows = #[] := by decide +kernel
  have hpeace : ¬ Contested oneVariable.borrows.toList := by
    rw [hborrows]
    exact not_contested.mpr .nil
  obtain ⟨hcontested, hperm, hsame⟩ := call_complains_iff_contested (by decide +kernel) hnumbered hpeace ⟨2, 5⟩
    { location := ⟨2, 1⟩, name := "pair" } hready
  have htwice : Complains oneVariable (afterCall oneVariable ⟨2, 5⟩ { location := ⟨2, 1⟩, name := "pair" } lentTwice)
      lentTwice := by
    have hlends : lentTwice.filterMap (oneVariable.lends oneVariable.nextExtent) =
        [{ target := 0, exclusive := false, extent := 1, location := ⟨2, 6⟩ },
          { target := 0, exclusive := true, extent := 1, location := ⟨2, 9⟩ }] := by
      have hnext : oneVariable.nextExtent = 1 := by decide +kernel
      simp [lentTwice, lends, found_oneVariable, hnext]
    rw [hcontested, hborrows, hlends]
    exact ⟨0, 1, _, _, Nat.zero_lt_one, rfl, rfl, rfl, .inr rfl⟩
  exact ⟨htwice, (hperm _ (List.reverse_perm _)).1.mpr htwice, hsame.trans hborrows⟩

end Check

end OwnScript
