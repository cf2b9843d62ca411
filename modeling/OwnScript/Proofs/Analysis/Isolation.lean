import OwnScript.Proofs.Analysis.Borrows
import OwnScript.Proofs.Analysis.Loops

/-!
Functions keep to themselves. What an analysis finds in the body of a function changes neither the path, the loops nor
the scopes around it. The borrows that are live around it stay as well, but for those held by a variable outside that
the body assigns or gives up: looking at such a body ends and begins borrows as if it were run on the spot.
-/

namespace OwnScript

mutual

/-- The names that an expression gives up. -/
def Expr.writes : Expr → List String
  | .absent | .literal _ _ | .name _ | .move _ none => []
  | .unary _ _ operand | .deref _ operand => operand.writes
  | .binary _ _ left right => left.writes ++ right.writes
  | .call _ callee arguments => callee.writes ++ Expr.allWrites arguments
  | .field _ object _ => object.writes
  | .index _ object index => object.writes ++ index.writes
  | .record _ fields => Expr.fieldWrites fields
  | .array _ items => Expr.allWrites items
  | .lambda _ function => function.writes
  | .borrow _ target _ => target.writes
  | .move _ (some identifier) => [identifier.name]

def Expr.allWrites : List Expr → List String
  | [] => []
  | expr :: rest => expr.writes ++ Expr.allWrites rest

def Expr.fieldWrites : List (String × Expr) → List String
  | [] => []
  | (_, value) :: rest => value.writes ++ Expr.fieldWrites rest

/-- The names that a statement assigns or gives up. -/
def Stmt.writes : Stmt → List String
  | .absent | .leave _ | .skip _ => []
  | .declare _ _ initial _ => initial.writes
  | .assign _ name value _ => name :: value.writes
  | .assignField _ object _ value => object.writes ++ value.writes
  | .assignIndex _ object index value => object.writes ++ (index.writes ++ value.writes)
  | .evaluate _ expression | .print _ expression | .giveBack _ expression => expression.writes
  | .block _ body => Stmt.allWrites body
  | .ifElse _ condition yes no => condition.writes ++ (yes.writes ++ no.writes)
  | .cond _ scrutinee arms => scrutinee.writes ++ Arm.allWrites arms
  | .whileLoop _ condition body => condition.writes ++ body.writes
  | .forLoop _ _ _ first bound body => first.writes ++ (bound.writes ++ body.writes)
  | .forever _ body => body.writes
  | .disown _ name _ => [name]
  | .function _ declaration _ => declaration.writes

def Stmt.allWrites : List Stmt → List String
  | [] => []
  | stmt :: rest => stmt.writes ++ Stmt.allWrites rest

def Arm.allWrites : List Arm → List String
  | [] => []
  | ⟨_, _, guard, body⟩ :: rest => guard.writes ++ (Stmt.allWrites body ++ Arm.allWrites rest)

def Function.writes : Function → List String
  | ⟨_, _, clauses⟩ => Clause.allWrites clauses

def Clause.allWrites : List Clause → List String
  | [] => []
  | ⟨_, _, body⟩ :: rest => Stmt.allWrites body ++ Clause.allWrites rest

end

namespace Analysis

open Check

variable {a middle after : Analysis} {passing : List Extent}

/-- The extent that a variable lives in. -/
def extentOf (a : Analysis) (id : BindingId) : Option Extent :=
  a.symbols[id]?.map (·.extent)

/-- A borrow that is held lives as long as its holder, and every borrow is passing or ends with a scope around. -/
structure Sound (passing : List Extent) (a : Analysis) (borrow : Borrow) : Prop where
  held : ∀ holder, borrow.holder = some holder → a.extentOf holder = some borrow.extent
  live : borrow.extent ∈ passing ∨ ∃ scope ∈ a.scope :: a.outerScopes, scope.extent = borrow.extent

/-- A variable lives in the extent of its scope, and every borrow has an end. The extents given are passing: they end
with calls and expressions that are being looked at. -/
structure Orderly (passing : List Extent) (a : Analysis) : Prop where
  handed : ∀ extent ∈ passing, extent < a.nextExtent
  scopes : ∀ scope ∈ a.scope :: a.outerScopes, scope.extent < a.nextExtent
  lodged : ∀ scope ∈ a.scope :: a.outerScopes, ∀ (name : String) (id : BindingId), scope.names[name]? = some id →
    a.extentOf id = some scope.extent
  sound : ∀ borrow ∈ a.borrows, Sound passing a borrow

/-- At the start nothing is declared and nothing is borrowed. -/
theorem orderly_empty : Orderly [] {} where
  handed := nofun
  scopes scope hscope := by
    cases List.mem_singleton.mp hscope
    exact Nat.zero_lt_one
  lodged scope hscope name id h := by
    cases List.mem_singleton.mp hscope
    simp at h
  sound borrow h := by simp at h

/-- A name leads to a variable that lives in a scope around. -/
theorem Orderly.found (horderly : a.Orderly passing) {name : String} {id : BindingId}
    (hfound : a.found name = some id) :
    ∃ extent, a.extentOf id = some extent ∧ ∃ scope ∈ a.scope :: a.outerScopes, scope.extent = extent := by
  obtain ⟨scope, hscope, hname⟩ := List.exists_of_findSome?_eq_some hfound
  exact ⟨scope.extent, horderly.lodged scope hscope name id hname, scope, hscope, rfl⟩

/-- Nothing that borrows depend on has changed. -/
structure Steady (a after : Analysis) : Prop where
  scope : after.scope = a.scope
  outerScopes : after.outerScopes = a.outerScopes
  size : after.symbols.size = a.symbols.size
  extentOf : ∀ id, after.extentOf id = a.extentOf id
  nextExtent : a.nextExtent ≤ after.nextExtent

theorem Steady.of_same (hscope : after.scope = a.scope) (houter : after.outerScopes = a.outerScopes)
    (hsymbols : after.symbols = a.symbols) (hnext : a.nextExtent ≤ after.nextExtent) : Steady a after :=
  ⟨hscope, houter, congrArg Array.size hsymbols,
    fun id => by rw [Analysis.extentOf, Analysis.extentOf, hsymbols], hnext⟩

/-- A flag of a declaration that has nothing to do with extents. -/
theorem steady_flag (a : Analysis) (id : BindingId) {f : Symbol → Symbol}
    (hf : ∀ symbol, (f symbol).extent = symbol.extent) :
    Steady a { a with symbols := a.symbols.modify id f } := by
  refine ⟨rfl, rfl, Array.size_modify, fun other => ?_, Nat.le_refl _⟩
  simp only [Analysis.extentOf, Array.getElem?_modify]
  split <;> simp [Function.comp_def, hf]

theorem Steady.trans (hfirst : Steady a middle) (hsecond : Steady middle after) : Steady a after where
  scope := hsecond.scope.trans hfirst.scope
  outerScopes := hsecond.outerScopes.trans hfirst.outerScopes
  size := hsecond.size.trans hfirst.size
  extentOf id := (hsecond.extentOf id).trans (hfirst.extentOf id)
  nextExtent := hfirst.nextExtent.trans hsecond.nextExtent

theorem Steady.sound (hsteady : Steady a after) {borrow : Borrow} (hsound : Sound passing a borrow) :
    Sound passing after borrow where
  held holder h := (hsteady.extentOf holder).trans (hsound.held holder h)
  live := by
    rw [hsteady.scope, hsteady.outerScopes]
    exact hsound.live

/-- A part of a program is fenced off: what was declared before it and the extents handed out before it lie outside. -/
structure Fence where
  symbols : Nat
  extent : Extent
  /-- The variables outside that may be written inside. -/
  gates : List BindingId

/-- A variable that may be written inside a fence. -/
def Fence.Writable (fence : Fence) (id : BindingId) : Prop :=
  id ∈ fence.gates ∨ fence.symbols ≤ id

/-- A borrow that nothing inside a fence ends. -/
def Fence.spares (fence : Fence) (borrow : Borrow) : Bool :=
  decide (borrow.extent < fence.extent) &&
    borrow.holder.all fun holder => decide (holder < fence.symbols) && !fence.gates.contains holder

theorem Fence.spares_extent {fence : Fence} {borrow : Borrow} (hspares : fence.spares borrow = true) :
    borrow.extent < fence.extent := by
  rw [Fence.spares, Bool.and_eq_true, decide_eq_true_eq] at hspares
  exact hspares.1

theorem Fence.spares_holder {fence : Fence} {borrow : Borrow} (hspares : fence.spares borrow = true) {id : BindingId}
    (hid : fence.Writable id) : borrow.holder ≠ some id := by
  intro hholder
  simp only [Fence.spares, hholder, Option.all_some, Bool.and_eq_true, decide_eq_true_eq, Bool.not_eq_true',
    List.contains_eq_mem, decide_eq_false_iff_not] at hspares
  rcases hid with hgate | hinside
  · exact hspares.2.2 hgate
  · exact absurd hspares.2.1 (Nat.not_lt.mpr hinside)

/-- Borrows end, but none that a fence spares. -/
theorem Fence.filter_spares {fence : Fence} {keep : Borrow → Bool}
    (hkeep : ∀ borrow, fence.spares borrow = true → keep borrow = true) (borrows : Array Borrow) :
    (borrows.filter keep).toList.filter fence.spares = borrows.toList.filter fence.spares := by
  rw [Array.toList_filter, List.filter_filter]
  refine List.filter_congr fun borrow _ => ?_
  cases hspares : fence.spares borrow with
  | false => rfl
  | true => rw [hkeep borrow hspares, Bool.and_true]

/-- A state inside a fence. What is declared inside lives in extents inside, and a name that is written there leads to
a variable that may be written. -/
structure Inside (fence : Fence) (names : List String) (a : Analysis) : Prop where
  symbols : fence.symbols ≤ a.symbols.size
  extent : fence.extent ≤ a.nextExtent
  fresh : ∀ id extent, fence.symbols ≤ id → a.extentOf id = some extent → fence.extent ≤ extent
  writes : ∀ name ∈ names, ∀ id, a.found name = some id → fence.Writable id

/-- What a step inside a fence leaves as it is. -/
structure Secluded (fence : Fence) (a after : Analysis) : Prop where
  outer : after.outerScopes = a.outerScopes
  extent : after.scope.extent = a.scope.extent
  lives : ∀ id extent, a.extentOf id = some extent → after.extentOf id = some extent
  spared : after.borrows.toList.filter fence.spares = a.borrows.toList.filter fence.spares

/-- The scopes around end when they did. -/
theorem Secluded.scope {fence : Fence} (hsecluded : Secluded fence a after) {extent : Extent}
    (hscope : ∃ scope ∈ a.scope :: a.outerScopes, scope.extent = extent) :
    ∃ scope ∈ after.scope :: after.outerScopes, scope.extent = extent := by
  obtain ⟨scope, hmem, rfl⟩ := hscope
  rw [hsecluded.outer]
  rcases List.mem_cons.mp hmem with rfl | hmem
  · exact ⟨after.scope, List.mem_cons_self .., hsecluded.extent⟩
  · exact ⟨scope, List.mem_cons_of_mem _ hmem, rfl⟩

theorem Secluded.trans {fence : Fence} (hfirst : Secluded fence a middle) (hsecond : Secluded fence middle after) :
    Secluded fence a after where
  outer := hsecond.outer.trans hfirst.outer
  extent := hsecond.extent.trans hfirst.extent
  lives id extent h := hsecond.lives id extent (hfirst.lives id extent h)
  spared := hsecond.spared.trans hfirst.spared

/-- A step inside a fence leads to another state inside it. -/
structure Stays (fence : Fence) (names : List String) (passing : List Extent) (a after : Analysis) : Prop where
  orderly : Orderly passing after
  inside : Inside fence names after
  secluded : Secluded fence a after

variable {fence : Fence} {names : List String}

theorem Stays.trans (hfirst : Stays fence names passing a middle) (hsecond : Stays fence names passing middle after) :
    Stays fence names passing a after :=
  ⟨hsecond.orderly, hsecond.inside, hfirst.secluded.trans hsecond.secluded⟩

/-- A step that changes borrows only. -/
theorem Stays.of_steady (horderly : Orderly passing a) (hinside : Inside fence names a) (hsteady : Steady a after)
    (hsound : ∀ borrow ∈ after.borrows, borrow ∈ a.borrows ∨ Sound passing a borrow)
    (hspared : after.borrows.toList.filter fence.spares = a.borrows.toList.filter fence.spares) :
    Stays fence names passing a after where
  orderly :=
    { handed := fun extent h => (horderly.handed extent h).trans_le hsteady.nextExtent
      scopes := by
        rw [hsteady.scope, hsteady.outerScopes]
        exact fun scope h => (horderly.scopes scope h).trans_le hsteady.nextExtent
      lodged := by
        rw [hsteady.scope, hsteady.outerScopes]
        exact fun scope h name id hname => (hsteady.extentOf id).trans (horderly.lodged scope h name id hname)
      sound := fun borrow h => hsteady.sound ((hsound borrow h).elim (horderly.sound borrow) fun h => h) }
  inside :=
    { symbols := hinside.symbols.trans_eq hsteady.size.symm
      extent := hinside.extent.trans hsteady.nextExtent
      fresh := fun id extent hid h => hinside.fresh id extent hid ((hsteady.extentOf id).symm.trans h)
      writes := fun name hname id h => hinside.writes name hname id
        ((found_eq hsteady.scope hsteady.outerScopes name).symm.trans h) }
  secluded :=
    { outer := hsteady.outerScopes
      extent := congrArg Scope.extent hsteady.scope
      lives := fun id extent h => (hsteady.extentOf id).trans h
      spared := hspared }

/-- One more borrow. -/
theorem Stays.of_push (horderly : Orderly passing a) (hinside : Inside fence names a) (hsteady : Steady a after)
    {borrow : Borrow} (hborrows : after.borrows = a.borrows.push borrow) (hsound : Sound passing a borrow)
    (hspared : fence.spares borrow = false) : Stays fence names passing a after := by
  refine .of_steady horderly hinside hsteady (fun other hother => ?_) ?_
  · rw [hborrows] at hother
    exact (Array.mem_push.mp hother).imp_right fun h => by rwa [h]
  · rw [hborrows, Array.toList_push, List.filter_append, List.filter_cons_of_neg (by simp [hspared]), List.filter_nil,
      List.append_nil]

/-- The declaration of a name that its scope has not declared before. -/
theorem stays_declaredNew (horderly : Orderly passing a) (hinside : Inside fence names a)
    (hscope : fence.extent ≤ a.scope.extent) (name : String) (location : Location) (initial : InitState) :
    Stays fence names passing a (declaredNew name location initial a) := by
  have hextent (id : BindingId) : (declaredNew name location initial a).extentOf id =
      if id = a.symbols.size then some a.scope.extent else a.extentOf id := by
    simp only [extentOf, declaredNew, Array.getElem?_push]
    split <;> rfl
  have hlives (id : BindingId) (extent : Extent) (h : a.extentOf id = some extent) :
      (declaredNew name location initial a).extentOf id = some extent := by
    rw [hextent, if_neg, h]
    rintro rfl
    simp [extentOf] at h
  refine ⟨⟨horderly.handed, fun scope h => ?_, fun scope h other id hname => ?_, fun borrow h => ?_⟩,
    ⟨?_, hinside.extent, fun id extent hid h => ?_, fun other hother id h => ?_⟩, ⟨rfl, rfl, hlives, rfl⟩⟩
  · rcases List.mem_cons.mp h with rfl | h
    · exact horderly.scopes a.scope (List.mem_cons_self ..)
    · exact horderly.scopes scope (List.mem_cons_of_mem _ h)
  · rcases List.mem_cons.mp h with rfl | h
    · rw [names_declaredNew] at hname
      split at hname
      · cases hname
        rw [hextent, if_pos rfl]
        rfl
      · exact hlives id _ (horderly.lodged a.scope (List.mem_cons_self ..) other id hname)
    · exact hlives id _ (horderly.lodged scope (List.mem_cons_of_mem _ h) other id hname)
  · have hsound := horderly.sound borrow h
    refine ⟨fun holder hholder => hlives holder _ (hsound.held holder hholder), hsound.live.imp_right ?_⟩
    rintro ⟨scope, hmem, hsame⟩
    rcases List.mem_cons.mp hmem with rfl | hmem
    · exact ⟨_, List.mem_cons_self .., hsame⟩
    · exact ⟨scope, List.mem_cons_of_mem _ hmem, hsame⟩
  · exact hinside.symbols.trans (by simp [declaredNew])
  · rw [hextent] at h
    split at h
    · cases h
      exact hscope
    · exact hinside.fresh id extent hid h
  · rw [found_declaredNew] at h
    split at h
    · cases h
      exact .inr hinside.symbols
    · exact hinside.writes other hother id h

/-- The state inside a new scope. -/
theorem Orderly.enterScope (horderly : Orderly passing a) : Orderly passing (Check.enterScope a).2 := by
  rw [Check.enterScope_snd]
  refine ⟨fun extent h => (horderly.handed extent h).trans (Nat.lt_succ_self _), fun scope h => ?_,
    fun scope h name id hname => ?_, fun borrow h => ⟨(horderly.sound borrow h).held, ?_⟩⟩
  · rcases List.mem_cons.mp h with rfl | h
    · exact Nat.lt_succ_self _
    · exact (horderly.scopes scope h).trans (Nat.lt_succ_self _)
  · rcases List.mem_cons.mp h with rfl | h
    · simp at hname
    · exact horderly.lodged scope h name id hname
  · exact (horderly.sound borrow h).live.imp_right fun ⟨scope, hmem, hsame⟩ =>
      ⟨scope, List.mem_cons_of_mem _ hmem, hsame⟩

theorem found_enterScope (name : String) : (Check.enterScope a).2.found name = a.found name := by
  rw [Check.enterScope_snd, found, List.findSome?_cons]
  simp [found]

theorem Inside.enterScope (hinside : Inside fence names a) : Inside fence names (Check.enterScope a).2 where
  symbols := hinside.symbols
  extent := hinside.extent.trans (Nat.le_succ _)
  fresh := hinside.fresh
  writes name hname id h := hinside.writes name hname id ((found_enterScope name).symm.trans h)

/-- A part in a scope of its own. -/
theorem Stays.scoped (hinside : Inside fence names a) {inner : Analysis}
    (hinner : Stays fence names passing (enterScope a).2 inner) : Stays fence names passing a (exitScope inner).2 := by
  have houter : inner.outerScopes = a.scope :: a.outerScopes := hinner.secluded.outer
  have hfence : fence.extent ≤ inner.scope.extent := hinside.extent.trans_eq hinner.secluded.extent.symm
  have hscopes (scope : Scope) (h : scope ∈ a.scope :: a.outerScopes) : scope ∈ inner.scope :: inner.outerScopes := by
    rw [houter]
    exact List.mem_cons_of_mem _ h
  rw [exitScope_snd, houter]
  refine ⟨⟨hinner.orderly.handed, fun scope h => hinner.orderly.scopes scope (hscopes scope h),
    fun scope h => hinner.orderly.lodged scope (hscopes scope h), fun borrow h => ?_⟩,
    ⟨hinner.inside.symbols, hinner.inside.extent, hinner.inside.fresh, hinside.writes⟩,
    ⟨rfl, rfl, hinner.secluded.lives, ?_⟩⟩
  · obtain ⟨hlive, hother⟩ := Array.mem_filter.mp h
    have hsound := hinner.orderly.sound borrow hlive
    refine ⟨hsound.held, hsound.live.imp_right ?_⟩
    rintro ⟨scope, hmem, hsame⟩
    rw [houter] at hmem
    rcases List.mem_cons.mp hmem with rfl | hmem
    · rw [hsame] at hother
      simp at hother
    · exact ⟨scope, hmem, hsame⟩
  · refine (Fence.filter_spares (fun borrow hspares => ?_) inner.borrows).trans hinner.secluded.spared
    exact bne_iff_ne.mpr (Nat.ne_of_lt ((Fence.spares_extent hspares).trans_le hfence))

/-- A borrow that is held by none of the variables that some names lead to. -/
def unwritten (a : Analysis) (names : List String) (borrow : Borrow) : Bool :=
  borrow.holder.all fun holder => names.all fun name => a.found name != some holder

/-- The fence around a part that is looked at next: the names that it writes are known. -/
def fenceFor (a : Analysis) (names : List String) : Fence :=
  ⟨a.symbols.size, a.nextExtent, names.filterMap a.found⟩

theorem inside_fenceFor (a : Analysis) (names : List String) : Inside (a.fenceFor names) names a where
  symbols := Nat.le_refl _
  extent := Nat.le_refl _
  fresh id extent hid h := by
    rw [extentOf, Array.getElem?_eq_none hid] at h
    cases h
  writes name hname id hfound := .inl (List.mem_filterMap.mpr ⟨name, hname, hfound⟩)

theorem Orderly.extent_lt (horderly : Orderly passing a) {borrow : Borrow} (hlive : borrow ∈ a.borrows) :
    borrow.extent < a.nextExtent := by
  rcases (horderly.sound borrow hlive).live with hpassing | ⟨scope, hscope, hextent⟩
  · exact horderly.handed _ hpassing
  · exact hextent ▸ horderly.scopes scope hscope

/-- The borrows that have been begun by what is declared before a fence are those whose holder is not written inside. -/
theorem spares_fenceFor {borrow : Borrow} (hextent : borrow.extent < a.nextExtent)
    (hholder : ∀ holder, borrow.holder = some holder → holder < a.symbols.size) :
    (a.fenceFor names).spares borrow = a.unwritten names borrow := by
  rw [Fence.spares, decide_eq_true (show borrow.extent < (a.fenceFor names).extent from hextent), Bool.true_and,
    unwritten]
  cases hheld : borrow.holder with
  | none => rfl
  | some holder =>
    rw [Option.all_some, Option.all_some,
      decide_eq_true (show holder < (a.fenceFor names).symbols from hholder holder hheld), Bool.true_and,
        Bool.eq_iff_iff]
    simp [fenceFor]

/-- Outside of a part, after it has been looked at, the borrows are those from before but for the ones that are held by
variables which the part writes. -/
theorem Stays.unwritten (horderly : Orderly passing a) (hstays : Stays (a.fenceFor names) names passing a after) :
    after.borrows.toList.filter (a.unwritten names) = a.borrows.toList.filter (a.unwritten names) := by
  have hknown (borrow : Borrow) (h : borrow ∈ a.borrows) :
      (a.fenceFor names).spares borrow = a.unwritten names borrow := by
    refine spares_fenceFor (horderly.extent_lt h) fun holder hholder => ?_
    by_contra hout
    have hheld := (horderly.sound borrow h).held holder hholder
    rw [extentOf, Array.getElem?_eq_none (Nat.le_of_not_lt hout)] at hheld
    cases hheld
  have hlater (borrow : Borrow) (h : borrow ∈ after.borrows) :
      (a.fenceFor names).spares borrow = a.unwritten names borrow := by
    have hsound := hstays.orderly.sound borrow h
    have hextent : borrow.extent < a.nextExtent := by
      rcases hsound.live with hpassing | ⟨scope, hscope, hsame⟩
      · exact horderly.handed _ hpassing
      · rw [hstays.secluded.outer] at hscope
        rcases List.mem_cons.mp hscope with rfl | hscope
        · exact hsame ▸ hstays.secluded.extent ▸ horderly.scopes a.scope (List.mem_cons_self ..)
        · exact hsame ▸ horderly.scopes scope (List.mem_cons_of_mem _ hscope)
    refine spares_fenceFor hextent fun holder hholder => ?_
    by_contra hin
    exact Nat.not_le.mpr hextent (hstays.inside.fresh holder _ (Nat.le_of_not_lt hin) (hsound.held holder hholder))
  rw [← List.filter_congr fun borrow h => hlater borrow (Array.mem_toList_iff.mp h), hstays.secluded.spared]
  exact List.filter_congr fun borrow h => hknown borrow (Array.mem_toList_iff.mp h)

end Analysis

namespace Check

open Analysis

variable {α β : Type} {fence : Fence} {names : List String}

/-- A step that stays inside a fence. -/
def Fences (fence : Fence) (names : List String) (step : Check α) : Prop :=
  ∀ passing a, Orderly passing a → Inside fence names a → Stays fence names passing a (step a).2

/-- A step that stays inside a fence if its scope lies inside. -/
def Secludes (fence : Fence) (names : List String) (step : Check α) : Prop :=
  ∀ passing a, Orderly passing a → Inside fence names a → fence.extent ≤ a.scope.extent →
    Stays fence names passing a (step a).2

theorem Fences.secludes {step : Check α} (hstep : Fences fence names step) : Secludes fence names step :=
  fun passing a horderly hinside _ => hstep passing a horderly hinside

theorem Fences.bind {step : Check α} {next : α → Check β} (hstep : Fences fence names step)
    (hnext : ∀ value, Fences fence names (next value)) : Fences fence names (step >>= next) := by
  intro passing a horderly hinside
  have hfirst := hstep passing a horderly hinside
  exact hfirst.trans (hnext _ passing _ hfirst.orderly hfirst.inside)

/-- What is behind a part starts from the state that the part has led to. -/
theorem Secludes.after {step : Check α} (hstep : Secludes fence names step) {passing : List Extent} {a b : Analysis}
    (hfirst : Stays fence names passing a b) (hscope : fence.extent ≤ a.scope.extent) :
    Stays fence names passing a (step b).2 :=
  hfirst.trans (hstep passing b hfirst.orderly hfirst.inside (hscope.trans_eq hfirst.secluded.extent.symm))

theorem Secludes.bind {step : Check α} {next : α → Check β} (hstep : Secludes fence names step)
    (hnext : ∀ value, Secludes fence names (next value)) : Secludes fence names (step >>= next) :=
  fun passing a horderly hinside hscope => (hnext _).after (hstep passing a horderly hinside hscope) hscope

theorem fences_get {next : Analysis → Check β} (hnext : ∀ a, Fences fence names (next a)) :
    Fences fence names (get >>= next) :=
  fun passing a => hnext a passing a

theorem secludes_get {next : Analysis → Check β} (hnext : ∀ a, Secludes fence names (next a)) :
    Secludes fence names (get >>= next) :=
  fun passing a => hnext a passing a

theorem Secludes.ite {condition : Prop} [Decidable condition] {yes no : Check α} (hyes : Secludes fence names yes)
    (hno : Secludes fence names no) : Secludes fence names (if condition then yes else no) := by
  split
  · exact hyes
  · exact hno

/-- A step that borrows have nothing to do with. -/
def Idle (step : Check α) : Prop :=
  ∀ a, Steady a (step a).2 ∧ (step a).2.borrows = a.borrows

theorem Idle.fences {step : Check α} (hstep : Idle step) : Fences fence names step :=
  fun _ a horderly hinside =>
    .of_steady horderly hinside (hstep a).1 (fun _ h => .inl ((hstep a).2 ▸ h)) (by rw [(hstep a).2])

theorem Idle.secludes {step : Check α} (hstep : Idle step) : Secludes fence names step :=
  hstep.fences.secludes

theorem idle_pure (value : α) : Idle (pure value) :=
  fun _ => ⟨.of_same rfl rfl rfl (Nat.le_refl _), rfl⟩

theorem secludes_pure (value : α) : Secludes fence names (pure value) :=
  (idle_pure value).secludes

theorem Idle.bind {step : Check α} {next : α → Check β} (hstep : Idle step) (hnext : ∀ value, Idle (next value)) :
    Idle (step >>= next) :=
  fun a => ⟨(hstep a).1.trans (hnext _ _).1, (hnext _ _).2.trans (hstep a).2⟩

theorem idle_get {next : Analysis → Check β} (hnext : ∀ a, Idle (next a)) : Idle (get >>= next) :=
  fun a => hnext a a

/-- A change of nothing that borrows depend on. -/
theorem idle_modify {f : Analysis → Analysis}
    (hf : ∀ a, (f a).scope = a.scope ∧ (f a).outerScopes = a.outerScopes ∧ (f a).symbols = a.symbols ∧
      (f a).borrows = a.borrows ∧ (f a).nextExtent = a.nextExtent) : Idle (modify f) := by
  intro a
  obtain ⟨hscope, houter, hsymbols, hborrows, hnext⟩ := hf a
  exact ⟨.of_same hscope houter hsymbols hnext.ge, hborrows⟩

section Events

variable (id : BindingId) (name : String) (location : Location)

theorem idle_report (kind : ErrorKind) (message : String) : Idle (report kind message location name) :=
  idle_modify fun _ => by split <;> exact ⟨rfl, rfl, rfl, rfl, rfl⟩

theorem idle_setState (state : InitState) : Idle (setState id state) :=
  idle_modify fun _ => ⟨rfl, rfl, rfl, rfl, rfl⟩

theorem idle_setFlow (flow : FlowState) : Idle (setFlow flow) :=
  idle_modify fun _ => ⟨rfl, rfl, rfl, rfl, rfl⟩

theorem idle_endPath : Idle endPath :=
  idle_modify fun _ => ⟨rfl, rfl, rfl, rfl, rfl⟩

theorem idle_getFlow : Idle getFlow :=
  idle_get fun _ => idle_pure _

theorem idle_isGlobal : Idle (isGlobal id) :=
  idle_get fun _ => idle_pure _

theorem idle_isBorrowed : Idle (isBorrowed id) :=
  idle_get fun _ => idle_pure _

theorem idle_lookup : Idle (lookup name) :=
  idle_get fun _ => idle_pure _

theorem idle_leaveLoop : Idle leaveLoop :=
  (idle_modify fun _ => by split <;> exact ⟨rfl, rfl, rfl, rfl, rfl⟩).bind fun _ => idle_endPath

theorem idle_skipLoop : Idle skipLoop :=
  (idle_modify fun _ => by split <;> exact ⟨rfl, rfl, rfl, rfl, rfl⟩).bind fun _ => idle_endPath

/-- A reference marks variables and is noted. -/
theorem idle_noteReference : Idle (noteReference id location) := by
  intro a
  have hmarked (symbol : Symbol) : Steady a (marked a symbol id) ∧ (marked a symbol id).borrows = a.borrows := by
    unfold marked
    split
    · exact ⟨steady_flag a id fun _ => rfl, rfl⟩
    · exact ⟨.of_same rfl rfl rfl (Nat.le_refl _), rfl⟩
  cases hfound : a.symbols[id]? with
  | none =>
    have hsame : (noteReference id location a).2 = a := by simp [noteReference, modify_snd, hfound]
    rw [hsame]
    exact ⟨.of_same rfl rfl rfl (Nat.le_refl _), rfl⟩
  | some symbol =>
    obtain ⟨⟨hscope, houter, hsize, hextent, hnext⟩, hborrows⟩ := hmarked symbol
    rw [noteReference_eq hfound]
    split
    · exact hmarked symbol
    · split
      · exact ⟨⟨hscope, houter, hsize, hextent, hnext⟩, hborrows⟩
      · split <;> exact ⟨⟨hscope, houter, hsize, hextent, hnext⟩, hborrows⟩

theorem idle_resolve (identifier : Identifier) : Idle (resolve identifier) := by
  refine (idle_lookup _).bind fun target => ?_
  cases target with
  | none => exact (idle_report _ _ _ _).bind fun _ => idle_pure _
  | some id => exact (idle_isGlobal id).bind fun _ => (idle_noteReference id _).bind fun _ => idle_pure _

theorem idle_useBinding : Idle (useBinding id name location) := by
  refine idle_getFlow.bind fun flow => ?_
  split
  · split
    · exact idle_pure _
    · exact (idle_report _ _ _ _).bind fun _ => idle_setState _ _
    · exact (idle_report _ _ _ _).bind fun _ => idle_setState _ _
  · exact idle_pure _

theorem idle_assignBinding : Idle (assignBinding id name location) := by
  refine (idle_isBorrowed id).bind fun borrowed => ?_
  split
  · exact (idle_report _ _ _ _).bind fun _ => idle_setState _ _
  · exact idle_setState _ _

variable {id name}

/-- The borrows of a variable that may be written end. -/
theorem fences_releaseHeldBy (hid : fence.Writable id) : Fences fence names (releaseHeldBy id) := by
  intro passing a horderly hinside
  refine .of_steady horderly hinside (.of_same rfl rfl rfl (Nat.le_refl _))
    (fun borrow h => .inl (Array.mem_filter.mp h).1) (Fence.filter_spares (fun borrow hspares => ?_) a.borrows)
  exact bne_iff_ne.mpr (Fence.spares_holder hspares hid)

theorem fences_moveBinding (hid : fence.Writable id) : Fences fence names (moveBinding id name location) := by
  have hrest : Fences fence names (do
      if ← isBorrowed id then
        report .conflictingBorrow s!"cannot move '{name}' while it is borrowed" location name
      releaseHeldBy id
      setState id .moved) := by
    refine (idle_isBorrowed id).fences.bind fun borrowed => ?_
    split
    · exact (idle_report _ _ _ _).fences.bind fun _ => (fences_releaseHeldBy hid).bind fun _ =>
        (idle_setState _ _).fences
    · exact (fences_releaseHeldBy hid).bind fun _ => (idle_setState _ _).fences
  refine (idle_useBinding id name location).fences.bind fun _ => fences_get fun a => ?_
  split
  · split
    · exact (idle_report _ _ _ _).fences.bind fun _ => hrest
    · split
      · exact (idle_report _ _ _ _).fences.bind fun _ => hrest
      · exact hrest
  · exact hrest

/-- A name that is written leads to a variable that may be written. -/
theorem secludes_written (hname : name ∈ names) {next : Option BindingId → Check β}
    (hnone : Secludes fence names (next none))
    (hsome : ∀ id, fence.Writable id → Secludes fence names (next (some id))) :
    Secludes fence names (lookup name >>= next) := by
  intro passing a horderly hinside hscope
  rw [lookup_bind_run]
  cases hfound : a.found name with
  | none => exact hnone passing a horderly hinside hscope
  | some id => exact hsome id (hinside.writes name hname id hfound) passing a horderly hinside hscope

theorem secludes_resolved {identifier : Identifier} (hname : identifier.name ∈ names)
    {next : Identifier × Option BindingId → Check β}
    (hnext : ∀ resolved target, (∀ id, target = some id → fence.Writable id) →
      Secludes fence names (next (resolved, target))) :
    Secludes fence names (resolve identifier >>= next) := by
  intro passing a horderly hinside hscope
  have htarget (id : BindingId) (hid : (resolve identifier a).1.2 = some id) : fence.Writable id := by
    cases hfound : a.found identifier.name with
    | none =>
      rw [resolve_unknown hfound] at hid
      cases hid
    | some target =>
      obtain ⟨-, resolved, hresolved, -⟩ := mentions_resolve hfound
      rw [hresolved] at hid
      cases hid
      exact hinside.writes _ hname id hfound
  exact (hnext _ _ htarget).after ((idle_resolve identifier).secludes passing a horderly hinside hscope) hscope

theorem secludes_declareName (initial : InitState) : Secludes fence names (declareName name location initial) := by
  intro passing a horderly hinside hscope
  cases hknown : a.scope.names[name]? with
  | some id =>
    rw [declareName_known hknown]
    exact (idle_report _ _ _ _).fences passing a horderly hinside
  | none =>
    rw [declareName_new hknown]
    exact stays_declaredNew horderly hinside hscope name location initial

/-- A scope of its own lies inside. -/
theorem fences_inScope {body : Check α} (hbody : Secludes fence names body) : Fences fence names (inScope body) :=
  fun passing _ horderly hinside =>
    .scoped hinside (hbody passing _ horderly.enterScope hinside.enterScope hinside.extent)

end Events

section Borrows

variable {extent : Extent}

/-- A step inside a fence that may use an extent that is passing. -/
def Passes (fence : Fence) (names : List String) (extent : Extent) (step : Check α) : Prop :=
  ∀ passing a, extent ∈ passing → fence.extent ≤ extent → Orderly passing a → Inside fence names a →
    fence.extent ≤ a.scope.extent → Stays fence names passing a (step a).2

theorem Secludes.passes {step : Check α} (hstep : Secludes fence names step) : Passes fence names extent step :=
  fun passing a _ _ => hstep passing a

theorem Passes.bind {step : Check α} {next : α → Check β} (hstep : Passes fence names extent step)
    (hnext : ∀ value, Passes fence names extent (next value)) : Passes fence names extent (step >>= next) := by
  intro passing a hpassing hextent horderly hinside hscope
  have hfirst := hstep passing a hpassing hextent horderly hinside hscope
  exact hfirst.trans (hnext _ passing _ hpassing hextent hfirst.orderly hfirst.inside
    (hscope.trans_eq hfirst.secluded.extent.symm))

/-- An extent that passes while a part is looked at. The borrows of the extent end with it. -/
theorem secludes_passing {step : Extent → Check α} (hstep : ∀ extent, Passes fence names extent (step extent))
    {β : Type} (result : α → β) :
    Secludes fence names (newExtent >>= fun extent => step extent >>= fun value =>
      releaseExtent extent >>= fun _ => pure (result value)) := by
  intro passing a horderly hinside hscope
  have hsteady : Steady a (newExtent a).2 := .of_same rfl rfl rfl (Nat.le_succ _)
  have hopened : Orderly (a.nextExtent :: passing) (newExtent a).2 := by
    refine ⟨fun extent h => ?_, fun scope h => (horderly.scopes scope h).trans (Nat.lt_succ_self _), horderly.lodged,
      fun borrow h => ?_⟩
    · rcases List.mem_cons.mp h with rfl | h
      · exact Nat.lt_succ_self _
      · exact (horderly.handed extent h).trans (Nat.lt_succ_self _)
    · have hsound := horderly.sound borrow h
      exact ⟨hsound.held, hsound.live.imp_left (List.mem_cons_of_mem _)⟩
  have hinner := hstep a.nextExtent _ _ (List.mem_cons_self ..) hinside.extent hopened
    ⟨hinside.symbols, hinside.extent.trans (Nat.le_succ _), hinside.fresh, hinside.writes⟩ hscope
  change Stays fence names passing a (releaseExtent a.nextExtent (step a.nextExtent (newExtent a).2).2).2
  generalize (step a.nextExtent (newExtent a).2).2 = b at hinner
  refine ⟨⟨fun extent h => hinner.orderly.handed extent (List.mem_cons_of_mem _ h), hinner.orderly.scopes,
    hinner.orderly.lodged, fun borrow h => ?_⟩,
    ⟨hinner.inside.symbols, hinner.inside.extent, hinner.inside.fresh, hinner.inside.writes⟩,
    ⟨hinner.secluded.outer, hinner.secluded.extent, hinner.secluded.lives, ?_⟩⟩
  · obtain ⟨hlive, hother⟩ := Array.mem_filter.mp h
    have hsound := hinner.orderly.sound borrow hlive
    refine ⟨hsound.held, hsound.live.imp_left fun hmem => ?_⟩
    exact (List.mem_cons.mp hmem).resolve_left (bne_iff_ne.mp hother)
  · refine (Fence.filter_spares (fun borrow hspares => ?_) b.borrows).trans hinner.secluded.spared
    exact bne_iff_ne.mpr (Nat.ne_of_lt ((Fence.spares_extent hspares).trans_le hinside.extent))

/-- A state in which a borrow of a variable has begun that nothing holds yet. -/
def lent (borrow : Borrow) (errors : Array Diagnostic) (a : Analysis) : Analysis :=
  { a with borrows := a.borrows.push borrow, errors }

theorem steady_lent (borrow : Borrow) (errors : Array Diagnostic) (a : Analysis) : Steady a (lent borrow errors a) :=
  .of_same rfl rfl rfl (Nat.le_refl _)

variable {location : Location} {exclusive : Bool} {place : Check (Expr × PlaceRoot)} {whole : Check Expr}

/-- The place of a borrow among those that are live. -/
theorem beginBorrow_fst (target : BindingId) (name : String) (exclusive : Bool) (extent : Extent) (location : Location)
    (a : Analysis) : (beginBorrow target name exclusive extent location a).1 = a.borrows.size := by
  unfold beginBorrow
  rw [get_bind_run]
  cases a.borrows.find? fun live => live.target == target && (exclusive || live.exclusive) <;> rfl

/-- A borrow of a place: if one begins, it is the last one of those that are live. -/
theorem borrowPlace_begins (hplace : Secludes fence names place) (hwhole : Secludes fence names whole)
    {passing : List Extent} {a : Analysis} (horderly : Orderly passing a) (hinside : Inside fence names a)
    (hscope : fence.extent ≤ a.scope.extent) :
    ∃ part b, Stays fence names passing a b ∧
      (borrowPlace location exclusive extent place whole a = ((part, none), b) ∨
        ∃ target errors, borrowPlace location exclusive extent place whole a =
          ((part, some b.borrows.size), lent { target, exclusive, extent, location } errors b)) := by
  have hfirst := hplace passing a horderly hinside hscope
  rw [borrowPlace, bind_run]
  generalize place a = found at hfirst
  obtain ⟨⟨part, root⟩, b⟩ := found
  cases root with
  | expression => exact ⟨_, _, hwhole.after hfirst hscope, .inl rfl⟩
  | unresolved => exact ⟨_, _, hfirst, .inl rfl⟩
  | resolved identifier id =>
    have hused := (idle_useBinding id identifier.name identifier.location).secludes.after hfirst hscope
    refine ⟨part, _, hused, .inr ⟨id, _, Prod.ext ?_ (beginBorrow_snd id identifier.name location exclusive extent _)⟩⟩
    exact congrArg (fun size => (part, some size)) (beginBorrow_fst id identifier.name exclusive extent location _)

theorem passes_borrowPlace (hplace : Secludes fence names place) (hwhole : Secludes fence names whole) :
    Passes fence names extent (borrowPlace location exclusive extent place whole) := by
  intro passing a hpassing hextent horderly hinside hscope
  obtain ⟨part, b, hstays, hrun | ⟨target, errors, hrun⟩⟩ := @borrowPlace_begins fence names extent location exclusive
    place whole hplace hwhole passing a horderly hinside hscope
  · rw [hrun]
    exact hstays
  · rw [hrun]
    refine hstays.trans (.of_push hstays.orderly hstays.inside (steady_lent ..) rfl ⟨nofun, .inl hpassing⟩ ?_)
    simp [Fence.spares, hextent]

/-- The last borrow is stored in a variable. -/
theorem holdBorrow_lent (borrow : Borrow) (errors : Array Diagnostic) (holder : BindingId) (a : Analysis) :
    (holdBorrow a.borrows.size holder (lent borrow errors a)).2 =
      lent { borrow with holder := some holder } errors a := by
  have hmodify : (a.borrows.push borrow).modify a.borrows.size (fun borrow => { borrow with holder := some holder }) =
      a.borrows.push { borrow with holder := some holder } := by
    refine Array.ext (by simp) fun index hleft hright => ?_
    simp only [Array.getElem_modify, Array.getElem_push]
    grind
  exact congrArg (fun borrows => { a with borrows, errors }) hmodify

theorem declareName_lent (borrow : Borrow) (errors : Array Diagnostic) (name : String) (location : Location)
    (initial : InitState) (a : Analysis) : ∃ complaints, declareName name location initial (lent borrow errors a) =
      ((declareName name location initial a).1, lent borrow complaints (declareName name location initial a).2) := by
  cases hknown : a.scope.names[name]? with
  | some id =>
    rw [declareName_known hknown,
      declareName_known (show (lent borrow errors a).scope.names[name]? = some id from hknown), report_eq, report_eq]
    by_cases hloud : a.silence = 0
    · rw [if_pos (show (lent borrow errors a).silence = 0 from hloud), if_pos hloud]
      exact ⟨_, rfl⟩
    · rw [if_neg (show ¬ (lent borrow errors a).silence = 0 from hloud), if_neg hloud]
      exact ⟨_, rfl⟩
  | none =>
    rw [declareName_new hknown, declareName_new (show (lent borrow errors a).scope.names[name]? = none from hknown)]
    exact ⟨_, rfl⟩

/-- A declaration whose variable holds a borrow. -/
theorem stays_declareHeld {passing : List Extent} {a : Analysis} (horderly : Orderly passing a)
    (hinside : Inside fence names a) (hscope : fence.extent ≤ a.scope.extent) (name : String)
    (location place : Location) (target : BindingId) (exclusive : Bool) (errors : Array Diagnostic) :
    Stays fence names passing a ((declareName name location .initialized >>= holdBorrow a.borrows.size)
      (lent { target, exclusive, extent := a.scope.extent, location := place } errors a)).2 := by
  have hdeclared : Stays fence names passing a (declareName name location .initialized a).2 :=
    secludes_declareName location .initialized passing a horderly hinside hscope
  have hborrows : (declareName name location .initialized a).2.borrows = a.borrows := by
    cases hknown : a.scope.names[name]? with
    | some id =>
      rw [declareName_known hknown]
      exact (idle_report _ _ _ _ a).2
    | none =>
      rw [declareName_new hknown]
      rfl
  have hextent := hdeclared.orderly.lodged _ (List.mem_cons_self ..) name _
    (names_declareName name location .initialized a)
  obtain ⟨complaints, hrun⟩ :=
    declareName_lent { target, exclusive, extent := a.scope.extent, location := place } errors
    name location .initialized a
  rw [bind_run, hrun, ← hborrows]
  rw [hdeclared.secluded.extent] at hextent
  refine hdeclared.trans ?_
  rw [holdBorrow_lent]
  refine .of_push hdeclared.orderly hdeclared.inside (steady_lent ..) rfl ⟨fun holder h => ?_, .inr ?_⟩ ?_
  · cases h
    exact hextent
  · exact ⟨_, List.mem_cons_self .., hdeclared.secluded.extent⟩
  · simp [Fence.spares, hscope]

/-- An assignment whose variable holds a borrow, for as long as the variable lives. -/
theorem stays_assignHeld {passing : List Extent} {a : Analysis} (horderly : Orderly passing a)
    (hinside : Inside fence names a) {id : BindingId} (hid : fence.Writable id) (hextent : a.extentOf id = some extent)
    (hscope : ∃ scope ∈ a.scope :: a.outerScopes, scope.extent = extent) (name : String) (location place : Location)
    (target : BindingId) (exclusive : Bool) (errors : Array Diagnostic) :
    Stays fence names passing a ((assignBinding id name location >>= fun _ => holdBorrow a.borrows.size id)
      (lent { target, exclusive, extent, location := place } errors a)).2 := by
  obtain ⟨hsteady, hborrows⟩ := idle_assignBinding id name location
    (lent { target, exclusive, extent, location := place } errors a)
  have hheld : ((assignBinding id name location >>= fun _ => holdBorrow a.borrows.size id)
      (lent { target, exclusive, extent, location := place } errors a)).2.borrows =
      a.borrows.push { target, holder := some id, exclusive, extent, location := place } :=
    (congrArg
      (fun borrows => borrows.modify a.borrows.size fun borrow => { borrow with holder := some id }) hborrows).trans
      (congrArg borrows (holdBorrow_lent _ errors id a))
  refine .of_push horderly hinside ((steady_lent ..).trans (hsteady.trans (.of_same rfl rfl rfl (Nat.le_refl _)))) hheld
    ⟨fun holder h => ?_, .inr hscope⟩ ?_
  · cases h
    exact hextent
  · exact Bool.eq_false_iff.mpr fun hspares => Fence.spares_holder hspares hid rfl

/-- A variable is assigned a borrow: the one that it held ends. -/
theorem stays_storeBorrow {passing : List Extent} {a : Analysis} (horderly : Orderly passing a)
    (hinside : Inside fence names a) (hfence : fence.extent ≤ a.scope.extent) {id : BindingId} (hid : fence.Writable id)
    (hextent : a.extentOf id = some extent) (hscope : ∃ scope ∈ a.scope :: a.outerScopes, scope.extent = extent)
    (hplace : Secludes fence names place) (hwhole : Secludes fence names whole) (name : String)
    (start location : Location) (exclusive : Bool) (result : Expr → α) :
    Stays fence names passing a ((do
      releaseHeldBy id
      let extent := ((← get).symbols[id]?.map (·.extent)).getD 0
      let (target, borrow) ← borrowPlace location exclusive extent place whole
      assignBinding id name start
      if let some borrow := borrow then holdBorrow borrow id
      return result target : Check α) a).2 := by
  have hreleased := fences_releaseHeldBy hid passing a horderly hinside
  obtain ⟨part, b, hstays, hrun⟩ := @borrowPlace_begins fence names extent location exclusive place whole hplace hwhole
    passing _ hreleased.orderly hreleased.inside hfence
  have hlent : ((releaseHeldBy id a).2.symbols[id]?.map (·.extent)).getD 0 = extent := congrArg (·.getD 0) hextent
  rw [bind_run, get_bind_run, hlent, bind_run]
  rcases hrun with hrun | ⟨target, errors, hrun⟩
  · rw [hrun]
    exact hreleased.trans (hstays.trans ((idle_assignBinding id name start).fences _ _ hstays.orderly hstays.inside))
  · rw [hrun]
    refine hreleased.trans (hstays.trans ?_)
    exact stays_assignHeld hstays.orderly hstays.inside hid (hstays.secluded.lives id extent hextent)
      (hstays.secluded.scope hscope) name start location target exclusive errors

end Borrows

section Parts

mutual

theorem secludes_declarePattern (pattern : Pattern) : Secludes fence names (declarePattern pattern) := by
  cases pattern with
  | bind location name binding => exact (secludes_declareName _ _).bind fun _ => secludes_pure _
  | destructure location fields => exact (secludes_declareFields fields []).bind fun _ => secludes_pure _
  | wildcard location => exact secludes_pure _
  | literal location value => exact secludes_pure _
termination_by structural pattern

theorem secludes_declareFields (fields done : List (String × Pattern)) :
    Secludes fence names (declareFields fields done) := by
  cases fields with
  | nil => exact secludes_pure _
  | cons field rest => exact (secludes_declarePattern field.2).bind fun _ => secludes_declareFields rest _
termination_by structural fields

end

theorem secludes_declareParameters (parameters done : List Pattern) :
    Secludes fence names (declareParameters parameters done) := by
  induction parameters generalizing done with
  | nil => exact secludes_pure _
  | cons pattern rest ih => exact (secludes_declarePattern pattern).bind fun _ => ih _

theorem secludes_loopPass {body : Check (α × Option FlowState)} (hbody : Secludes fence names body)
    (entry : FlowState) :
    Secludes fence names (loopPass body entry) := by
  refine (idle_modify fun _ => by exact ⟨rfl, rfl, rfl, rfl, rfl⟩).secludes.bind fun _ => ?_
  change Secludes fence names (inScope body >>= fun found => get >>= fun a =>
    modify (fun a => { a with loops := a.loops.tail }) >>= fun _ => pure (found.1, found.2, a.loops.headD {}))
  refine (fences_inScope hbody).secludes.bind fun found => secludes_get fun a => ?_
  exact (idle_modify fun _ => by exact ⟨rfl, rfl, rfl, rfl, rfl⟩).secludes.bind fun _ => secludes_pure _

theorem secludes_loopEntry {body : Check (α × Option FlowState)} (hbody : Secludes fence names body) (outer : Nat)
    (before : FlowState) (passes : Nat) (entry : FlowState) :
    Secludes fence names (loopEntry body outer before passes entry) := by
  induction passes generalizing entry with
  | zero => exact secludes_pure _
  | succ passes ih =>
    refine (secludes_loopPass hbody entry).bind fun found => idle_getFlow.secludes.bind fun flow => ?_
    exact (secludes_pure _).ite (ih _)

theorem secludes_analyzeLoop {body : Check (α × Option FlowState)} (hbody : Secludes fence names body) :
    Secludes fence names (analyzeLoop body) := by
  refine idle_getFlow.secludes.bind fun before => secludes_get fun a => ?_
  refine (idle_modify fun _ => by exact ⟨rfl, rfl, rfl, rfl, rfl⟩).secludes.bind fun _ => ?_
  refine (secludes_loopEntry hbody _ _ _ _).bind fun entry => ?_
  refine (idle_modify fun _ => by exact ⟨rfl, rfl, rfl, rfl, rfl⟩).secludes.bind fun _ => ?_
  refine (secludes_loopPass hbody entry).bind fun found => (idle_setFlow _).secludes.bind fun _ => secludes_pure _

theorem fences_functionBody {body : FlowState → Check α} (hbody : ∀ flow, Fences fence names (body flow)) :
    Fences fence names (functionBody body) := by
  refine idle_getFlow.fences.bind fun flow => fences_get fun a => ?_
  refine (idle_modify fun _ => by exact ⟨rfl, rfl, rfl, rfl, rfl⟩).fences.bind fun _ => (hbody flow).bind fun part => ?_
  exact (idle_modify fun _ => by exact ⟨rfl, rfl, rfl, rfl, rfl⟩).fences.bind fun _ => (idle_pure _).fences

theorem fences_declaredBody (id : BindingId) {body : Check α} (hbody : Fences fence names body) :
    Fences fence names (declaredBody id body) := by
  refine fences_get fun a => ?_
  split
  · refine (idle_modify fun _ => by exact ⟨rfl, rfl, rfl, rfl, rfl⟩).fences.bind fun _ => hbody.bind fun part => ?_
    exact (idle_modify fun _ => by exact ⟨rfl, rfl, rfl, rfl, rfl⟩).fences.bind fun _ => (idle_pure _).fences
  · exact hbody

end Parts

/-! Looking at a part stays inside a fence that admits the names which the part writes. -/

mutual

theorem secludes_expr (expr : Expr) (hwrites : expr.writes ⊆ names) : Secludes fence names (checkExpr expr) := by
  cases expr with
  | absent => exact secludes_pure _
  | literal location value => exact secludes_pure _
  | name identifier =>
    refine (idle_resolve identifier).secludes.bind fun found => ?_
    obtain ⟨resolved, target⟩ := found
    cases target with
    | none => exact secludes_pure _
    | some id => exact (idle_useBinding id _ _).secludes.bind fun _ => secludes_pure _
  | unary location op operand => exact (secludes_expr operand hwrites).bind fun _ => secludes_pure _
  | binary location op left right =>
    obtain ⟨hleft, hright⟩ := List.append_subset.mp hwrites
    refine (secludes_expr left hleft).bind fun first => Secludes.ite ?_ ?_
    · refine idle_getFlow.secludes.bind fun flow => (secludes_expr right hright).bind fun _ => ?_
      exact idle_getFlow.secludes.bind fun _ => (idle_setFlow _).secludes.bind fun _ => secludes_pure _
    · exact (secludes_expr right hright).bind fun _ => secludes_pure _
  | call location callee arguments =>
    obtain ⟨hcallee, harguments⟩ := List.append_subset.mp hwrites
    refine (secludes_expr callee hcallee).bind fun callee => ?_
    exact secludes_passing (fun extent => passes_arguments extent arguments [] harguments) fun arguments =>
      Expr.call location callee arguments
  | field location object name => exact (secludes_expr object hwrites).bind fun _ => secludes_pure _
  | index location object index =>
    obtain ⟨hobject, hindex⟩ := List.append_subset.mp hwrites
    exact (secludes_expr object hobject).bind fun _ => (secludes_expr index hindex).bind fun _ => secludes_pure _
  | record location fields => exact (secludes_fields fields [] hwrites).bind fun _ => secludes_pure _
  | array location items => exact (secludes_items items [] hwrites).bind fun _ => secludes_pure _
  | lambda location function => exact (secludes_function function hwrites).bind fun _ => secludes_pure _
  | borrow location target exclusive =>
    exact secludes_passing
      (fun extent => passes_borrowPlace (secludes_place target hwrites) (secludes_expr target hwrites))
      fun found => Expr.borrow location found.1 exclusive
  | move location target =>
    cases target with
    | none => exact secludes_pure _
    | some identifier =>
      refine secludes_resolved (hwrites (List.mem_singleton_self _)) fun resolved target htarget => ?_
      cases target with
      | none => exact secludes_pure _
      | some id => exact (fences_moveBinding location (htarget id rfl)).secludes.bind fun _ => secludes_pure _
  | deref location operand => exact (secludes_expr operand hwrites).bind fun _ => secludes_pure _
termination_by structural expr

theorem secludes_place (expr : Expr) (hwrites : expr.writes ⊆ names) : Secludes fence names (checkPlace expr) := by
  cases expr with
  | name identifier =>
    refine (idle_resolve identifier).secludes.bind fun found => ?_
    obtain ⟨resolved, target⟩ := found
    cases target <;> exact secludes_pure _
  | field location object name => exact (secludes_place object hwrites).bind fun _ => secludes_pure _
  | index location object index =>
    obtain ⟨hobject, hindex⟩ := List.append_subset.mp hwrites
    exact (secludes_expr index hindex).bind fun _ => (secludes_place object hobject).bind fun _ => secludes_pure _
  | _ => exact secludes_pure _
termination_by structural expr

theorem passes_arguments (extent : Extent) (arguments done : List Expr) (hwrites : Expr.allWrites arguments ⊆ names) :
    Passes fence names extent (checkArguments extent arguments done) := by
  cases arguments with
  | nil => exact (secludes_pure _).passes
  | cons argument rest =>
    obtain ⟨hargument, hrest⟩ := List.append_subset.mp hwrites
    cases argument with
    | borrow location target exclusive =>
      refine (passes_borrowPlace (secludes_place target hargument) (secludes_expr target hargument)).bind fun _ => ?_
      exact passes_arguments extent rest _ hrest
    | _ => exact (secludes_expr _ hargument).passes.bind fun _ => passes_arguments extent rest _ hrest
termination_by structural arguments

theorem secludes_items (items done : List Expr) (hwrites : Expr.allWrites items ⊆ names) :
    Secludes fence names (checkItems items done) := by
  cases items with
  | nil => exact secludes_pure _
  | cons item rest =>
    obtain ⟨hitem, hrest⟩ := List.append_subset.mp hwrites
    exact (secludes_expr item hitem).bind fun _ => secludes_items rest _ hrest
termination_by structural items

theorem secludes_fields (fields done : List (String × Expr)) (hwrites : Expr.fieldWrites fields ⊆ names) :
    Secludes fence names (checkFields fields done) := by
  cases fields with
  | nil => exact secludes_pure _
  | cons field rest =>
    obtain ⟨hfield, hrest⟩ := List.append_subset.mp hwrites
    exact (secludes_expr field.2 hfield).bind fun _ => secludes_fields rest _ hrest
termination_by structural fields

theorem secludes_stmt (stmt : Stmt) (hwrites : stmt.writes ⊆ names) : Secludes fence names (checkStmt stmt) := by
  cases stmt with
  | absent => exact secludes_pure _
  | declare location name initial resolution =>
    have hplain : Secludes fence names (do
        let initial ← checkExpr initial
        let id ← declareName name location (if initial.isAbsent then .uninitialized else .initialized)
        return .declare location name initial { binding := some id, isGlobal := ← isGlobal id } : Check Stmt) := by
      refine (secludes_expr initial hwrites).bind fun _ => (secludes_declareName _ _).bind fun id => ?_
      exact (idle_isGlobal id).secludes.bind fun _ => secludes_pure _
    cases initial with
    | borrow place target exclusive =>
      intro passing a horderly hinside hscope
      obtain ⟨part, b, hstays, hrun | ⟨id, errors, hrun⟩⟩ :=
        @borrowPlace_begins fence names a.scope.extent place exclusive
        _ _ (secludes_place target hwrites) (secludes_expr target hwrites) passing a horderly hinside hscope
      · have hrest : Secludes fence names (do
            let id ← declareName name location .initialized
            return .declare location name (.borrow place part exclusive)
              { binding := some id, isGlobal := ← isGlobal id } : Check Stmt) :=
          (secludes_declareName _ _).bind fun id => (idle_isGlobal id).secludes.bind fun _ => secludes_pure _
        rw [checkStmt, get_bind_run, bind_run, hrun]
        exact hrest.after hstays hscope
      · rw [checkStmt, get_bind_run, bind_run, hrun, ← hstays.secluded.extent]
        rw [← hstays.secluded.extent] at hscope
        exact hstays.trans
          (stays_declareHeld hstays.orderly hstays.inside hscope name location place id exclusive errors)
    | _ => exact hplain
  | assign location name value resolution =>
    rw [checkStmt]
    obtain ⟨hname, hvalue⟩ := List.cons_subset.mp hwrites
    intro passing a horderly hinside hscope
    rw [lookup_bind_run]
    cases hfound : a.found name with
    | none =>
      have hrest : Secludes fence names (do
          let value ← checkExpr value
          report .undefinedName s!"assignment to undeclared name '{name}'" location name
          return .assign location name value resolution : Check Stmt) :=
        (secludes_expr value hvalue).bind fun _ => (idle_report _ _ _ _).secludes.bind fun _ => secludes_pure _
      exact hrest passing a horderly hinside hscope
    | some id =>
      have hid := hinside.writes name hname id hfound
      have hplain (isGlobal : Bool) : Secludes fence names (do
          let value ← checkExpr value
          releaseHeldBy id
          assignBinding id name location
          return .assign location name value { binding := some id, isGlobal } : Check Stmt) := by
        refine (secludes_expr value hvalue).bind fun _ => (fences_releaseHeldBy hid).secludes.bind fun _ => ?_
        exact (idle_assignBinding id _ _).secludes.bind fun _ => secludes_pure _
      cases value with
      | borrow place target exclusive =>
        obtain ⟨extent, hextent, hlive⟩ := horderly.found hfound
        exact stays_storeBorrow horderly hinside hscope hid hextent hlive (secludes_place target hvalue)
          (secludes_expr target hvalue) name location place exclusive fun target =>
            Stmt.assign location name (.borrow place target exclusive)
              { binding := some id, isGlobal := (isGlobal id a).1 }
      | _ => exact hplain _ passing a horderly hinside hscope
  | assignField location object field value =>
    obtain ⟨hobject, hvalue⟩ := List.append_subset.mp hwrites
    exact (secludes_expr object hobject).bind fun _ => (secludes_expr value hvalue).bind fun _ => secludes_pure _
  | assignIndex location object index value =>
    obtain ⟨hobject, hrest⟩ := List.append_subset.mp hwrites
    obtain ⟨hindex, hvalue⟩ := List.append_subset.mp hrest
    refine (secludes_expr object hobject).bind fun _ => (secludes_expr index hindex).bind fun _ => ?_
    exact (secludes_expr value hvalue).bind fun _ => secludes_pure _
  | evaluate location expression => exact (secludes_expr expression hwrites).bind fun _ => secludes_pure _
  | print location expression => exact (secludes_expr expression hwrites).bind fun _ => secludes_pure _
  | block location body =>
    change Secludes fence names (inScope (checkStmts body []) >>= fun body => pure (Stmt.block location body))
    exact (fences_inScope (secludes_stmts body [] hwrites)).secludes.bind fun _ => secludes_pure _
  | ifElse location condition yes no =>
    obtain ⟨hcondition, hbranches⟩ := List.append_subset.mp hwrites
    obtain ⟨hyes, hno⟩ := List.append_subset.mp hbranches
    refine (secludes_expr condition hcondition).bind fun _ => idle_getFlow.secludes.bind fun _ => ?_
    refine (secludes_stmt yes hyes).bind fun _ => idle_getFlow.secludes.bind fun _ => ?_
    refine (idle_setFlow _).secludes.bind fun _ => (secludes_stmt no hno).bind fun _ => ?_
    exact idle_getFlow.secludes.bind fun _ => (idle_setFlow _).secludes.bind fun _ => secludes_pure _
  | cond location scrutinee arms =>
    obtain ⟨hscrutinee, harms⟩ := List.append_subset.mp hwrites
    refine (secludes_expr scrutinee hscrutinee).bind fun _ => secludes_get fun a =>
      idle_getFlow.secludes.bind fun flow => ?_
    refine (secludes_arms _ arms _ _ [] harms).bind fun _ => ?_
    exact (idle_setFlow _).secludes.bind fun _ => secludes_pure _
  | whileLoop location condition body =>
    obtain ⟨hcondition, hbody⟩ := List.append_subset.mp hwrites
    refine (secludes_analyzeLoop ?_).bind fun _ => secludes_pure _
    refine (secludes_expr condition hcondition).bind fun _ => idle_getFlow.secludes.bind fun _ => ?_
    exact (secludes_stmt body hbody).bind fun _ => secludes_pure _
  | forLoop location counter binding first bound body =>
    obtain ⟨hfirst, hrest⟩ := List.append_subset.mp hwrites
    obtain ⟨hbound, hbody⟩ := List.append_subset.mp hrest
    refine (secludes_expr first hfirst).bind fun _ => (secludes_expr bound hbound).bind fun _ => ?_
    refine (secludes_analyzeLoop ?_).bind fun _ => secludes_pure _
    refine idle_getFlow.secludes.bind fun exit => ?_
    have hturn : Secludes fence names (do
        let id ← declareName counter location .initialized
        let body ← checkStmt body
        return (id, body)) :=
      (secludes_declareName _ _).bind fun _ => (secludes_stmt body hbody).bind fun _ => secludes_pure _
    exact (fences_inScope hturn).secludes.bind fun found => secludes_pure (found, some exit)
  | forever location body =>
    refine (secludes_analyzeLoop ?_).bind fun _ => secludes_pure _
    exact (secludes_stmt body hwrites).bind fun _ => secludes_pure _
  | leave location => exact idle_leaveLoop.secludes.bind fun _ => secludes_pure _
  | skip location => exact idle_skipLoop.secludes.bind fun _ => secludes_pure _
  | giveBack location value =>
    exact (secludes_expr value hwrites).bind fun _ => idle_endPath.secludes.bind fun _ => secludes_pure _
  | disown location name resolution =>
    refine secludes_written (hwrites (List.mem_singleton_self _)) ?_ fun id hid => ?_
    · exact (idle_report _ _ _ _).secludes.bind fun _ => secludes_pure _
    · refine (idle_isGlobal id).secludes.bind fun _ => ?_
      exact (fences_moveBinding location hid).secludes.bind fun _ => secludes_pure _
  | function location declaration resolution =>
    obtain ⟨name, isProc, clauses⟩ := declaration
    have hbody (id : BindingId) (isGlobal : Bool) : Secludes fence names (do
        let clauses ← declaredBody id (functionBody fun flow => checkClauses flow clauses [])
        return .function location ⟨name, isProc, clauses⟩ { binding := some id, isGlobal } : Check Stmt) :=
      (fences_declaredBody id (fences_functionBody fun flow => fences_clauses flow clauses [] hwrites)).secludes.bind
        fun _ => secludes_pure _
    have hdeclared : Secludes fence names (do
        let id ← declareName name location .initialized
        let isGlobal ← isGlobal id
        let clauses ← declaredBody id (functionBody fun flow => checkClauses flow clauses [])
        return .function location ⟨name, isProc, clauses⟩ { binding := some id, isGlobal } : Check Stmt) :=
      (secludes_declareName _ _).bind fun id => (idle_isGlobal id).secludes.bind fun isGlobal => hbody id isGlobal
    obtain ⟨binding, flag⟩ := resolution
    cases binding with
    | none => exact hdeclared
    | some old =>
      cases flag with
      | true => exact hbody old true
      | false => exact hdeclared
termination_by structural stmt

theorem secludes_stmts (stmts done : List Stmt) (hwrites : Stmt.allWrites stmts ⊆ names) :
    Secludes fence names (checkStmts stmts done) := by
  cases stmts with
  | nil => exact secludes_pure _
  | cons stmt rest =>
    obtain ⟨hstmt, hrest⟩ := List.append_subset.mp hwrites
    exact (secludes_stmt stmt hstmt).bind fun _ => secludes_stmts rest _ hrest
termination_by structural stmts

theorem secludes_arms (outer : Nat) (arms : List Arm) (test after : FlowState) (done : List Arm)
    (hwrites : Arm.allWrites arms ⊆ names) : Secludes fence names (checkArms outer arms test after done) := by
  cases arms with
  | nil => exact secludes_pure _
  | cons arm rest =>
    obtain ⟨location, pattern, guard, body⟩ := arm
    obtain ⟨hguard, hrest⟩ := List.append_subset.mp hwrites
    obtain ⟨hbody, hrest⟩ := List.append_subset.mp hrest
    have hnext (declare : Check (Option Pattern)) (hdeclare : Secludes fence names declare) :
      Secludes fence names (inScope (do
          let pattern ← declare
          let guard ← checkExpr guard
          let flow ← getFlow
          let body ← checkStmts body []
          return (pattern, guard, flow.truncate outer, body)) >>= fun found => getFlow >>= fun flow =>
            checkArms outer rest found.2.2.1 (after.meet (flow.truncate outer))
              (⟨location, found.1, found.2.1, found.2.2.2⟩ :: done)) := by
      have hinside : Secludes fence names (do
          let pattern ← declare
          let guard ← checkExpr guard
          let flow ← getFlow
          let body ← checkStmts body []
          return (pattern, guard, flow.truncate outer, body)) := by
        refine hdeclare.bind fun _ => (secludes_expr guard hguard).bind fun _ => idle_getFlow.secludes.bind fun _ => ?_
        exact (secludes_stmts body [] hbody).bind fun _ => secludes_pure _
      refine (fences_inScope hinside).secludes.bind fun found => idle_getFlow.secludes.bind fun flow => ?_
      exact secludes_arms outer rest _ _ _ hrest
    refine (idle_setFlow _).secludes.bind fun _ => ?_
    cases pattern with
    | none => exact hnext (pure none) (secludes_pure _)
    | some pattern =>
      exact hnext (some <$> declarePattern pattern) ((secludes_declarePattern pattern).bind fun _ => secludes_pure _)
termination_by structural arms

theorem secludes_function (function : Function) (hwrites : function.writes ⊆ names) :
    Secludes fence names (checkFunction function) := by
  obtain ⟨name, isProc, clauses⟩ := function
  exact (fences_functionBody fun flow => fences_clauses flow clauses [] hwrites).secludes.bind fun _ => secludes_pure _
termination_by structural function

theorem fences_clauses (flow : FlowState) (clauses done : List Clause) (hwrites : Clause.allWrites clauses ⊆ names) :
    Fences fence names (checkClauses flow clauses done) := by
  cases clauses with
  | nil => exact (idle_pure _).fences
  | cons clause rest =>
    obtain ⟨location, parameters, body⟩ := clause
    obtain ⟨hbody, hrest⟩ := List.append_subset.mp hwrites
    have hinside : Secludes fence names (do
        let parameters ← declareParameters parameters []
        let body ← checkStmts body []
        return (parameters, body)) :=
      (secludes_declareParameters parameters []).bind fun _ => (secludes_stmts body [] hbody).bind fun _ =>
        secludes_pure _
    have hnext : Fences fence names (inScope (do
        let parameters ← declareParameters parameters []
        let body ← checkStmts body []
        return (parameters, body)) >>= fun found =>
          checkClauses flow rest (⟨location, found.1, found.2⟩ :: done)) :=
      (fences_inScope hinside).bind fun found => fences_clauses flow rest _ hrest
    exact (idle_setFlow _).fences.bind fun _ => hnext
termination_by structural clauses

end

theorem secludes_hoistFunctions (stmts hoisted : List Stmt) : Secludes fence names (hoistFunctions hoisted stmts) := by
  induction stmts generalizing hoisted with
  | nil => exact secludes_pure _
  | cons stmt rest ih =>
    cases stmt with
    | function location declaration resolution =>
      refine (secludes_declareName _ _).bind fun id => ?_
      have hflag : Idle (modify fun a : Analysis =>
          { a with symbols := a.symbols.modify id fun symbol => { symbol with hoisted := true } }) :=
        fun a => ⟨steady_flag a id fun _ => rfl, rfl⟩
      exact hflag.secludes.bind fun _ => ih _
    | _ => exact ih _

/-- Between any two statements of a program every borrow has an end. -/
theorem orderly_between (program : Program) (count : Nat) : Orderly [] (between program count) := by
  have hinside : Inside ⟨0, 0, []⟩ (Stmt.allWrites ((hoistFunctions [] program.statements {}).1.take count)) {} :=
    ⟨Nat.zero_le _, Nat.zero_le _, fun _ _ _ _ => Nat.zero_le _, fun _ _ _ _ => .inr (Nat.zero_le _)⟩
  have hhoisted := secludes_hoistFunctions program.statements [] [] _ orderly_empty hinside (Nat.zero_le _)
  exact (secludes_stmts _ [] (List.Subset.refl _) [] _ hhoisted.orderly hhoisted.inside (Nat.zero_le _)).orderly

/-- Looking at the body of a function leaves the path, the loops and the scopes around it as they were, and the borrows
that are not held by a variable around which the body assigns or gives up. -/
theorem functionBody_isolated {passing : List Extent} {a : Analysis} (horderly : Orderly passing a)
    (clauses : List Clause) :
    let after := (functionBody (fun flow => checkClauses flow clauses []) a).2
    after.flow = a.flow ∧ after.loops = a.loops ∧ after.scope = a.scope ∧ after.outerScopes = a.outerScopes ∧
      after.functionDepth = a.functionDepth ∧ after.silence = a.silence ∧ after.currentFunction = a.currentFunction ∧
      Orderly passing after ∧
      after.borrows.toList.filter (a.unwritten (Clause.allWrites clauses)) =
        a.borrows.toList.filter (a.unwritten (Clause.allWrites clauses)) ∧
      ((∀ name ∈ Clause.allWrites clauses, a.found name = none) → after.borrows = a.borrows) := by
  have hstill := still_functionBody clauses a
  have hkeeps := keeps_checkClauses a.flow clauses [] { a with loops := [], functionDepth := a.functionDepth + 1 }
  have hstays :=
    fences_functionBody (fun flow => fences_clauses flow clauses [] (List.Subset.refl _)) passing a horderly
    (inside_fenceFor a (Clause.allWrites clauses))
  have hborrows := hstays.unwritten horderly
  refine ⟨hstill.flow, hstill.loops, hstill.scope, hstill.outerScopes, congrArg (· - 1) hkeeps.functionDepth,
    hkeeps.silence, hkeeps.currentFunction, hstays.orderly, hborrows, fun hunknown => ?_⟩
  have hall (borrow : Borrow) : a.unwritten (Clause.allWrites clauses) borrow = true := by
    rw [Analysis.unwritten, Option.all_eq_true]
    refine fun holder _ => List.all_eq_true.mpr fun name hname => ?_
    rw [hunknown name hname]
    rfl
  rw [List.filter_eq_self.mpr fun borrow _ => hall borrow,
    List.filter_eq_self.mpr fun borrow _ => hall borrow] at hborrows
  exact Array.toList_inj.mp hborrows

/-- A borrow of a variable that is named. -/
def borrowed (location : Location) (name : String) : Expr :=
  .borrow location (.name { location := ⟨location.line, location.column + 5⟩, name }) true

/-- Two variables, a borrow of the first, and a function. -/
def lending (body : List Stmt) : Program :=
  ⟨[.declare ⟨1, 1⟩ "x" (.literal ⟨1, 9⟩ (.scalar (.int 1))) {},
    .declare ⟨2, 1⟩ "y" (.literal ⟨2, 9⟩ (.scalar (.int 2))) {},
    .declare ⟨3, 1⟩ "r" (borrowed ⟨3, 9⟩ "x") {}, .function ⟨4, 1⟩ ⟨"f", false, [⟨⟨4, 5⟩, [], body⟩]⟩ {}], false, 0⟩

/-- A function that assigns borrows to a variable of its own leaves the borrow around it. -/
theorem functionBody_isolated_ownHolder :
    let a := between (lending []) 3
    let body := [Stmt.declare ⟨4, 10⟩ "s" (borrowed ⟨4, 18⟩ "y") {}, .assign ⟨4, 22⟩ "s" (borrowed ⟨4, 30⟩ "y") {}]
    a.borrows.size = 1 ∧
      (functionBody (fun flow => checkClauses flow [⟨⟨4, 5⟩, [], body⟩] []) a).2.borrows = a.borrows := by
  refine ⟨by decide +kernel, (functionBody_isolated (orderly_between (lending []) 3) _).2.2.2.2.2.2.2.2.2 ?_⟩
  decide +kernel

/-- A function that assigns another borrow to a variable around it ends the borrow that the variable held, and the new
one stays behind. -/
theorem functionBody_relends :
    let a := between (lending []) 3
    let body := [Stmt.assign ⟨4, 10⟩ "r" (borrowed ⟨4, 18⟩ "y") {}]
    (functionBody (fun flow => checkClauses flow [⟨⟨4, 5⟩, [], body⟩] []) a).2.borrows ≠ a.borrows := by
  decide +kernel

end Check

end OwnScript
