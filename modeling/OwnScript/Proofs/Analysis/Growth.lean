import OwnScript.Proofs.Analysis.Walks

/-!
What an analysis keeps. It only ever learns more: declarations stay what they are, summaries and references
that wait for their check grow, and a diagnostic is never taken back. Around a part that is looked at, the
scopes, the function and the loops are afterwards those that were there before; the innermost loop may have
got more ways out.
-/

namespace OwnScript

namespace Analysis

variable {a middle after : Analysis} {id : BindingId}

/-- The declaration of that number is global. -/
def IsGlobal (a : Analysis) (id : BindingId) : Prop :=
  ∃ symbol, a.symbols[id]? = some symbol ∧ symbol.isGlobal = true

/-- The declaration of that number is a global function. -/
def Hoisted (a : Analysis) (id : BindingId) : Prop :=
  ∃ symbol, a.symbols[id]? = some symbol ∧ symbol.hoisted = true

/-- An analysis that has learned more. -/
structure Extends (a after : Analysis) : Prop where
  symbols : ∀ (id : BindingId) (symbol : Symbol), a.symbols[id]? = some symbol →
    ∃ later : Symbol, after.symbols[id]? = some later ∧
    later.isGlobal = symbol.isGlobal ∧ later.hoisted = symbol.hoisted
  hoisted : ∀ id : BindingId, after.Hoisted id → a.Hoisted id
  errors : after.errors = #[] → a.errors = #[]
  reads : ∀ function, ∀ id ∈ (a.summaries.of function).reads, id ∈ (after.summaries.of function).reads
  calls : ∀ function, ∀ id ∈ (a.summaries.of function).calls, id ∈ (after.summaries.of function).calls
  pending : ∀ reference ∈ a.pending, reference ∈ after.pending

theorem Extends.refl (a : Analysis) : a.Extends a where
  symbols _ symbol h := ⟨symbol, h, rfl, rfl⟩
  hoisted _ := id
  errors := id
  reads _ _ := id
  calls _ _ := id
  pending _ := id

theorem Extends.trans (hfirst : a.Extends middle) (hsecond : middle.Extends after) : a.Extends after where
  symbols id symbol h := by
    obtain ⟨later, hlater, hglobal, hhoisted⟩ := hfirst.symbols id symbol h
    obtain ⟨latest, hlatest, hglobal', hhoisted'⟩ := hsecond.symbols id later hlater
    exact ⟨latest, hlatest, hglobal'.trans hglobal, hhoisted'.trans hhoisted⟩
  hoisted id h := hfirst.hoisted id (hsecond.hoisted id h)
  errors h := hfirst.errors (hsecond.errors h)
  reads function id h := hsecond.reads function id (hfirst.reads function id h)
  calls function id h := hsecond.calls function id (hfirst.calls function id h)
  pending reference h := hsecond.pending reference (hfirst.pending reference h)

theorem Extends.isGlobal (hextends : a.Extends after) (hglobal : a.IsGlobal id) : after.IsGlobal id := by
  obtain ⟨symbol, hfound, hflag⟩ := hglobal
  obtain ⟨later, hlater, hsame, -⟩ := hextends.symbols id symbol hfound
  exact ⟨later, hlater, hsame.trans hflag⟩

theorem Extends.size_le (hextends : a.Extends after) : a.symbols.size ≤ after.symbols.size := by
  by_contra hless
  have hin : after.symbols.size < a.symbols.size := Nat.lt_of_not_le hless
  obtain ⟨later, hlater, -⟩ := hextends.symbols _ _ (Array.getElem?_eq_getElem hin)
  simp at hlater

/-- Nothing that matters later has changed. -/
theorem Extends.of_same (hsymbols : after.symbols = a.symbols) (herrors : after.errors = #[] → a.errors = #[])
    (hsummaries : after.summaries = a.summaries) (hpending : after.pending = a.pending) : a.Extends after where
  symbols _ symbol h := ⟨symbol, hsymbols ▸ h, rfl, rfl⟩
  hoisted _ h := by
    unfold Hoisted at h ⊢
    rwa [hsymbols] at h
  errors := herrors
  reads _ _ h := hsummaries ▸ h
  calls _ _ h := hsummaries ▸ h
  pending _ h := hpending ▸ h

/-- Two states with the same knowledge. -/
structure SameFacts (a after : Analysis) : Prop where
  symbols : after.symbols = a.symbols
  errors : after.errors = a.errors
  summaries : after.summaries = a.summaries
  pending : after.pending = a.pending

theorem SameFacts.extends (hsame : a.SameFacts after) : a.Extends after :=
  .of_same hsame.symbols (fun h => hsame.errors ▸ h) hsame.summaries hsame.pending

theorem Extends.around (hextends : middle.Extends after) {first last : Analysis} (hfirst : first.SameFacts middle)
    (hlast : after.SameFacts last) : first.Extends last :=
  hfirst.extends.trans (hextends.trans hlast.extends)

/-- Names lead to declarations that are there, functions are said to read global variables only, and globals
are declared outside of all functions. -/
structure Regular (a : Analysis) : Prop where
  names : ∀ scope ∈ a.scope :: a.outerScopes, ∀ (name : String) id, scope.names[name]? = some id → id < a.symbols.size
  reads : ∀ function, ∀ id ∈ (a.summaries.of function).reads, a.IsGlobal id
  depths : ∀ (id : BindingId) (symbol : Symbol), a.symbols[id]? = some symbol → symbol.isGlobal = true →
    symbol.functionDepth = 0

/-- In the global scope there is no function around. -/
def Rooted (a : Analysis) : Prop :=
  a.outerScopes = [] → a.functionDepth = 0

theorem Regular.of_same (hregular : a.Regular) (hsymbols : after.symbols = a.symbols)
    (hscopes : ∀ scope ∈ after.scope :: after.outerScopes, scope ∈ a.scope :: a.outerScopes)
    (hsummaries : after.summaries = a.summaries) : after.Regular where
  names scope hscope name id h := by
    rw [hsymbols]
    exact hregular.names scope (hscopes scope hscope) name id h
  reads function id h := by
    rw [hsummaries] at h
    have hglobal := hregular.reads function id h
    unfold IsGlobal at hglobal ⊢
    rwa [hsymbols]
  depths id symbol h := hregular.depths id symbol (hsymbols ▸ h)

/-- The names of a scope with others around it lead to declarations that are not global. -/
def Tiered (a : Analysis) : Prop :=
  ∀ scope ∈ (a.scope :: a.outerScopes).dropLast, ∀ (name : String) id, scope.names[name]? = some id →
    ∃ symbol, a.symbols[id]? = some symbol ∧ symbol.isGlobal = false

/-- Only scopes with others around them matter. -/
theorem tiered_iff : a.Tiered ↔ a.outerScopes ≠ [] → ∀ scope ∈ a.scope :: a.outerScopes.dropLast, ∀ (name : String) id,
    scope.names[name]? = some id → ∃ symbol, a.symbols[id]? = some symbol ∧ symbol.isGlobal = false := by
  unfold Tiered
  by_cases houter : a.outerScopes = []
  · simp [houter]
  · rw [List.dropLast_cons_of_ne_nil houter]
    exact ⟨fun h _ => h, fun h => h houter⟩

theorem Tiered.carry (htiered : a.Tiered)
    (hsymbols : ∀ (id : BindingId) (symbol : Symbol), a.symbols[id]? = some symbol →
      ∃ later, after.symbols[id]? = some later ∧ later.isGlobal = symbol.isGlobal)
    (hscopes : ∀ scope ∈ (after.scope :: after.outerScopes).dropLast, scope ∈ (a.scope :: a.outerScopes).dropLast) :
    after.Tiered := by
  intro scope hscope name id h
  obtain ⟨symbol, hfound, hlocal⟩ := htiered scope (hscopes scope hscope) name id h
  obtain ⟨later, hlater, hsame⟩ := hsymbols id symbol hfound
  exact ⟨later, hlater, hsame.trans hlocal⟩

theorem Tiered.of_same (htiered : a.Tiered) (hsymbols : after.symbols = a.symbols)
    (hscopes : ∀ scope ∈ (after.scope :: after.outerScopes).dropLast, scope ∈ (a.scope :: a.outerScopes).dropLast) :
    after.Tiered :=
  htiered.carry (fun _ symbol h => ⟨symbol, hsymbols ▸ h, rfl⟩) hscopes

/-- The loops around a part, before and after it: the innermost one may have got more ways out. -/
def PathsGrow : List LoopPaths → List LoopPaths → Prop
  | [], after => after = []
  | loop :: rest, after => ∃ grown, after = grown :: rest ∧ ∀ flow ∈ loop.leaving, flow ∈ grown.leaving

theorem PathsGrow.refl (loops : List LoopPaths) : PathsGrow loops loops := by
  cases loops with
  | nil => rfl
  | cons loop rest => exact ⟨loop, rfl, fun _ => id⟩

theorem PathsGrow.trans {first second third : List LoopPaths} (hfirst : PathsGrow first second)
    (hsecond : PathsGrow second third) : PathsGrow first third := by
  cases first with
  | nil =>
    cases hfirst
    exact hsecond
  | cons loop rest =>
    obtain ⟨grown, rfl, hgrown⟩ := hfirst
    obtain ⟨latest, rfl, hlatest⟩ := hsecond
    exact ⟨latest, rfl, fun flow h => hlatest flow (hgrown flow h)⟩

/-- An analysis after it has looked at a part. -/
structure Keeps (a after : Analysis) : Prop extends Extends a after where
  outerScopes : after.outerScopes = a.outerScopes
  currentFunction : after.currentFunction = a.currentFunction
  functionDepth : after.functionDepth = a.functionDepth
  silence : after.silence = a.silence
  loops : PathsGrow a.loops after.loops
  regular : a.Rooted → a.Regular → after.Regular
  tiered : a.Tiered → after.Tiered

theorem Keeps.rooted (hkeeps : a.Keeps after) (hrooted : a.Rooted) : after.Rooted := by
  unfold Rooted
  rw [hkeeps.outerScopes, hkeeps.functionDepth]
  exact hrooted

theorem Keeps.trans (hfirst : a.Keeps middle) (hsecond : middle.Keeps after) : a.Keeps after where
  toExtends := hfirst.toExtends.trans hsecond.toExtends
  outerScopes := hsecond.outerScopes.trans hfirst.outerScopes
  currentFunction := hsecond.currentFunction.trans hfirst.currentFunction
  functionDepth := hsecond.functionDepth.trans hfirst.functionDepth
  silence := hsecond.silence.trans hfirst.silence
  loops := hfirst.loops.trans hsecond.loops
  regular hrooted h := hsecond.regular (hfirst.rooted hrooted) (hfirst.regular hrooted h)
  tiered h := hsecond.tiered (hfirst.tiered h)

/-- Nothing but the path, the borrows and the diagnostics has changed. -/
theorem Keeps.of_same (hsymbols : after.symbols = a.symbols) (hscope : after.scope = a.scope)
    (houter : after.outerScopes = a.outerScopes) (hloops : PathsGrow a.loops after.loops)
    (herrors : after.errors = #[] → a.errors = #[]) (hsummaries : after.summaries = a.summaries)
    (hpending : after.pending = a.pending) (hfunction : after.currentFunction = a.currentFunction)
    (hdepth : after.functionDepth = a.functionDepth) (hsilence : after.silence = a.silence) : a.Keeps after where
  toExtends := .of_same hsymbols herrors hsummaries hpending
  outerScopes := houter
  currentFunction := hfunction
  functionDepth := hdepth
  silence := hsilence
  loops := hloops
  regular _ h := h.of_same hsymbols (fun scope hmem => by rwa [hscope, houter] at hmem) hsummaries
  tiered h := h.of_same hsymbols fun scope hmem => by rwa [hscope, houter] at hmem

end Analysis

namespace Check

open Analysis

variable {α β : Type}

/-- A step that looks at a part. -/
def Keeps (step : Check α) : Prop :=
  ∀ a, Analysis.Keeps a (step a).2

theorem keeps_pure (value : α) : Keeps (pure value) :=
  fun _ => .of_same rfl rfl rfl (.refl _) id rfl rfl rfl rfl rfl

theorem Keeps.bind {step : Check α} {next : α → Check β} (hstep : Keeps step) (hnext : ∀ value, Keeps (next value)) :
    Keeps (step >>= next) :=
  fun a => (hstep a).trans (hnext _ _)

/-- A look at the state. -/
theorem keeps_get {next : Analysis → Check β} (hnext : ∀ a, Keeps (next a)) : Keeps (get >>= next) :=
  fun a => hnext a a

theorem keeps_getFlow {next : FlowState → Check β} (hnext : ∀ flow, Keeps (next flow)) : Keeps (getFlow >>= next) :=
  fun a => hnext a.flow a

theorem keeps_report (kind : ErrorKind) (message : String) (location : Location) (name : String) :
    Keeps (report kind message location name) := by
  intro a
  change Analysis.Keeps a (if a.silence = 0 then _ else a)
  split
  · exact .of_same rfl rfl rfl (.refl _) (fun h => by simp at h) rfl rfl rfl rfl rfl
  · exact .of_same rfl rfl rfl (.refl _) id rfl rfl rfl rfl rfl

/-- While diagnostics are reported, a report shows in what is found in the end. -/
theorem errors_report {a final : Analysis} (hloud : a.silence = 0) (hfinal : final.errors = #[]) {kind : ErrorKind}
    {message : String} {location : Location} {name : String}
    (hextends : (report kind message location name a).2.Extends final) : False := by
  have hnone := hextends.errors hfinal
  change (if a.silence = 0 then _ else a).errors = #[] at hnone
  rw [if_pos hloud] at hnone
  simp at hnone

theorem keeps_newExtent : Keeps newExtent :=
  fun _ => .of_same rfl rfl rfl (.refl _) id rfl rfl rfl rfl rfl

theorem keeps_releaseExtent (extent : Extent) : Keeps (releaseExtent extent) :=
  fun _ => .of_same rfl rfl rfl (.refl _) id rfl rfl rfl rfl rfl

theorem keeps_releaseHeldBy (holder : BindingId) : Keeps (releaseHeldBy holder) :=
  fun _ => .of_same rfl rfl rfl (.refl _) id rfl rfl rfl rfl rfl

theorem keeps_setState (id : BindingId) (state : InitState) : Keeps (setState id state) :=
  fun _ => .of_same rfl rfl rfl (.refl _) (fun h => h) rfl rfl rfl rfl rfl

theorem keeps_setFlow (flow : FlowState) : Keeps (setFlow flow) :=
  fun _ => .of_same rfl rfl rfl (.refl _) id rfl rfl rfl rfl rfl

theorem keeps_endPath : Keeps endPath :=
  fun _ => .of_same rfl rfl rfl (.refl _) id rfl rfl rfl rfl rfl

theorem keeps_holdBorrow (place : Nat) (holder : BindingId) : Keeps (holdBorrow place holder) :=
  fun _ => .of_same rfl rfl rfl (.refl _) id rfl rfl rfl rfl rfl

theorem keeps_lookup (name : String) : Keeps (lookup name) :=
  fun _ => .of_same rfl rfl rfl (.refl _) id rfl rfl rfl rfl rfl

theorem keeps_isGlobal (id : BindingId) : Keeps (isGlobal id) :=
  fun _ => .of_same rfl rfl rfl (.refl _) (fun h => h) rfl rfl rfl rfl rfl

theorem keeps_isBorrowed (id : BindingId) : Keeps (isBorrowed id) :=
  fun _ => .of_same rfl rfl rfl (.refl _) (fun h => h) rfl rfl rfl rfl rfl

theorem keeps_useBinding (id : BindingId) (name : String) (location : Location) :
    Keeps (useBinding id name location) := by
  refine keeps_getFlow fun flow => ?_
  split
  · split
    · exact keeps_pure _
    · exact (keeps_report _ _ _ _).bind fun _ => keeps_setState _ _
    · exact (keeps_report _ _ _ _).bind fun _ => keeps_setState _ _
  · exact keeps_pure _

theorem keeps_assignBinding (id : BindingId) (name : String) (location : Location) :
    Keeps (assignBinding id name location) := by
  refine (keeps_isBorrowed id).bind fun borrowed => ?_
  split
  · exact (keeps_report _ _ _ _).bind fun _ => keeps_setState _ _
  · exact keeps_setState _ _

/-- A declaration is added to the innermost scope, and is global in the outermost one only. -/
theorem tiered_declare {a : Analysis} (symbol : Symbol) (hglobal : symbol.isGlobal = true → a.outerScopes = [])
    (name : String) (flow : FlowState) (htiered : a.Tiered) : Analysis.Tiered { a with
      symbols := a.symbols.push symbol
      scope := { a.scope with names := a.scope.names.insert name a.symbols.size }
      flow } := by
  rw [tiered_iff] at htiered ⊢
  intro houter scope hscope other id h
  have hold {scope : Scope} (hscope : scope ∈ a.scope :: a.outerScopes.dropLast) (h : scope.names[other]? = some id) :
      ∃ found, (a.symbols.push symbol)[id]? = some found ∧ found.isGlobal = false := by
    obtain ⟨found, hfound, hlocal⟩ := htiered houter scope hscope other id h
    refine ⟨found, ?_, hlocal⟩
    rw [Array.getElem?_push, if_neg, hfound]
    rintro rfl
    simp at hfound
  rcases List.mem_cons.mp hscope with rfl | hscope
  · simp only [Std.TreeMap.getElem?_insert] at h
    split at h
    · cases h
      exact ⟨symbol, Array.getElem?_push_size, Bool.eq_false_iff.mpr (mt hglobal houter)⟩
    · exact hold (List.mem_cons_self ..) h
  · exact hold (List.mem_cons_of_mem _ hscope) h

/-- A declaration is added to the innermost scope. -/
theorem keeps_declare {a : Analysis} (symbol : Symbol) (hplain : symbol.hoisted = false)
    (hglobal : symbol.isGlobal = true → a.outerScopes = []) (hdepth : symbol.functionDepth = a.functionDepth)
    (name : String) (flow : FlowState) :
    Analysis.Keeps a { a with
      symbols := a.symbols.push symbol
      scope := { a.scope with names := a.scope.names.insert name a.symbols.size }
      flow } := by
  have hold (id : BindingId) (found : Symbol) (h : a.symbols[id]? = some found) :
      (a.symbols.push symbol)[id]? = some found := by
    rw [Array.getElem?_push, if_neg, h]
    rintro rfl
    simp at h
  refine ⟨⟨fun id found h => ⟨found, hold id found h, rfl, rfl⟩, fun id h => ?_, id, fun _ _ => id, fun _ _ => id,
    fun _ => id⟩, rfl, rfl, rfl, rfl, .refl _, fun hrooted hregular =>
      ⟨fun scope hscope other id h => ?_, fun function id h => ?_, fun id found hfound hflag => ?_⟩,
      tiered_declare symbol hglobal name flow⟩
  · obtain ⟨found, hfound, hhoisted⟩ := h
    simp only [Array.getElem?_push] at hfound
    split at hfound
    · cases hfound
      rw [hplain] at hhoisted
      cases hhoisted
    · exact ⟨found, hfound, hhoisted⟩
  · simp only [Array.size_push]
    rcases List.mem_cons.mp hscope with rfl | houter
    · simp only [Std.TreeMap.getElem?_insert] at h
      split at h
      · cases h
        exact Nat.lt_succ_self _
      · exact (hregular.names _ (List.mem_cons_self ..) other id h).trans (Nat.lt_succ_self _)
    · exact (hregular.names _ (List.mem_cons_of_mem _ houter) other id h).trans (Nat.lt_succ_self _)
  · obtain ⟨found, hfound, hglobal⟩ := hregular.reads function id h
    exact ⟨found, hold id found hfound, hglobal⟩
  · simp only [Array.getElem?_push] at hfound
    split at hfound
    · cases hfound
      exact hdepth.trans (hrooted (hglobal hflag))
    · exact hregular.depths id found hfound hflag

theorem keeps_declareName (name : String) (location : Location) (initial : InitState) :
    Keeps (declareName name location initial) := by
  intro a
  cases hknown : a.scope.names[name]? with
  | some id =>
    rw [declareName_known hknown]
    exact keeps_report _ _ _ _ a
  | none =>
    rw [declareName_new hknown]
    exact keeps_declare _ rfl (fun h => List.isEmpty_iff.mp h) rfl name _

theorem keeps_moveBinding (id : BindingId) (name : String) (location : Location) :
    Keeps (moveBinding id name location) := by
  have hrest : Keeps (do
      if ← isBorrowed id then
        report .conflictingBorrow s!"cannot move '{name}' while it is borrowed" location name
      releaseHeldBy id
      setState id .moved) := by
    refine (keeps_isBorrowed id).bind fun borrowed => ?_
    split
    · exact (keeps_report _ _ _ _).bind fun _ => (keeps_releaseHeldBy id).bind fun _ => keeps_setState _ _
    · exact (keeps_releaseHeldBy id).bind fun _ => keeps_setState _ _
  refine (keeps_useBinding id name location).bind fun _ => keeps_get fun a => ?_
  split
  · split
    · exact (keeps_report _ _ _ _).bind fun _ => hrest
    · split
      · exact (keeps_report _ _ _ _).bind fun _ => hrest
      · exact hrest
  · exact hrest

theorem keeps_beginBorrow (target : BindingId) (name : String) (exclusive : Bool) (extent : Extent)
    (location : Location) : Keeps (beginBorrow target name exclusive extent location) := by
  have hpush (borrow : Borrow) (place : Nat) : Keeps (do
      modify fun a => { a with borrows := a.borrows.push borrow }
      return place) :=
    fun _ => .of_same rfl rfl rfl (.refl _) id rfl rfl rfl rfl rfl
  refine keeps_get fun a => ?_
  split
  · exact (keeps_report _ _ _ _).bind fun _ => hpush _ _
  · exact (keeps_pure _).bind fun _ => hpush _ _

/-- A variable is marked as captured, and nothing else about it changes. -/
theorem keeps_capture (a : Analysis) (id : BindingId) :
    Analysis.Keeps a { a with symbols := a.symbols.modify id fun symbol => { symbol with captured := true } } := by
  have hold (other : BindingId) (found : Symbol) (h : a.symbols[other]? = some found) :
      ∃ later, (a.symbols.modify id fun symbol => { symbol with captured := true })[other]? = some later ∧
        later.isGlobal = found.isGlobal ∧ later.hoisted = found.hoisted := by
    rw [Array.getElem?_modify]
    split
    · exact ⟨{ found with captured := true }, by simp [h], rfl, rfl⟩
    · exact ⟨found, h, rfl, rfl⟩
  refine ⟨⟨hold, fun other h => ?_, fun h => h, fun _ _ h => h, fun _ _ h => h, fun _ h => h⟩, rfl, rfl, rfl, rfl,
    .refl _, fun _ hregular =>
      ⟨fun scope hscope name other h => ?_, fun function other h => ?_, fun other found h hflag => ?_⟩,
    fun htiered => htiered.carry (fun other found h => ?_) fun _ h => h⟩
  · obtain ⟨found, hfound, hhoisted⟩ := h
    simp only [Array.getElem?_modify] at hfound
    split at hfound
    · obtain ⟨old, hold, rfl⟩ := Option.map_eq_some_iff.mp hfound
      exact ⟨old, hold, hhoisted⟩
    · exact ⟨found, hfound, hhoisted⟩
  · simpa using hregular.names scope hscope name other h
  · obtain ⟨found, hfound, hglobal⟩ := hregular.reads function other h
    obtain ⟨later, hlater, hsame, -⟩ := hold other found hfound
    exact ⟨later, hlater, hsame.trans hglobal⟩
  · simp only [Array.getElem?_modify] at h
    split at h
    · obtain ⟨old, hold, rfl⟩ := Option.map_eq_some_iff.mp h
      exact hregular.depths other old hold hflag
    · exact hregular.depths other found h hflag
  · obtain ⟨later, hlater, hsame, -⟩ := hold other found h
    exact ⟨later, hlater, hsame⟩

/-- The summary of a function grows by global variables. -/
theorem keeps_summary {a : Analysis} (function : BindingId) {summary : FunctionSummary}
    (hreads : ∀ id ∈ (a.summaries.of function).reads, id ∈ summary.reads)
    (hcalls : ∀ id ∈ (a.summaries.of function).calls, id ∈ summary.calls)
    (hglobal : ∀ id ∈ summary.reads, id ∈ (a.summaries.of function).reads ∨ a.IsGlobal id) :
    Analysis.Keeps a { a with summaries := a.summaries.insert function summary } := by
  have hof (other : BindingId) : Summaries.of (a.summaries.insert function summary) other =
      if other = function then summary else a.summaries.of other := by
    unfold Summaries.of
    rw [Std.TreeMap.getElem?_insert]
    by_cases hsame : function = other
    · simp [hsame]
    · simp [hsame, Ne.symm hsame]
  refine ⟨⟨fun id symbol h => ⟨symbol, h, rfl, rfl⟩, fun id h => h, fun h => h, fun other id h => ?_,
    fun other id h => ?_, fun _ h => h⟩, rfl, rfl, rfl, rfl, .refl _,
    fun _ hregular => ⟨hregular.names, fun other id h => ?_, hregular.depths⟩,
    fun h => h⟩
  · rw [hof]
    split
    · rename_i hsame
      exact hreads id (hsame ▸ h)
    · exact h
  · rw [hof]
    split
    · rename_i hsame
      exact hcalls id (hsame ▸ h)
    · exact h
  · rw [hof] at h
    split at h
    · exact (hglobal id h).elim (hregular.reads function id) fun h => h
    · exact hregular.reads other id h

/-- What a reference to a global is noted as: a hoisted function is called, another variable is read. -/
def noted (symbol : Symbol) (id : BindingId) (summary : FunctionSummary) : FunctionSummary :=
  if symbol.hoisted then { summary with calls := id :: summary.calls }
  else { summary with reads := id :: summary.reads }

/-- The state with a variable marked as captured if a function inside refers to it. -/
def marked (a : Analysis) (symbol : Symbol) (id : BindingId) : Analysis :=
  if symbol.functionDepth < a.functionDepth then
    { a with symbols := a.symbols.modify id fun symbol => { symbol with captured := true } }
  else a

theorem keeps_marked (a : Analysis) (symbol : Symbol) (id : BindingId) : Analysis.Keeps a (marked a symbol id) := by
  unfold marked
  split
  · exact keeps_capture a id
  · exact keeps_pure () a

theorem modify_snd (f : Analysis → Analysis) (a : Analysis) : ((modify f : Check Unit) a).2 = f a := rfl

theorem noteReference_eq {a : Analysis} {id : BindingId} {symbol : Symbol} (hfound : a.symbols[id]? = some symbol)
    (location : Location) :
    (noteReference id location a).2 =
      if symbol.isGlobal = false then marked a symbol id
      else
        match a.currentFunction with
        | some function => { marked a symbol id with
            summaries := a.summaries.insert function (noted symbol id (a.summaries.of function)) }
        | none =>
          if symbol.hoisted = true ∧ a.silence = 0 ∧ a.flow.reachable = true then
            { marked a symbol id with pending := a.pending.push { function := id, flow := a.flow, location } }
          else marked a symbol id := by
  obtain ⟨mode, hmode⟩ : ∃ mode, a.currentFunction = mode := ⟨_, rfl⟩
  cases hglobal : symbol.isGlobal <;> cases mode <;> by_cases hdepth : symbol.functionDepth < a.functionDepth <;>
    simp [noteReference, modify_snd, hfound, marked, hdepth, hglobal, hmode, noted, and_assoc]

theorem keeps_noteReference (id : BindingId) (location : Location) : Keeps (noteReference id location) := by
  intro a
  cases hfound : a.symbols[id]? with
  | none =>
    have hsame : (noteReference id location a).2 = a := by simp [noteReference, modify_snd, hfound]
    rw [hsame]
    exact keeps_pure () a
  | some symbol =>
    have hmarked := keeps_marked a symbol id
    have hfields : (marked a symbol id).summaries = a.summaries ∧ (marked a symbol id).pending = a.pending := by
      unfold marked
      split <;> exact ⟨rfl, rfl⟩
    rw [noteReference_eq hfound]
    split
    · exact hmarked
    · rename_i hglobal
      split
      · rename_i function _
        rw [← hfields.1]
        refine hmarked.trans (keeps_summary function (fun other h => ?_) (fun other h => ?_) fun other h => ?_)
        · unfold noted
          split
          · exact h
          · exact List.mem_cons_of_mem _ h
        · unfold noted
          split
          · exact List.mem_cons_of_mem _ h
          · exact h
        · unfold noted at h
          split at h
          · exact .inl h
          · rcases List.mem_cons.mp h with rfl | h
            · exact .inr (hmarked.isGlobal ⟨symbol, hfound, by simpa using hglobal⟩)
            · exact .inl h
      · split
        · rw [← hfields.2]
          refine hmarked.trans ⟨⟨fun _ symbol h => ⟨symbol, h, rfl, rfl⟩, fun _ h => h, fun h => h, fun _ _ h => h,
            fun _ _ h => h, fun _ h => ?_⟩, rfl, rfl, rfl, rfl, .refl _, fun _ h => ⟨h.names, h.reads, h.depths⟩,
              fun h => h⟩
          exact Array.mem_push.mpr (.inl h)
        · exact hmarked

theorem keeps_resolve (identifier : Identifier) : Keeps (resolve identifier) := by
  refine (keeps_lookup _).bind fun target => ?_
  cases target with
  | none => exact (keeps_report _ _ _ _).bind fun _ => keeps_pure _
  | some id => exact (keeps_isGlobal id).bind fun _ => (keeps_noteReference id _).bind fun _ => keeps_pure _

theorem keeps_declareVariable (location : Location) (name : String) : Keeps (declareVariable location name) :=
  (keeps_declareName name location _).bind fun _ => keeps_pure _

mutual

theorem keeps_declarePattern (pattern : Pattern) : Keeps (declarePattern pattern) := by
  cases pattern with
  | bind location name binding => exact keeps_declareVariable location name
  | destructure location fields => exact (keeps_declareFields fields []).bind fun _ => keeps_pure _
  | wildcard location => exact keeps_pure _
  | literal location value => exact keeps_pure _
termination_by structural pattern

theorem keeps_declareFields (fields done : List (String × Pattern)) : Keeps (declareFields fields done) := by
  cases fields with
  | nil => exact keeps_pure _
  | cons field rest => exact (keeps_declarePattern field.2).bind fun _ => keeps_declareFields rest _
termination_by structural fields

end

theorem keeps_declareParameters (parameters done : List Pattern) : Keeps (declareParameters parameters done) := by
  induction parameters generalizing done with
  | nil => exact keeps_pure _
  | cons pattern rest ih => exact (keeps_declarePattern pattern).bind fun _ => ih _

theorem leaveLoop_snd (a : Analysis) : (leaveLoop a).2 = { a with
    loops := a.loops.modifyHead fun loop => { loop with leaving := loop.leaving.push a.flow }
    flow.reachable := false } := by
  obtain ⟨_, _, _, _, _, loops, _⟩ := a
  cases loops <;> rfl

theorem skipLoop_snd (a : Analysis) : (skipLoop a).2 = { a with
    loops := a.loops.modifyHead fun loop => { loop with skipping := loop.skipping.push a.flow }
    flow.reachable := false } := by
  obtain ⟨_, _, _, _, _, loops, _⟩ := a
  cases loops <;> rfl

theorem pathsGrow_modifyHead (loops : List LoopPaths) {change : LoopPaths → LoopPaths}
    (hchange : ∀ loop, ∀ flow ∈ loop.leaving, flow ∈ (change loop).leaving) :
    PathsGrow loops (loops.modifyHead change) := by
  cases loops with
  | nil => rfl
  | cons loop rest => exact ⟨change loop, rfl, hchange loop⟩

theorem keeps_leaveLoop : Keeps leaveLoop := by
  intro a
  rw [leaveLoop_snd]
  refine .of_same rfl rfl rfl (pathsGrow_modifyHead _ fun _ _ h => ?_) (fun h => h) rfl rfl rfl rfl rfl
  exact Array.mem_push.mpr (.inl h)

theorem keeps_skipLoop : Keeps skipLoop := by
  intro a
  rw [skipLoop_snd]
  exact .of_same rfl rfl rfl (pathsGrow_modifyHead _ fun _ _ h => h) (fun h => h) rfl rfl rfl rfl rfl

theorem enterScope_snd (a : Analysis) : (enterScope a).2 = { a with
    nextExtent := a.nextExtent + 1
    scope := { extent := a.nextExtent }
    outerScopes := a.scope :: a.outerScopes } := rfl

theorem exitScope_snd (a : Analysis) : (exitScope a).2 = { a with
    borrows := a.borrows.filter (·.extent != a.scope.extent)
    scope := a.outerScopes.headD a.scope
    outerScopes := a.outerScopes.tail } := by
  obtain ⟨_, _, outer, _⟩ := a
  cases outer <;> rfl

end Check

namespace Analysis

open Check

variable {a inner : Analysis}

theorem Regular.enterScope (hregular : a.Regular) : (Check.enterScope a).2.Regular := by
  refine ⟨fun scope hscope name id h => ?_, hregular.reads, hregular.depths⟩
  rw [enterScope_snd] at hscope
  rcases List.mem_cons.mp hscope with rfl | hscope
  · simp at h
  · exact hregular.names scope hscope name id h

theorem Tiered.enterScope (htiered : a.Tiered) : (Check.enterScope a).2.Tiered := by
  intro scope hscope name id h
  rw [enterScope_snd, List.dropLast_cons_cons] at hscope
  rcases List.mem_cons.mp hscope with rfl | hscope
  · simp at h
  · exact htiered scope hscope name id h

/-- A scope has others around it. -/
theorem rooted_enterScope (a : Analysis) : (Check.enterScope a).2.Rooted := by
  intro h
  rw [enterScope_snd] at h
  cases h

theorem Keeps.regular_ofScope (hinner : (enterScope a).2.Keeps inner) (hregular : a.Regular) :
    (exitScope inner).2.Regular := by
  have houter : inner.outerScopes = a.scope :: a.outerScopes := hinner.outerScopes
  rw [exitScope_snd, houter]
  refine (hinner.regular (rooted_enterScope a) hregular.enterScope).of_same rfl (fun scope hscope => ?_) rfl
  rw [houter]
  exact List.mem_cons_of_mem _ hscope

/-- A part in a scope of its own. -/
theorem Keeps.ofScope (hinner : (enterScope a).2.Keeps inner) : a.Keeps (exitScope inner).2 := by
  have houter : inner.outerScopes = a.scope :: a.outerScopes := hinner.outerScopes
  have hregular := hinner.regular_ofScope
  rw [exitScope_snd, houter] at hregular ⊢
  refine ⟨hinner.toExtends.around ⟨rfl, rfl, rfl, rfl⟩ ⟨rfl, rfl, rfl, rfl⟩, rfl, hinner.currentFunction,
    hinner.functionDepth, hinner.silence, hinner.loops, fun _ => hregular, fun htiered => ?_⟩
  refine (hinner.tiered htiered.enterScope).of_same rfl fun scope hscope => ?_
  rw [houter, List.dropLast_cons_cons]
  exact List.mem_cons_of_mem _ hscope

/-- The body of a function: the path and the loops around it stay as they were. -/
theorem Keeps.ofFunction {depth : Nat}
    (hinner : Analysis.Keeps { a with loops := [], functionDepth := depth + 1 } inner)
    (hregular : Regular { a with loops := [], functionDepth := depth + 1 } → inner.Regular)
    (hdepth : a.functionDepth = depth) (flow : FlowState) :
    a.Keeps { inner with flow, loops := a.loops, functionDepth := inner.functionDepth - 1 } where
  toExtends := hinner.toExtends.around ⟨rfl, rfl, rfl, rfl⟩ ⟨rfl, rfl, rfl, rfl⟩
  outerScopes := hinner.outerScopes
  currentFunction := hinner.currentFunction
  functionDepth := by
    have hinside : inner.functionDepth = depth + 1 := hinner.functionDepth
    simp only [hinside, hdepth, Nat.add_sub_cancel]
  silence := hinner.silence
  loops := .refl _
  regular _ h := (hregular (h.of_same rfl (fun _ => id) rfl)).of_same rfl (fun _ => id) rfl
  tiered := hinner.tiered

/-- One look at the body of a loop. -/
theorem Keeps.ofLoop {flow : FlowState} {loop : LoopPaths}
    (hinner : Analysis.Keeps { a with flow, loops := loop :: a.loops } inner) :
    a.Keeps { inner with loops := inner.loops.tail } where
  toExtends := hinner.toExtends.around ⟨rfl, rfl, rfl, rfl⟩ ⟨rfl, rfl, rfl, rfl⟩
  outerScopes := hinner.outerScopes
  currentFunction := hinner.currentFunction
  functionDepth := hinner.functionDepth
  silence := hinner.silence
  loops := by
    obtain ⟨grown, hgrown, -⟩ := hinner.loops
    rw [hgrown]
    exact .refl _
  regular hrooted h := (hinner.regular hrooted (h.of_same rfl (fun _ => id) rfl)).of_same rfl (fun _ => id) rfl
  tiered := hinner.tiered

/-- A silent look. -/
theorem Keeps.ofSilence (hinner : Analysis.Keeps { a with silence := a.silence + 1 } inner) :
    a.Keeps { inner with silence := inner.silence - 1 } where
  toExtends := hinner.toExtends.around ⟨rfl, rfl, rfl, rfl⟩ ⟨rfl, rfl, rfl, rfl⟩
  outerScopes := hinner.outerScopes
  currentFunction := hinner.currentFunction
  functionDepth := hinner.functionDepth
  silence := by
    have hsilence : inner.silence = a.silence + 1 := hinner.silence
    simp only [hsilence, Nat.add_sub_cancel]
  loops := hinner.loops
  regular hrooted h := (hinner.regular hrooted (h.of_same rfl (fun _ => id) rfl)).of_same rfl (fun _ => id) rfl
  tiered := hinner.tiered

end Analysis

namespace Check

open Analysis

variable {α β : Type}

theorem Keeps.scoped {body : Check α} {next : α → Check β} (hbody : Keeps body) (hnext : ∀ value, Keeps (next value)) :
    Keeps (enterScope >>= fun _ => body >>= fun value => exitScope >>= fun _ => next value) :=
  fun _ => (Analysis.Keeps.ofScope (hbody _)).trans (hnext _ _)

/-- A step that declares nothing but in scopes of its own. -/
def Encloses (step : Check α) : Prop :=
  Keeps step ∧ ∀ a : Analysis, a.Regular → (step a).2.Regular

theorem keeps_functionBody {body : FlowState → Check α} (hbody : ∀ flow, Encloses (body flow)) :
    Keeps (functionBody body) :=
  fun a => Analysis.Keeps.ofFunction ((hbody a.flow).1 _) ((hbody a.flow).2 _) rfl _

/-- The look at a declared function, with the function that is said to refer to what it refers to. -/
theorem declaredBody_snd (id : BindingId) (body : Check α) (a : Analysis) :
    declaredBody id body a =
      if (a.symbols[id]?.map (·.hoisted)).getD false = true then
        let inner := body { a with
          currentFunction := some id, summaries := a.summaries.insert id (a.summaries.of id) }
        (inner.1, { inner.2 with currentFunction := a.currentFunction })
      else body a := by
  simp only [declaredBody]
  change (if _ then _ else _ : Check α) a = _
  split <;> rfl

theorem keeps_declaredBody (id : BindingId) {body : Check α} (hbody : Keeps body) : Keeps (declaredBody id body) := by
  intro a
  rw [declaredBody_snd]
  split
  · have hsummary : a.Keeps { a with summaries := a.summaries.insert id (a.summaries.of id) } :=
      keeps_summary id (fun _ h => h) (fun _ h => h) fun _ => .inl
    have hinner := hbody { a with
      currentFunction := some id, summaries := a.summaries.insert id (a.summaries.of id) }
    refine ⟨hsummary.toExtends.trans (hinner.toExtends.around ⟨rfl, rfl, rfl, rfl⟩ ⟨rfl, rfl, rfl, rfl⟩),
      hinner.outerScopes, rfl, hinner.functionDepth, hinner.silence, hinner.loops, fun hrooted h => ?_, hinner.tiered⟩
    have hinside : Regular { a with
        currentFunction := some id, summaries := a.summaries.insert id (a.summaries.of id) } :=
      (hsummary.regular hrooted h).of_same rfl (fun _ h => h) rfl
    exact (hinner.regular hrooted hinside).of_same rfl (fun _ h => h) rfl
  · exact hbody a

theorem keeps_loopPass {body : Check (α × Option FlowState)} (hbody : Keeps body) (entry : FlowState) :
    Keeps (loopPass body entry) :=
  fun _ => Analysis.Keeps.ofLoop (Analysis.Keeps.ofScope (hbody _))

theorem keeps_loopEntry {body : Check (α × Option FlowState)} (hbody : Keeps body) (outer : Nat) (before : FlowState)
    (passes : Nat) (entry : FlowState) : Keeps (loopEntry body outer before passes entry) := by
  induction passes generalizing entry with
  | zero => exact keeps_pure _
  | succ passes ih =>
    refine (keeps_loopPass hbody entry).bind fun found => keeps_getFlow fun flow => ?_
    dsimp only
    split
    · exact keeps_pure _
    · exact ih _

theorem keeps_analyzeLoop {body : Check (α × Option FlowState)} (hbody : Keeps body) : Keeps (analyzeLoop body) := by
  intro a
  have hsilent := Analysis.Keeps.ofSilence (keeps_loopEntry hbody a.symbols.size a.flow (a.symbols.size * 2 + 3) a.flow
    { a with silence := a.silence + 1 })
  exact hsilent.trans ((keeps_loopPass hbody _ _).trans (keeps_setFlow _ _))

theorem keeps_borrowPlace {location : Location} {exclusive : Bool} {extent : Extent}
    {place : Check (Expr × PlaceRoot)} {whole : Check Expr} (hplace : Keeps place) (hwhole : Keeps whole) :
    Keeps (borrowPlace location exclusive extent place whole) := by
  refine hplace.bind fun found => ?_
  obtain ⟨part, root⟩ := found
  cases root with
  | expression => exact hwhole.bind fun _ => keeps_pure _
  | unresolved => exact keeps_pure _
  | resolved identifier id =>
    exact (keeps_useBinding id _ _).bind fun _ => (keeps_beginBorrow id _ _ _ _).bind fun _ => keeps_pure _

end Check

end OwnScript
