import OwnScript.Proofs.Analysis.Growth

/-!
Extents are handed out once. In every state of an analysis the extents of live borrows, scopes and declarations are
smaller than the next one, so nothing that is live belongs to an extent that is still to come.
-/

namespace OwnScript

/-- What a change of one item does not touch is the same for all items afterwards. -/
theorem map_modify_of_eq {γ δ : Type} {change : γ → γ} {view : γ → δ} (hsame : ∀ item, view (change item) = view item)
    (items : List γ) (place : Nat) : (items.modify place change).map view = items.map view := by
  refine List.ext_getElem? fun index => ?_
  simp only [List.getElem?_map, List.getElem?_modify]
  cases items[index]? with
  | none => rfl
  | some item => split <;> simp [hsame]

namespace Analysis

variable {a middle after : Analysis}

/-- The extents that a state refers to. -/
def extents (a : Analysis) : List Extent :=
  a.borrows.toList.map (·.extent) ++ (a.scope :: a.outerScopes).map (·.extent) ++ a.symbols.toList.map (·.extent)

theorem mem_extents {extent : Extent} : extent ∈ a.extents ↔
    (∃ borrow ∈ a.borrows, borrow.extent = extent) ∨ (∃ scope ∈ a.scope :: a.outerScopes, scope.extent = extent) ∨
      ∃ symbol ∈ a.symbols, symbol.extent = extent := by
  simp only [extents, List.mem_append, List.mem_map, Array.mem_toList_iff, or_assoc]

/-- All extents that a state refers to were handed out. -/
def Numbered (a : Analysis) : Prop :=
  ∀ extent ∈ a.extents, extent < a.nextExtent

/-- An extent is not handed out twice, and no other is used. -/
def Numbers (a after : Analysis) : Prop :=
  a.Numbered → a.nextExtent ≤ after.nextExtent ∧ after.Numbered

theorem Numbers.refl (a : Analysis) : a.Numbers a :=
  fun hnumbered => ⟨Nat.le_refl _, hnumbered⟩

theorem Numbers.trans (hfirst : a.Numbers middle) (hsecond : middle.Numbers after) : a.Numbers after := by
  intro hnumbered
  obtain ⟨hle, hmiddle⟩ := hfirst hnumbered
  obtain ⟨hle', hafter⟩ := hsecond hmiddle
  exact ⟨hle.trans hle', hafter⟩

/-- No other extents are used than before, except those that were handed out. -/
theorem Numbers.of_used (hnext : a.nextExtent ≤ after.nextExtent)
    (hused : a.Numbered → ∀ extent ∈ after.extents, extent ∈ a.extents ∨ extent < after.nextExtent) : a.Numbers after :=
  fun hnumbered => ⟨hnext, fun extent hmem =>
    (hused hnumbered extent hmem).elim (fun h => (hnumbered extent h).trans_le hnext) id⟩

/-- The same extents are used as before. -/
theorem Numbers.of_same (hsame : after.extents = a.extents) (hnext : after.nextExtent = a.nextExtent) :
    a.Numbers after :=
  .of_used (Nat.le_of_eq hnext.symm) fun _ _ hmem => .inl (hsame ▸ hmem)

theorem Numbered.scope (hnumbered : a.Numbered) : a.scope.extent < a.nextExtent :=
  hnumbered _ (mem_extents.mpr (.inr (.inl ⟨_, List.mem_cons_self .., rfl⟩)))

theorem Numbered.borrow (hnumbered : a.Numbered) {borrow : Borrow} (hlive : borrow ∈ a.borrows) :
    borrow.extent < a.nextExtent :=
  hnumbered _ (mem_extents.mpr (.inl ⟨borrow, hlive, rfl⟩))

/-- The extent that a variable lives in, with the one of the program for a variable that is not known. -/
theorem Numbered.symbol (hnumbered : a.Numbered) (id : BindingId) :
    ((a.symbols[id]?.map (·.extent)).getD 0) < a.nextExtent := by
  cases hfound : a.symbols[id]? with
  | none => exact Nat.zero_lt_of_lt hnumbered.scope
  | some symbol => exact hnumbered _ (mem_extents.mpr (.inr (.inr ⟨symbol, Array.mem_of_getElem? hfound, rfl⟩)))

/-- At the start only the extent of the program is used. -/
theorem numbered_empty : Numbered {} := by
  intro extent hmem
  simp only [extents, List.map_nil, List.nil_append, List.append_nil, List.map_cons, List.mem_singleton] at hmem
  exact hmem ▸ Nat.zero_lt_one

end Analysis

namespace Check

open Analysis

variable {α β : Type}

/-- A step that hands out extents once. -/
def Numbers (step : Check α) : Prop :=
  ∀ a, Analysis.Numbers a (step a).2

theorem numbers_pure (value : α) : Numbers (pure value) :=
  fun _ => .refl _

theorem Numbers.bind {step : Check α} {next : α → Check β} (hstep : Numbers step)
    (hnext : ∀ value, Numbers (next value)) :
    Numbers (step >>= next) :=
  fun a => (hstep a).trans (hnext _ _)

theorem numbers_get {next : Analysis → Check β} (hnext : ∀ a, Numbers (next a)) : Numbers (get >>= next) :=
  fun a => hnext a a

theorem Numbers.ite {condition : Prop} [Decidable condition] {yes no : Check α} (hyes : Numbers yes)
    (hno : Numbers no) :
    Numbers (if condition then yes else no) := by
  split
  · exact hyes
  · exact hno

/-- A change of anything but extents. -/
theorem numbers_modify {f : Analysis → Analysis}
    (hf : ∀ a, (f a).extents = a.extents ∧ (f a).nextExtent = a.nextExtent) :
    Numbers (modify f) :=
  fun a => .of_same (hf a).1 (hf a).2

section Events

variable (id : BindingId) (name : String) (location : Location)

theorem numbers_report (kind : ErrorKind) (message : String) : Numbers (report kind message location name) :=
  numbers_modify fun _ => by split <;> exact ⟨rfl, rfl⟩

theorem numbers_newExtent : Numbers newExtent :=
  fun _ => .of_used (Nat.le_succ _) fun _ _ hmem => .inl hmem

/-- Some borrows end. -/
theorem numbers_filter (keep : Borrow → Bool) :
    Numbers (modify fun a => { a with borrows := a.borrows.filter keep }) := by
  refine fun a => .of_used (Nat.le_refl _) fun _ extent hmem => .inl ?_
  rw [mem_extents] at hmem ⊢
  refine hmem.imp_left fun ⟨borrow, hborrow, hextent⟩ => ⟨borrow, ?_, hextent⟩
  exact (Array.mem_filter.mp hborrow).1

theorem numbers_releaseExtent (extent : Extent) : Numbers (releaseExtent extent) :=
  numbers_filter _

theorem numbers_releaseHeldBy : Numbers (releaseHeldBy id) :=
  numbers_filter _

theorem numbers_setState (state : InitState) : Numbers (setState id state) :=
  numbers_modify fun _ => ⟨rfl, rfl⟩

theorem numbers_setFlow (flow : FlowState) : Numbers (setFlow flow) :=
  numbers_modify fun _ => ⟨rfl, rfl⟩

theorem numbers_endPath : Numbers endPath :=
  numbers_modify fun _ => ⟨rfl, rfl⟩

theorem numbers_getFlow : Numbers getFlow :=
  fun _ => .refl _

theorem numbers_lookup : Numbers (lookup name) :=
  fun _ => .refl _

theorem numbers_isGlobal : Numbers (isGlobal id) :=
  fun _ => .refl _

theorem numbers_isBorrowed : Numbers (isBorrowed id) :=
  fun _ => .refl _

theorem numbers_leaveLoop : Numbers leaveLoop :=
  (numbers_modify fun _ => by split <;> exact ⟨rfl, rfl⟩).bind fun _ => numbers_endPath

theorem numbers_skipLoop : Numbers skipLoop :=
  (numbers_modify fun _ => by split <;> exact ⟨rfl, rfl⟩).bind fun _ => numbers_endPath

theorem numbers_holdBorrow (place : Nat) : Numbers (holdBorrow place id) := by
  refine numbers_modify fun a => ⟨?_, rfl⟩
  simp only [extents, Array.toList_modify]
  rw [map_modify_of_eq]
  exact fun _ => rfl

/-- A flag of a declaration that has nothing to do with extents. -/
theorem numbers_flag (a : Analysis) (f : Symbol → Symbol) (hf : ∀ symbol, (f symbol).extent = symbol.extent) :
    Analysis.Numbers a { a with symbols := a.symbols.modify id f } := by
  refine .of_same ?_ rfl
  simp only [extents, Array.toList_modify]
  rw [map_modify_of_eq hf]

theorem numbers_noteReference : Numbers (noteReference id location) := by
  intro a
  cases hfound : a.symbols[id]? with
  | none =>
    have hsame : (noteReference id location a).2 = a := by simp [noteReference, modify_snd, hfound]
    rw [hsame]
    exact .refl a
  | some symbol =>
    have hmarked : Analysis.Numbers a (marked a symbol id) := by
      unfold marked
      split
      · exact numbers_flag id a _ fun _ => rfl
      · exact .refl a
    rw [noteReference_eq hfound]
    split
    · exact hmarked
    · split
      · exact hmarked.trans (.of_same rfl rfl)
      · split
        · exact hmarked.trans (.of_same rfl rfl)
        · exact hmarked

theorem numbers_resolve (identifier : Identifier) : Numbers (resolve identifier) := by
  refine (numbers_lookup _).bind fun target => ?_
  cases target with
  | none => exact (numbers_report _ _ _ _).bind fun _ => numbers_pure _
  | some id => exact (numbers_isGlobal id).bind fun _ => (numbers_noteReference id _).bind fun _ => numbers_pure _

theorem numbers_useBinding : Numbers (useBinding id name location) := by
  refine numbers_getFlow.bind fun flow => ?_
  split
  · split
    · exact numbers_pure _
    · exact (numbers_report _ _ _ _).bind fun _ => numbers_setState _ _
    · exact (numbers_report _ _ _ _).bind fun _ => numbers_setState _ _
  · exact numbers_pure _

theorem numbers_assignBinding : Numbers (assignBinding id name location) := by
  refine (numbers_isBorrowed id).bind fun borrowed => ?_
  split
  · exact (numbers_report _ _ _ _).bind fun _ => numbers_setState _ _
  · exact numbers_setState _ _

theorem numbers_moveBinding : Numbers (moveBinding id name location) := by
  have hrest : Numbers (do
      if ← isBorrowed id then
        report .conflictingBorrow s!"cannot move '{name}' while it is borrowed" location name
      releaseHeldBy id
      setState id .moved) := by
    refine (numbers_isBorrowed id).bind fun borrowed => ?_
    split
    · exact (numbers_report _ _ _ _).bind fun _ => (numbers_releaseHeldBy id).bind fun _ => numbers_setState _ _
    · exact (numbers_releaseHeldBy id).bind fun _ => numbers_setState _ _
  refine (numbers_useBinding id name location).bind fun _ => numbers_get fun a => ?_
  split
  · split
    · exact (numbers_report _ _ _ _).bind fun _ => hrest
    · split
      · exact (numbers_report _ _ _ _).bind fun _ => hrest
      · exact hrest
  · exact hrest

theorem numbers_declareName (initial : InitState) : Numbers (declareName name location initial) := by
  intro a
  cases hknown : a.scope.names[name]? with
  | some id =>
    rw [declareName_known hknown]
    exact numbers_report _ _ _ _ a
  | none =>
    rw [declareName_new hknown]
    refine .of_used (Nat.le_refl _) fun hnumbered extent hmem => ?_
    rw [mem_extents] at hmem ⊢
    rcases hmem with hborrow | ⟨scope, hscope, hextent⟩ | ⟨symbol, hsymbol, hextent⟩
    · exact .inl (.inl hborrow)
    · rcases List.mem_cons.mp hscope with rfl | hscope
      · exact .inl (.inr (.inl ⟨a.scope, List.mem_cons_self .., hextent⟩))
      · exact .inl (.inr (.inl ⟨scope, List.mem_cons_of_mem _ hscope, hextent⟩))
    · rcases Array.mem_push.mp hsymbol with hsymbol | rfl
      · exact .inl (.inr (.inr ⟨symbol, hsymbol, hextent⟩))
      · exact .inr (hextent ▸ hnumbered.scope)

theorem numbers_enterScope : Numbers enterScope := by
  intro a
  rw [enterScope_snd]
  refine .of_used (Nat.le_succ _) fun _ extent hmem => ?_
  rw [mem_extents] at hmem ⊢
  rcases hmem with hborrow | ⟨scope, hscope, hextent⟩ | hsymbol
  · exact .inl (.inl hborrow)
  · rcases List.mem_cons.mp hscope with rfl | hscope
    · exact .inr (hextent ▸ Nat.lt_succ_self _)
    · exact .inl (.inr (.inl ⟨scope, hscope, hextent⟩))
  · exact .inl (.inr (.inr hsymbol))

theorem numbers_exitScope : Numbers exitScope := by
  intro a
  rw [exitScope_snd]
  refine .of_used (Nat.le_refl _) fun _ extent hmem => .inl ?_
  rw [mem_extents] at hmem ⊢
  rcases hmem with ⟨borrow, hborrow, hextent⟩ | ⟨scope, hscope, hextent⟩ | hsymbol
  · exact .inl ⟨borrow, (Array.mem_filter.mp hborrow).1, hextent⟩
  · refine .inr (.inl ⟨scope, ?_, hextent⟩)
    cases houter : a.outerScopes with
    | nil => simpa [houter] using hscope
    | cons outer rest => exact List.mem_cons_of_mem _ (by simpa [houter] using hscope)
  · exact .inr (.inr hsymbol)

/-- The diagnostic for a borrow that conflicts with a live one. -/
def conflict? (target : BindingId) (exclusive : Bool) (a : Analysis) : Option Diagnostic :=
  (a.borrows.find? fun live => live.target == target && (exclusive || live.exclusive)).map fun live =>
    { kind := .conflictingBorrow
      location
      message :=
        s!"{borrowWord exclusive} borrow of '{name}' conflicts with a live {borrowWord live.exclusive} borrow"
      context := name }

/-- All that a borrow does when it begins: it is live, and a conflict is reported. -/
theorem beginBorrow_snd (exclusive : Bool) (extent : Extent) (a : Analysis) :
    (beginBorrow id name exclusive extent location a).2 = { a with
      borrows := a.borrows.push { target := id, exclusive, extent, location }
      errors := if a.silence = 0 then a.errors ++ (conflict? name location id exclusive a).toArray else a.errors } := by
  unfold beginBorrow conflict?
  rw [get_bind_run]
  cases a.borrows.find? fun live => live.target == id && (exclusive || live.exclusive) with
  | none =>
    show ({ a with borrows := _ } : Analysis) = _
    simp
  | some live =>
    show ({ (report _ _ _ _ a).2 with borrows := _ } : Analysis) = _
    rw [report_eq]
    split <;> simp [*]

/-- A borrow of an extent that was handed out. -/
theorem numbers_beginBorrow {a : Analysis} (exclusive : Bool) {extent : Extent} (hextent : extent < a.nextExtent) :
    Analysis.Numbers a (beginBorrow id name exclusive extent location a).2 := by
  rw [beginBorrow_snd]
  refine .of_used (Nat.le_refl _) fun _ other hmem => ?_
  rw [mem_extents] at hmem ⊢
  rcases hmem with ⟨live, hlive, hother⟩ | hrest
  · rcases Array.mem_push.mp hlive with hlive | rfl
    · exact .inl (.inl ⟨live, hlive, hother⟩)
    · exact .inr (hother ▸ hextent)
  · exact .inl (.inr hrest)

end Events

section Parts

/-- A step that hands out extents once and uses one that was handed out before it. -/
def Within (extent : Extent) (step : Check α) : Prop :=
  ∀ a : Analysis, extent < a.nextExtent → Analysis.Numbers a (step a).2

variable {extent : Extent}

theorem Numbers.within {step : Check α} (hstep : Numbers step) : Within extent step :=
  fun a _ => hstep a

theorem Within.bind {step : Check α} {next : α → Check β} (hstep : Within extent step)
    (hnext : ∀ value, Within extent (next value)) : Within extent (step >>= next) := by
  intro a hextent hnumbered
  have hle := (hstep a hextent hnumbered).1
  exact (hstep a hextent).trans (hnext _ _ (hextent.trans_le hle)) hnumbered

/-- A new extent may be used by what follows. -/
theorem numbers_newExtent_bind {next : Extent → Check β} (hnext : ∀ extent, Within extent (next extent)) :
    Numbers (newExtent >>= next) :=
  fun a => (numbers_newExtent a).trans (hnext a.nextExtent _ (Nat.lt_succ_self _))

/-- An extent that the state refers to may be used. -/
theorem numbers_get_within (extent : Analysis → Extent) (hextent : ∀ a : Analysis, a.Numbered → extent a < a.nextExtent)
    {next : Analysis → Check β} (hnext : ∀ a, Within (extent a) (next a)) : Numbers (get >>= next) :=
  fun a hnumbered => hnext a a (hextent a hnumbered) hnumbered

/-- A borrow of a place. -/
theorem within_borrowPlace {location : Location} {exclusive : Bool} {place : Check (Expr × PlaceRoot)}
    {whole : Check Expr} (hplace : Numbers place) (hwhole : Numbers whole) :
    Within extent (borrowPlace location exclusive extent place whole) := by
  refine hplace.within.bind fun found => ?_
  obtain ⟨part, root⟩ := found
  cases root with
  | expression => exact (hwhole.bind fun _ => numbers_pure _).within
  | unresolved => exact (numbers_pure _).within
  | resolved identifier id =>
    refine (numbers_useBinding id _ _).within.bind fun _ => ?_
    have hbegin : Within extent (beginBorrow id identifier.name exclusive extent location) :=
      fun _ => numbers_beginBorrow _ _ _ _
    exact hbegin.bind fun _ => (numbers_pure _).within

mutual

theorem numbers_declarePattern (pattern : Pattern) : Numbers (declarePattern pattern) := by
  cases pattern with
  | bind location name binding => exact (numbers_declareName _ _ _).bind fun _ => numbers_pure _
  | destructure location fields => exact (numbers_declareFields fields []).bind fun _ => numbers_pure _
  | wildcard location => exact numbers_pure _
  | literal location value => exact numbers_pure _
termination_by structural pattern

theorem numbers_declareFields (fields done : List (String × Pattern)) : Numbers (declareFields fields done) := by
  cases fields with
  | nil => exact numbers_pure _
  | cons field rest => exact (numbers_declarePattern field.2).bind fun _ => numbers_declareFields rest _
termination_by structural fields

end

theorem numbers_declareParameters (parameters done : List Pattern) : Numbers (declareParameters parameters done) := by
  induction parameters generalizing done with
  | nil => exact numbers_pure _
  | cons pattern rest ih => exact (numbers_declarePattern pattern).bind fun _ => ih _

theorem Numbers.scoped {body : Check α} {next : α → Check β} (hbody : Numbers body)
    (hnext : ∀ value, Numbers (next value)) :
    Numbers (enterScope >>= fun _ => body >>= fun value => exitScope >>= fun _ => next value) :=
  numbers_enterScope.bind fun _ => hbody.bind fun _ => numbers_exitScope.bind fun _ => hnext _

theorem numbers_loopPass {body : Check (α × Option FlowState)} (hbody : Numbers body) (entry : FlowState) :
    Numbers (loopPass body entry) := by
  refine (numbers_modify fun _ => by exact ⟨rfl, rfl⟩).bind fun _ => hbody.scoped fun found => numbers_get fun _ => ?_
  exact (numbers_modify fun _ => by exact ⟨rfl, rfl⟩).bind fun _ => numbers_pure _

theorem numbers_loopEntry {body : Check (α × Option FlowState)} (hbody : Numbers body) (outer : Nat)
    (before : FlowState) (passes : Nat) (entry : FlowState) : Numbers (loopEntry body outer before passes entry) := by
  induction passes generalizing entry with
  | zero => exact numbers_pure _
  | succ passes ih =>
    refine (numbers_loopPass hbody entry).bind fun found => numbers_getFlow.bind fun flow => ?_
    exact (numbers_pure _).ite (ih _)

theorem numbers_analyzeLoop {body : Check (α × Option FlowState)} (hbody : Numbers body) :
    Numbers (analyzeLoop body) := by
  refine numbers_getFlow.bind fun before => numbers_get fun a => ?_
  refine (numbers_modify fun _ => by exact ⟨rfl, rfl⟩).bind fun _ =>
    (numbers_loopEntry hbody _ _ _ _).bind fun entry => ?_
  refine (numbers_modify fun _ => by exact ⟨rfl, rfl⟩).bind fun _ => (numbers_loopPass hbody entry).bind fun found => ?_
  exact (numbers_setFlow _).bind fun _ => numbers_pure _

theorem numbers_functionBody {body : FlowState → Check α} (hbody : ∀ flow, Numbers (body flow)) :
    Numbers (functionBody body) := by
  refine numbers_getFlow.bind fun flow => numbers_get fun a =>
    (numbers_modify fun _ => by exact ⟨rfl, rfl⟩).bind fun _ => ?_
  exact (hbody flow).bind fun _ => (numbers_modify fun _ => by exact ⟨rfl, rfl⟩).bind fun _ => numbers_pure _

theorem numbers_declaredBody (id : BindingId) {body : Check α} (hbody : Numbers body) :
    Numbers (declaredBody id body) := by
  refine numbers_get fun a => Numbers.ite ?_ hbody
  refine (numbers_modify fun _ => by exact ⟨rfl, rfl⟩).bind fun _ => hbody.bind fun _ => ?_
  exact (numbers_modify fun _ => by exact ⟨rfl, rfl⟩).bind fun _ => numbers_pure _

end Parts

/-! The walk of an analysis hands out extents once, whatever it looks at. -/

mutual

theorem numbers_expr (expr : Expr) : Numbers (checkExpr expr) := by
  cases expr with
  | absent => exact numbers_pure _
  | literal location value => exact numbers_pure _
  | name identifier =>
    refine (numbers_resolve identifier).bind fun found => ?_
    obtain ⟨resolved, target⟩ := found
    cases target with
    | none => exact numbers_pure _
    | some id => exact (numbers_useBinding id _ _).bind fun _ => numbers_pure _
  | unary location op operand => exact (numbers_expr operand).bind fun _ => numbers_pure _
  | binary location op left right =>
    refine (numbers_expr left).bind fun first => Numbers.ite ?_ ?_
    · refine numbers_getFlow.bind fun flow => (numbers_expr right).bind fun _ => ?_
      exact numbers_getFlow.bind fun _ => (numbers_setFlow _).bind fun _ => numbers_pure _
    · exact (numbers_expr right).bind fun _ => numbers_pure _
  | call location callee arguments =>
    refine (numbers_expr callee).bind fun _ => numbers_newExtent_bind fun extent => ?_
    refine (within_arguments extent arguments []).bind fun _ => ?_
    exact ((numbers_releaseExtent extent).bind fun _ => numbers_pure _).within
  | field location object name => exact (numbers_expr object).bind fun _ => numbers_pure _
  | index location object index =>
    exact (numbers_expr object).bind fun _ => (numbers_expr index).bind fun _ => numbers_pure _
  | record location fields => exact (numbers_fields fields []).bind fun _ => numbers_pure _
  | array location items => exact (numbers_items items []).bind fun _ => numbers_pure _
  | lambda location function => exact (numbers_function function).bind fun _ => numbers_pure _
  | borrow location target exclusive =>
    refine numbers_newExtent_bind fun extent => ?_
    refine (within_borrowPlace (numbers_place target) (numbers_expr target)).bind fun _ => ?_
    exact ((numbers_releaseExtent extent).bind fun _ => numbers_pure _).within
  | move location target =>
    cases target with
    | none => exact numbers_pure _
    | some identifier =>
      refine (numbers_resolve identifier).bind fun found => ?_
      obtain ⟨resolved, target⟩ := found
      cases target with
      | none => exact numbers_pure _
      | some id => exact (numbers_moveBinding id _ _).bind fun _ => numbers_pure _
  | deref location operand => exact (numbers_expr operand).bind fun _ => numbers_pure _
termination_by structural expr

theorem numbers_place (expr : Expr) : Numbers (checkPlace expr) := by
  cases expr with
  | name identifier =>
    refine (numbers_resolve identifier).bind fun found => ?_
    obtain ⟨resolved, target⟩ := found
    cases target <;> exact numbers_pure _
  | field location object name => exact (numbers_place object).bind fun _ => numbers_pure _
  | index location object index =>
    exact (numbers_expr index).bind fun _ => (numbers_place object).bind fun _ => numbers_pure _
  | _ => exact numbers_pure _
termination_by structural expr

theorem within_arguments (extent : Extent) (arguments done : List Expr) :
    Within extent (checkArguments extent arguments done) := by
  cases arguments with
  | nil => exact (numbers_pure _).within
  | cons argument rest =>
    cases argument with
    | borrow location target exclusive =>
      exact (within_borrowPlace (numbers_place target) (numbers_expr target)).bind fun _ =>
        within_arguments extent rest _
    | _ => exact (numbers_expr _).within.bind fun _ => within_arguments extent rest _
termination_by structural arguments

theorem numbers_items (items done : List Expr) : Numbers (checkItems items done) := by
  cases items with
  | nil => exact numbers_pure _
  | cons item rest => exact (numbers_expr item).bind fun _ => numbers_items rest _
termination_by structural items

theorem numbers_fields (fields done : List (String × Expr)) : Numbers (checkFields fields done) := by
  cases fields with
  | nil => exact numbers_pure _
  | cons field rest => exact (numbers_expr field.2).bind fun _ => numbers_fields rest _
termination_by structural fields

theorem numbers_stmt (stmt : Stmt) : Numbers (checkStmt stmt) := by
  cases stmt with
  | absent => exact numbers_pure _
  | declare location name initial resolution =>
    have hplain : Numbers (do
        let initial ← checkExpr initial
        let id ← declareName name location (if initial.isAbsent then .uninitialized else .initialized)
        return .declare location name initial { binding := some id, isGlobal := ← isGlobal id } : Check Stmt) := by
      refine (numbers_expr initial).bind fun _ => (numbers_declareName _ _ _).bind fun id => ?_
      exact (numbers_isGlobal id).bind fun _ => numbers_pure _
    cases initial with
    | borrow place target exclusive =>
      refine numbers_get_within (·.scope.extent) (fun _ h => h.scope) fun a => ?_
      refine (within_borrowPlace (numbers_place target) (numbers_expr target)).bind fun found => ?_
      obtain ⟨part, borrow⟩ := found
      refine ((numbers_declareName _ _ _).bind fun id => ?_).within
      cases borrow with
      | none => exact (numbers_isGlobal id).bind fun _ => numbers_pure _
      | some borrow => exact (numbers_holdBorrow _ _).bind fun _ => (numbers_isGlobal id).bind fun _ => numbers_pure _
    | _ => exact hplain
  | assign location name value resolution =>
    rw [checkStmt]
    refine (numbers_lookup name).bind fun target => ?_
    cases target with
    | none => exact (numbers_expr value).bind fun _ => (numbers_report _ _ _ _).bind fun _ => numbers_pure _
    | some id =>
      refine (numbers_isGlobal id).bind fun isGlobal => ?_
      have hplain : Numbers (do
          let value ← checkExpr value
          releaseHeldBy id
          assignBinding id name location
          return .assign location name value { binding := some id, isGlobal } : Check Stmt) := by
        refine (numbers_expr value).bind fun _ => (numbers_releaseHeldBy id).bind fun _ => ?_
        exact (numbers_assignBinding id _ _).bind fun _ => numbers_pure _
      cases value with
      | borrow place target exclusive =>
        refine (numbers_releaseHeldBy id).bind fun _ => ?_
        refine numbers_get_within (fun a => (a.symbols[id]?.map (·.extent)).getD 0) (fun _ h => h.symbol id) fun a => ?_
        refine (within_borrowPlace (numbers_place target) (numbers_expr target)).bind fun found => ?_
        obtain ⟨part, borrow⟩ := found
        refine ((numbers_assignBinding id _ _).bind fun _ => ?_).within
        cases borrow with
        | none => exact numbers_pure _
        | some borrow => exact (numbers_holdBorrow _ _).bind fun _ => numbers_pure _
      | _ => exact hplain
  | assignField location object field value =>
    exact (numbers_expr object).bind fun _ => (numbers_expr value).bind fun _ => numbers_pure _
  | assignIndex location object index value =>
    refine (numbers_expr object).bind fun _ => (numbers_expr index).bind fun _ => ?_
    exact (numbers_expr value).bind fun _ => numbers_pure _
  | evaluate location expression => exact (numbers_expr expression).bind fun _ => numbers_pure _
  | print location expression => exact (numbers_expr expression).bind fun _ => numbers_pure _
  | block location body => exact (numbers_stmts body []).scoped fun _ => numbers_pure _
  | ifElse location condition yes no =>
    refine (numbers_expr condition).bind fun _ => numbers_getFlow.bind fun _ => ?_
    refine (numbers_stmt yes).bind fun _ => numbers_getFlow.bind fun _ => (numbers_setFlow _).bind fun _ => ?_
    refine (numbers_stmt no).bind fun _ => numbers_getFlow.bind fun _ => ?_
    exact (numbers_setFlow _).bind fun _ => numbers_pure _
  | cond location scrutinee arms =>
    refine (numbers_expr scrutinee).bind fun _ => numbers_get fun a => numbers_getFlow.bind fun flow => ?_
    exact (numbers_arms _ arms _ _ []).bind fun _ => (numbers_setFlow _).bind fun _ => numbers_pure _
  | whileLoop location condition body =>
    refine (numbers_analyzeLoop ?_).bind fun _ => numbers_pure _
    refine (numbers_expr condition).bind fun _ => numbers_getFlow.bind fun _ => ?_
    exact (numbers_stmt body).bind fun _ => numbers_pure _
  | forLoop location counter binding first bound body =>
    refine (numbers_expr first).bind fun _ => (numbers_expr bound).bind fun _ => ?_
    refine (numbers_analyzeLoop ?_).bind fun _ => numbers_pure _
    refine numbers_getFlow.bind fun _ => numbers_enterScope.bind fun _ => (numbers_declareName _ _ _).bind fun _ => ?_
    exact (numbers_stmt body).bind fun _ => numbers_exitScope.bind fun _ => numbers_pure _
  | forever location body =>
    refine (numbers_analyzeLoop ?_).bind fun _ => numbers_pure _
    exact (numbers_stmt body).bind fun _ => numbers_pure _
  | leave location => exact numbers_leaveLoop.bind fun _ => numbers_pure _
  | skip location => exact numbers_skipLoop.bind fun _ => numbers_pure _
  | giveBack location value =>
    exact (numbers_expr value).bind fun _ => numbers_endPath.bind fun _ => numbers_pure _
  | disown location name resolution =>
    refine (numbers_lookup name).bind fun target => ?_
    cases target with
    | none => exact (numbers_report _ _ _ _).bind fun _ => numbers_pure _
    | some id =>
      refine (numbers_isGlobal id).bind fun _ => ?_
      exact (numbers_moveBinding id _ _).bind fun _ => numbers_pure _
  | function location declaration resolution =>
    obtain ⟨name, isProc, clauses⟩ := declaration
    have hbody (id : BindingId) (isGlobal : Bool) : Numbers (do
        let clauses ← declaredBody id (functionBody fun flow => checkClauses flow clauses [])
        return .function location ⟨name, isProc, clauses⟩ { binding := some id, isGlobal } : Check Stmt) :=
      (numbers_declaredBody id (numbers_functionBody fun flow => numbers_clauses flow clauses [])).bind
        fun _ => numbers_pure _
    have hdeclared : Numbers (do
        let id ← declareName name location .initialized
        let isGlobal ← isGlobal id
        let clauses ← declaredBody id (functionBody fun flow => checkClauses flow clauses [])
        return .function location ⟨name, isProc, clauses⟩ { binding := some id, isGlobal } : Check Stmt) :=
      (numbers_declareName _ _ _).bind fun id => (numbers_isGlobal id).bind fun isGlobal => hbody id isGlobal
    obtain ⟨binding, flag⟩ := resolution
    cases binding with
    | none => exact hdeclared
    | some old =>
      cases flag with
      | true => exact hbody old true
      | false => exact hdeclared
termination_by structural stmt

theorem numbers_stmts (stmts done : List Stmt) : Numbers (checkStmts stmts done) := by
  cases stmts with
  | nil => exact numbers_pure _
  | cons stmt rest => exact (numbers_stmt stmt).bind fun _ => numbers_stmts rest _
termination_by structural stmts

theorem numbers_arms (outer : Nat) (arms : List Arm) (test after : FlowState) (done : List Arm) :
    Numbers (checkArms outer arms test after done) := by
  cases arms with
  | nil => exact numbers_pure _
  | cons arm rest =>
    obtain ⟨location, pattern, guard, body⟩ := arm
    have hnext (declared : Option Pattern) : Numbers (do
        let guard ← checkExpr guard
        let test := (← getFlow).truncate outer
        let body ← checkStmts body []
        exitScope
        let armEnd := (← getFlow).truncate outer
        checkArms outer rest test (after.meet armEnd) (⟨location, declared, guard, body⟩ :: done)) := by
      refine (numbers_expr guard).bind fun _ => numbers_getFlow.bind fun _ => (numbers_stmts body []).bind fun _ => ?_
      exact numbers_exitScope.bind fun _ => numbers_getFlow.bind fun _ => numbers_arms outer rest _ _ _
    refine (numbers_setFlow _).bind fun _ => numbers_enterScope.bind fun _ => ?_
    cases pattern with
    | none => exact hnext none
    | some pattern =>
      exact ((numbers_declarePattern pattern).bind fun declared => numbers_pure (some declared)).bind hnext
termination_by structural arms

theorem numbers_function (function : Function) : Numbers (checkFunction function) := by
  obtain ⟨name, isProc, clauses⟩ := function
  exact (numbers_functionBody fun flow => numbers_clauses flow clauses []).bind fun _ => numbers_pure _
termination_by structural function

theorem numbers_clauses (flow : FlowState) (clauses done : List Clause) :
    Numbers (checkClauses flow clauses done) := by
  cases clauses with
  | nil => exact numbers_pure _
  | cons clause rest =>
    obtain ⟨location, parameters, body⟩ := clause
    refine (numbers_setFlow _).bind fun _ => numbers_enterScope.bind fun _ => ?_
    refine (numbers_declareParameters parameters []).bind fun _ => (numbers_stmts body []).bind fun _ => ?_
    exact numbers_exitScope.bind fun _ => numbers_clauses flow rest _
termination_by structural clauses

end

theorem numbers_hoistFunctions (stmts hoisted : List Stmt) : Numbers (hoistFunctions hoisted stmts) := by
  induction stmts generalizing hoisted with
  | nil => exact numbers_pure _
  | cons stmt rest ih =>
    cases stmt with
    | function location declaration resolution =>
      refine (numbers_declareName _ _ _).bind fun id => ?_
      exact Numbers.bind (fun a => numbers_flag id a _ fun _ => rfl) fun _ => ih _
    | _ => exact ih _

/-- The state of an analysis between two statements of a program. -/
def between (program : Program) (count : Nat) : Analysis :=
  ((do
    let hoisted ← hoistFunctions [] program.statements
    checkStmts (hoisted.take count) []) {}).2

/-- Between any two statements of a program all extents in use were handed out. -/
theorem numbered_between (program : Program) (count : Nat) : (between program count).Numbered :=
  (((numbers_hoistFunctions program.statements []).bind fun _ => numbers_stmts _ []) {} numbered_empty).2

end Check

end OwnScript
