import OwnScript.Proofs.Analysis.Initialization

/-!
The global functions of an accepted program. They are declared before the first statement is looked at, and
their bodies are looked at where they are declared. Where one of them is named, what it may read is initialized.
-/

namespace OwnScript

theorem Stmt.placed_of_wellShaped (stmt : Stmt) (hshape : stmt.wellShaped = true) (hplain : stmt.isFunction = false) :
    stmt.Placed := by
  cases stmt with
  | function => cases hplain
  | ifElse location condition yes no =>
    have hbranch (branch : Stmt) (h : branch.isDeclaration = false) : branch.isFunction = false := by
      cases branch <;> first | rfl | cases h
    simp only [wellShaped, Bool.and_eq_true, Bool.not_eq_true'] at hshape
    obtain ⟨⟨⟨⟨-, hyes⟩, hyesShape⟩, hno⟩, hnoShape⟩ := hshape
    exact ⟨placed_of_wellShaped yes hyesShape (hbranch yes hyes), placed_of_wellShaped no hnoShape (hbranch no hno)⟩
  | _ => exact trivial
termination_by structural stmt

theorem wellShaped_of_mem {stmt : Stmt} {stmts : List Stmt} (hshape : stmtsWellShaped stmts = true)
    (hmem : stmt ∈ stmts) : stmt.wellShaped = true := by
  induction stmts with
  | nil => cases hmem
  | cons first rest ih =>
    rw [stmtsWellShaped, Bool.and_eq_true] at hshape
    rcases List.mem_cons.mp hmem with rfl | hmem
    · exact hshape.1
    · exact ih hshape.2 hmem

namespace Check

open Analysis

variable {final : Analysis}

/-- Analysis makes a function of functions only. -/
theorem isFunction_checkStmt (stmt : Stmt) (hplain : stmt.isFunction = false) :
    Gives (checkStmt stmt) fun part => part.isFunction = false := by
  cases stmt with
  | function => cases hplain
  | declare location name initial resolution =>
    cases initial with
    | borrow place target exclusive =>
      refine Gives.after fun a => Gives.after fun found => Gives.after fun id => ?_
      obtain ⟨part, borrow⟩ := found
      cases borrow <;> exact fun _ => rfl
    | _ => exact fun _ => rfl
  | assign location name value resolution =>
    rw [checkStmt]
    refine Gives.after fun target => ?_
    cases target with
    | none => exact fun _ => rfl
    | some id =>
      refine Gives.after fun flag => ?_
      cases value with
      | borrow place target exclusive =>
        refine Gives.after fun _ => Gives.after fun a => Gives.after fun found => Gives.after fun _ => ?_
        obtain ⟨part, borrow⟩ := found
        cases borrow <;> exact fun _ => rfl
      | _ => exact fun _ => rfl
  | disown location name resolution =>
    refine Gives.after fun target => ?_
    cases target <;> exact fun _ => rfl
  | _ => exact fun _ => rfl

/-- An analysis that has declared some global functions and looked at nothing else. -/
structure Hoisting (a : Analysis) (hoisted : List Stmt) : Prop where
  regular : a.Regular
  loud : a.silence = 0
  outside : a.currentFunction = none
  flat : a.functionDepth = 0
  outermost : a.outerScopes = []
  reachable : a.flow.reachable = true
  known : ∀ id, a.flow.get id = .initialized → a.Hoisted id
  listed : ∀ id, a.Hoisted id → ∃ location declaration, .function location declaration ⟨some id, true⟩ ∈ hoisted
  placed : ∀ stmt ∈ hoisted, stmt.isFunction = true →
    ∃ location declaration id, stmt = .function location declaration ⟨some id, true⟩ ∧ a.Hoisted id

/-- A global function has been declared. -/
def hoist (a : Analysis) (name : String) (location : Location) : Analysis :=
  let after := declaredNew name location .initialized a
  { after with symbols := after.symbols.modify a.symbols.size fun symbol => { symbol with hoisted := true } }

theorem symbols_hoist (a : Analysis) (name : String) (location : Location) (id : BindingId) :
    (hoist a name location).symbols[id]? = if id = a.symbols.size then
      some { name, location, extent := a.scope.extent, functionDepth := a.functionDepth
             isGlobal := a.outerScopes.isEmpty, hoisted := true } else a.symbols[id]? := by
  simp only [hoist, declaredNew, Array.getElem?_modify, Array.getElem?_push]
  by_cases hsame : id = a.symbols.size
  · subst hsame
    simp
  · simp [hsame, Ne.symm hsame]

theorem hoisted_hoist {a : Analysis} (name : String) (location : Location) (id : BindingId) :
    (hoist a name location).Hoisted id ↔ id = a.symbols.size ∨ a.Hoisted id := by
  unfold Hoisted
  rw [symbols_hoist]
  split
  · rename_i hsame
    exact ⟨fun _ => .inl hsame, fun _ => ⟨_, rfl, rfl⟩⟩
  · rename_i hother
    exact ⟨.inr, fun h => h.resolve_left hother⟩

/-- A global function more. -/
theorem hoisting_hoist {a : Analysis} {hoisted : List Stmt} (hhoisting : Hoisting a hoisted) (location : Location)
    (declaration : Function) : Hoisting (hoist a declaration.name location)
      (.function location declaration ⟨some a.symbols.size, true⟩ :: hoisted) where
  regular := by
    have hregular := hhoisting.regular
    have hsize : (hoist a declaration.name location).symbols.size = a.symbols.size + 1 := by simp [hoist, declaredNew]
    have hfound {id : BindingId} (h : a.IsGlobal id) : id ≠ a.symbols.size := by
      obtain ⟨symbol, h, -⟩ := h
      rintro rfl
      simp at h
    refine ⟨fun scope hscope name id h => ?_, fun function id h => ?_, fun id symbol h hflag => ?_⟩
    · rw [hsize]
      rcases List.mem_cons.mp hscope with rfl | houter
      · simp only [hoist, declaredNew, Std.TreeMap.getElem?_insert] at h
        split at h
        · cases h
          exact Nat.lt_succ_self _
        · exact (hregular.names _ (List.mem_cons_self ..) name id h).trans (Nat.lt_succ_self _)
      · exact (hregular.names _ (List.mem_cons_of_mem _ houter) name id h).trans (Nat.lt_succ_self _)
    · have hglobal := hregular.reads function id h
      unfold IsGlobal
      rw [symbols_hoist, if_neg (hfound hglobal)]
      exact hglobal
    · rw [symbols_hoist] at h
      split at h
      · cases h
        exact hhoisting.flat
      · exact hregular.depths id symbol h hflag
  loud := hhoisting.loud
  outside := hhoisting.outside
  flat := hhoisting.flat
  outermost := hhoisting.outermost
  reachable := hhoisting.reachable
  known id h := by
    rw [hoisted_hoist]
    by_cases hsame : id = a.symbols.size
    · exact .inl hsame
    · change (a.flow.set a.symbols.size .initialized).get id = _ at h
      rw [FlowState.get_set_of_ne _ _ hsame] at h
      exact .inr (hhoisting.known id h)
  listed id h := by
    rcases (hoisted_hoist ..).mp h with rfl | h
    · exact ⟨location, declaration, List.mem_cons_self ..⟩
    · obtain ⟨location, declaration, hmem⟩ := hhoisting.listed id h
      exact ⟨location, declaration, List.mem_cons_of_mem _ hmem⟩
  placed stmt hmem hfunction := by
    rcases List.mem_cons.mp hmem with rfl | hmem
    · exact ⟨location, declaration, _, rfl, (hoisted_hoist ..).mpr (.inl rfl)⟩
    · obtain ⟨location, declaration, id, rfl, h⟩ := hhoisting.placed stmt hmem hfunction
      exact ⟨location, declaration, id, rfl, (hoisted_hoist ..).mpr (.inr h)⟩

/-- A diagnostic of the declarations is never taken back. -/
theorem errors_hoistFunctions (stmts hoisted : List Stmt) (a : Analysis)
    (herrors : (hoistFunctions hoisted stmts a).2.errors = #[]) : a.errors = #[] := by
  induction stmts generalizing hoisted a with
  | nil => exact herrors
  | cons stmt rest ih =>
    cases stmt with
    | function location declaration resolution =>
      have hlater := ih _ _ herrors
      exact (keeps_declareName declaration.name location .initialized a).errors hlater
    | _ => exact ih _ _ herrors

/-- All global functions are declared, and the other statements stay as they are. -/
theorem hoisting_hoistFunctions (stmts : List Stmt) {hoisted : List Stmt} {a : Analysis}
    (hhoisting : Hoisting a hoisted) (herrors : (hoistFunctions hoisted stmts a).2.errors = #[]) :
    Hoisting (hoistFunctions hoisted stmts a).2 (hoistFunctions hoisted stmts a).1 := by
  induction stmts generalizing hoisted a with
  | nil =>
    refine { hhoisting with listed := fun id h => ?_, placed := fun stmt hmem hfunction => ?_ }
    · obtain ⟨location, declaration, hmem⟩ := hhoisting.listed id h
      exact ⟨location, declaration, List.mem_reverse.mpr hmem⟩
    · exact hhoisting.placed stmt (List.mem_reverse.mp hmem) hfunction
  | cons stmt rest ih =>
    have hplain (hplain : stmt.isFunction = false) : Hoisting a (stmt :: hoisted) := by
      refine { hhoisting with listed := fun id h => ?_, placed := fun other hmem hfunction => ?_ }
      · obtain ⟨location, declaration, hmem⟩ := hhoisting.listed id h
        exact ⟨location, declaration, List.mem_cons_of_mem _ hmem⟩
      · rcases List.mem_cons.mp hmem with rfl | hmem
        · rw [hplain] at hfunction
          cases hfunction
        · exact hhoisting.placed other hmem hfunction
    cases stmt with
    | function location declaration resolution =>
      have hlater : (declareName declaration.name location .initialized a).2.errors = #[] :=
        (errors_hoistFunctions rest _ _ herrors :)
      have heq := declareName_eq hhoisting.loud hlater (.refl _)
      have hnext := hoisting_hoist hhoisting location declaration
      have hstep : hoistFunctions hoisted (.function location declaration resolution :: rest) a =
          hoistFunctions
            (.function location declaration ⟨some (declareName declaration.name location .initialized a).1, true⟩ ::
            hoisted) rest { (declareName declaration.name location .initialized a).2 with
              symbols := (declareName declaration.name location .initialized a).2.symbols.modify
                (declareName declaration.name location .initialized a).1 fun symbol =>
                  { symbol with hoisted := true } } := rfl
      rw [hstep, heq] at herrors ⊢
      exact ih hnext herrors
    | _ => exact ih (hplain rfl) herrors

/-- A global function in a program that has been looked at may run once what it may read is defined. -/
def ReadyStmt (final : Analysis) (stmt : Stmt) : Prop :=
  stmt.isFunction = true → ∃ location declaration id, stmt = .function location declaration ⟨some id, true⟩ ∧
    final.Hoisted id ∧
    ∀ defined, final.readiness.Ready id defined → declaration.Timely final.readiness.May defined

theorem ready_checkStmt (haccepted : final.Accepted) {a : Analysis} (hstands : a.Stands none false) {stmt : Stmt}
    (hdeclared : stmt.isFunction = true →
      ∃ location declaration id, stmt = .function location declaration ⟨some id, true⟩ ∧ a.Hoisted id)
    (hextends : (checkStmt stmt a).2.Extends final) : ReadyStmt final (checkStmt stmt a).1 := by
  intro hfunction
  cases hplain : stmt.isFunction with
  | false =>
    rw [isFunction_checkStmt stmt hplain a] at hfunction
    cases hfunction
  | true =>
    obtain ⟨location, ⟨name, isProc, clauses⟩, id, rfl, hhoisted⟩ := hdeclared hplain
    have hbody (flow : FlowState) := servesBody_clauses haccepted (some id) flow clauses []
    have hafter : a.Extends (checkStmt (.function location ⟨name, isProc, clauses⟩ ⟨some id, true⟩) a).2 :=
      (keeps_declaredBody id (keeps_functionBody fun flow => (hbody flow).encloses) a).toExtends
    refine ⟨location, _, id, rfl, ?_, fun defined hready => ?_⟩
    · obtain ⟨symbol, hfound, hflag⟩ := hhoisted
      exact ((hafter.trans hextends).hoisted_iff hfound).mpr hflag
    · exact (ready_declaredBody id hbody hstands.rooted hstands.regular hstands.loud hhoisted hextends defined
        hready).whole

/-- Global functions stay where they are, and are ready. -/
theorem ready_checkStmts (haccepted : final.Accepted) (stmts done : List Stmt) {a : Analysis}
    (hstands : a.Stands none false) (hplaced : ∀ stmt ∈ stmts, stmt.Placed)
    (hdeclared : ∀ stmt ∈ stmts, stmt.isFunction = true →
      ∃ location declaration id, stmt = .function location declaration ⟨some id, true⟩ ∧ a.Hoisted id)
    (hextends : (checkStmts stmts done a).2.Extends final) :
    (∀ stmt ∈ done, stmt ∈ (checkStmts stmts done a).1) ∧
      (∀ location declaration id, .function location declaration ⟨some id, true⟩ ∈ stmts →
        ∃ body, .function location body ⟨some id, true⟩ ∈ (checkStmts stmts done a).1) ∧
      ∀ stmt ∈ (checkStmts stmts done a).1, stmt ∈ done ∨ ReadyStmt final stmt := by
  induction stmts generalizing done a with
  | nil =>
    exact ⟨fun _ h => List.mem_reverse.mpr h, fun _ _ _ h => (by cases h), fun _ h => .inl (List.mem_reverse.mp h)⟩
  | cons stmt rest ih =>
    have hstmt := runs_stmt haccepted none false stmt fun _ => hplaced _ (List.mem_cons_self ..)
    have hrest := runs_stmts haccepted none false rest ((checkStmt stmt a).1 :: done) fun _ other h =>
      hplaced other (List.mem_cons_of_mem _ h)
    have hfirst : (checkStmt stmt a).2.Extends final := (hrest.keeps _).toExtends.trans hextends
    have hlater : ∀ other ∈ rest, other.isFunction = true → ∃ location declaration id,
        other = .function location declaration ⟨some id, true⟩ ∧ (checkStmt stmt a).2.Hoisted id := by
      intro other h hfunction
      obtain ⟨location, declaration, id, rfl, symbol, hfound, hflag⟩ :=
        hdeclared other (List.mem_cons_of_mem _ h) hfunction
      exact ⟨location, declaration, id, rfl, ((hstmt.keeps a).hoisted_iff hfound).mpr hflag⟩
    obtain ⟨hkept, hfound, hready⟩ := ih ((checkStmt stmt a).1 :: done) (hstands.keep (hstmt.keeps a))
      (fun other h => hplaced other (List.mem_cons_of_mem _ h)) hlater hextends
    · refine ⟨fun other h => hkept other (List.mem_cons_of_mem _ h), fun location declaration id h => ?_,
        fun other h => ?_⟩
      · rcases List.mem_cons.mp h with rfl | h
        · obtain ⟨name, isProc, clauses⟩ := declaration
          refine ⟨⟨name, isProc, (declaredBody id (functionBody fun flow => checkClauses flow clauses []) a).1⟩, ?_⟩
          exact hkept _ (List.mem_cons_self ..)
        · exact hfound location declaration id h
      · rcases hready other h with hdone | hready
        · rcases List.mem_cons.mp hdone with rfl | hdone
          · exact .inr (ready_checkStmt haccepted hstands (hdeclared _ (List.mem_cons_self ..)) hfirst)
          · exact .inl hdone
        · exact .inr hready

/-- A check that finds nothing wrong has changed nothing, and what it checks is as wanted. -/
structure Confirms (step : Check Unit) (good : Analysis → Prop) : Prop where
  keeps : Keeps step
  confirms : ∀ a, a.silence = 0 → (step a).2.errors = #[] → (step a).2 = a ∧ good a

theorem confirms_pure {good : Analysis → Prop} (hgood : ∀ a, good a) : Confirms (pure ()) good :=
  ⟨keeps_pure (), fun a _ _ => ⟨rfl, hgood a⟩⟩

theorem confirms_report (kind : ErrorKind) (message : String) (location : Location) (name : String)
    (good : Analysis → Prop) : Confirms (report kind message location name) good :=
  ⟨keeps_report kind message location name, fun _ hloud herrors => (errors_report hloud herrors (.refl _)).elim⟩

theorem confirms_get {next : Analysis → Check Unit} {good : Analysis → Analysis → Prop}
    (hnext : ∀ a, Confirms (next a) (good a)) : Confirms (get >>= next) fun a => good a a :=
  ⟨keeps_get fun a => (hnext a).keeps, fun a hloud herrors => (hnext a).confirms a hloud herrors⟩

theorem confirms_forM {γ : Type} (items : List γ) {step : γ → Check Unit} {good : γ → Analysis → Prop}
    (hstep : ∀ item ∈ items, Confirms (step item) (good item)) :
    Confirms (items.forM step) fun a => ∀ item ∈ items, good item a := by
  induction items with
  | nil => exact confirms_pure fun _ _ h => by cases h
  | cons item rest ih =>
    have hitem := hstep item (List.mem_cons_self ..)
    have hrest := ih fun other h => hstep other (List.mem_cons_of_mem _ h)
    refine ⟨hitem.keeps.bind fun _ => hrest.keeps, fun a hloud herrors => ?_⟩
    have hfirst := (hrest.keeps (step item a).2).errors herrors
    obtain ⟨hsame, hgood⟩ := hitem.confirms a hloud hfirst
    change (rest.forM step (step item a).2).2.errors = #[] at herrors
    change (rest.forM step (step item a).2).2 = a ∧ _
    rw [hsame] at herrors ⊢
    obtain ⟨hsame, hothers⟩ := hrest.confirms a hloud herrors
    exact ⟨hsame, List.forall_mem_cons.mpr ⟨hgood, hothers⟩⟩

/-- What a global function may read is initialized where it is named. -/
theorem confirms_checkReference (reference : PendingReference) :
    Confirms (checkReference reference) fun a => ∀ id ∈ a.summaries.globalReads reference.function,
      reference.flow.get id = .initialized := by
  refine @confirms_get _ (fun read _ => ∀ id ∈ read.summaries.globalReads reference.function,
      reference.flow.get id = .initialized) fun a => ?_
  refine confirms_forM _ fun id _ => ?_
  cases hstate : reference.flow.get id with
  | initialized => exact confirms_pure fun _ => rfl
  | uninitialized => exact confirms_report ..
  | moved => exact confirms_report ..

theorem confirms_checkPendingReferences : Confirms checkPendingReferences fun a =>
    ∀ reference ∈ a.pending, ∀ id ∈ a.summaries.globalReads reference.function,
      reference.flow.get id = .initialized := by
  refine @confirms_get _ (fun read a => ∀ reference ∈ read.pending, ∀ id ∈ a.summaries.globalReads reference.function,
    reference.flow.get id = .initialized) fun read => ?_
  obtain ⟨items, hitems⟩ : ∃ items : List PendingReference, read.pending = items.toArray :=
    ⟨_, (Array.toArray_toList ..).symm⟩
  rw [hitems, List.forM_toArray' _ _ rfl]
  simp only [List.mem_toArray]
  exact confirms_forM items fun reference _ => confirms_checkReference reference

theorem accepted_empty : Accepted {} where
  regular := by
    refine ⟨fun scope hscope name id h => ?_, fun function id h => ?_, fun id symbol h => ?_⟩
    · rw [List.mem_singleton.mp hscope] at h
      simp at h
    · simp [Summaries.of] at h
    · simp at h
  errors := rfl
  pending _ h := by simp at h

theorem keeps_checkStmts (stmts done : List Stmt) : Keeps (checkStmts stmts done) :=
  (runs_stmts accepted_empty none true stmts done fun h => by cases h).keeps

theorem hoisting_empty : Hoisting {} [] where
  regular := accepted_empty.regular
  loud := rfl
  outside := rfl
  flat := rfl
  outermost := rfl
  reachable := rfl
  known _ h := by simp [FlowState.get] at h
  listed _ h := by
    obtain ⟨symbol, h, -⟩ := h
    simp at h
  placed _ h := by cases h

theorem Hoisting.stands {a : Analysis} {hoisted : List Stmt} (hhoisting : Hoisting a hoisted) :
    a.Stands none false where
  regular := hhoisting.regular
  loud := hhoisting.loud
  function := hhoisting.outside
  rooted _ := hhoisting.flat
  deep h := (h rfl).elim
  inside h := by cases h

end Check

open Check Analysis

/-- An accepted program reads its globals in time. -/
theorem Program.readiness_of_accepted (program : Program) (hshape : program.wellShaped = true)
    (haccepted : program.analyze.diagnostics = []) :
    ∃ readiness : Readiness, readiness.Respected program.analyze.program.statements := by
  obtain ⟨hoisted, hhoisted⟩ : ∃ hoisted, hoistFunctions [] program.statements {} = hoisted := ⟨_, rfl⟩
  obtain ⟨checked, hchecked⟩ : ∃ checked, checkStmts hoisted.1 [] hoisted.2 = checked := ⟨_, rfl⟩
  have hstatements : program.analyze.program.statements = checked.1 := by
    subst hchecked hhoisted
    rfl
  have hlast : (checkPendingReferences (exitScope checked.2).2).2.errors = #[] := by
    subst hchecked hhoisted
    exact Array.toList_eq_nil_iff.mp haccepted
  have hkeeps : hoisted.2.Keeps checked.2 := hchecked ▸ keeps_checkStmts hoisted.1 [] hoisted.2
  have herrors : checked.2.errors = #[] :=
    (extends_exitScope checked.2).errors ((confirms_checkPendingReferences.keeps _).errors hlast)
  have hhoisting : Hoisting hoisted.2 hoisted.1 := by
    have h := hkeeps.errors herrors
    rw [← hhoisted] at h ⊢
    exact hoisting_hoistFunctions program.statements hoisting_empty h
  have hstands := hhoisting.stands
  have hfinal : checked.2.Accepted := by
    refine ⟨hkeeps.regular hstands.rooted hhoisting.regular, herrors, ?_⟩
    have hloud : (exitScope checked.2).2.silence = 0 := by
      rw [exitScope_snd]
      exact hkeeps.silence.trans hhoisting.loud
    obtain ⟨-, hpending⟩ := confirms_checkPendingReferences.confirms _ hloud hlast
    rw [exitScope_snd] at hpending
    exact hpending
  have hplaced : ∀ stmt ∈ hoisted.1, stmt.Placed := by
    intro stmt hmem
    have hshaped : stmtsWellShaped hoisted.1 = true := by
      rw [← hhoisted, ← Stmt.wellShaped_sources, (source_hoistFunctions program.statements [] {}).same]
      exact (Stmt.wellShaped_sources _).trans hshape
    cases hfunction : stmt.isFunction with
    | false => exact stmt.placed_of_wellShaped (wellShaped_of_mem hshaped hmem) hfunction
    | true =>
      obtain ⟨location, declaration, id, rfl, -⟩ := hhoisting.placed stmt hmem hfunction
      exact ⟨id, rfl⟩
  have hextends : (checkStmts hoisted.1 [] hoisted.2).2.Extends checked.2 := hchecked ▸ .refl _
  obtain ⟨-, hfound, hready⟩ := ready_checkStmts hfinal hoisted.1 [] hstands hplaced hhoisting.placed hextends
  rw [hchecked] at hfound hready
  refine ⟨checked.2.readiness, hstatements ▸ ⟨fun id h => ?_, fun location declaration id h => ?_, ?_⟩⟩
  · obtain ⟨location, declaration, hmem⟩ := hhoisting.listed id (hkeeps.hoisted id h)
    obtain ⟨body, hbody⟩ := hfound location declaration id hmem
    exact ⟨location, body, hbody⟩
  · obtain ⟨_, _, _, hsame, hfunction, hbody⟩ := (hready _ h).resolve_left List.not_mem_nil rfl
    cases hsame
    exact ⟨hfunction, hbody⟩
  · have hgrants : checked.2.Grants none hoisted.2.flow checked.2.readiness.functions := by
      refine ⟨subset_rfl, hhoisting.reachable, fun id _ h => ?_⟩
      obtain ⟨symbol, hsymbol, hflag⟩ := hhoisting.known id h
      exact (hkeeps.hoisted_iff hsymbol).mpr hflag
    have hruns := (runs_stmts hfinal none false hoisted.1 [] fun _ => hplaced).runs hoisted.2 hstands hextends _ .free
      hgrants (fun _ _ _ => trivial) (fun _ _ _ => trivial) fun _ _ => trivial
    rw [hchecked] at hruns
    exact hruns checked.1 rfl

end OwnScript
