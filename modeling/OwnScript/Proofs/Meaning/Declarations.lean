import OwnScript.Proofs.Globals.Scripts
import OwnScript.Proofs.Meaning.Mirrors
import OwnScript.Proofs.Meaning.Frames

/-!
What analysis writes on the names of a program fits what the code is generated for. A declaration has a number that
no other declaration has, so a variable of the frame is found by its number; and no two declarations of the outermost
scope have the same name, so a global variable is known by its name and by its number alike.
-/

namespace OwnScript

section Outermost

/-- A declaration in the scope that an outline starts in. -/
def Naming.declaration? : Naming → Option (String × Resolution)
  | .declares name resolution => some (name, resolution)
  | .refers _ _ | .scope _ => none

/-- The declarations in the scope that an outline starts in. -/
def declarations (outline : List Naming) : List (String × Resolution) :=
  outline.filterMap Naming.declaration?

variable {outline more : List Naming} {name : String} {resolution : Resolution} {scopes : Scopes}

theorem declarations_append : declarations (outline ++ more) = declarations outline ++ declarations more :=
  List.filterMap_append

/-- The declarations of the outermost scope are among all declarations. -/
theorem bindings_declarations_sublist (outline : List Naming) :
    ((declarations outline).filterMap (·.2.binding)).Sublist (declaredIds outline) := by
  induction outline with
  | nil => exact .slnil
  | cons naming rest ih =>
    rw [declaredIds, mentions, List.filterMap_append]
    cases naming with
    | declares name resolution =>
      change (((name, resolution) :: declarations rest).filterMap (·.2.binding)).Sublist _
      rw [List.filterMap_cons]
      cases hbinding : resolution.binding with
      | none => exact ih.trans (List.sublist_append_right _ _)
      | some id =>
        have hdeclared : [Naming.declares name resolution].filterMap Naming.declared? = [id] := by
          simp [Naming.declared?, hbinding]
        rw [Naming.mentions, hdeclared]
        exact ih.cons_cons id
    | refers name resolution => exact ih
    | scope body => exact ih.trans (List.sublist_append_right _ _)

/-- Where no name is declared twice in one scope, the names that a scope declares are different. -/
theorem nodup_declarations (hobeys : Obeys .duplicateBinding scopes outline) :
    ((declarations outline).map (·.1)).Nodup ∧
      ∀ entry ∈ declarations outline, scopes.innermost.lookup entry.1 = none := by
  induction outline generalizing scopes with
  | nil => exact ⟨List.nodup_nil, nofun⟩
  | cons naming rest ih =>
    obtain ⟨hfirst, hrest⟩ := hobeys
    obtain ⟨hnodup, hnew⟩ := ih hrest
    cases naming with
    | refers name resolution => exact ⟨hnodup, hnew⟩
    | scope body => exact ⟨hnodup, hnew⟩
    | declares name resolution =>
      have hthere : scopes.innermost.lookup name = none := by
        have hfault : scopes.fault (.declares name resolution) ≠ some .duplicateBinding := hfirst
        rw [Scopes.fault] at hfault
        split at hfault
        · exact absurd rfl hfault
        · rename_i hnone
          simpa only [Bool.not_eq_true, Option.isSome_eq_false_iff, Option.isNone_iff_eq_none] using hnone
      have hapart : ∀ entry ∈ declarations rest, entry.1 ≠ name ∧ scopes.innermost.lookup entry.1 = none := by
        intro entry hentry
        have hlookup := hnew entry hentry
        rw [Scopes.lookup_declares] at hlookup
        split at hlookup
        · cases hlookup
        · exact ⟨‹_›, hlookup⟩
      refine ⟨List.nodup_cons.mpr ⟨fun hmem => ?_, hnodup⟩,
        List.forall_mem_cons.mpr ⟨hthere, fun entry hentry => (hapart entry hentry).2⟩⟩
      obtain ⟨entry, hentry, heq⟩ := List.mem_map.mp hmem
      exact (hapart entry hentry).1 heq

end Outermost

section Fitting

variable {nameOf : BindingId → String}

mutual

theorem Naming.fits (naming : Naming) {scopes : Scopes} (hresolves : naming.Throughout Scopes.Resolves scopes)
    (hdistinct : (declaredIds [naming]).Nodup)
    (hapart : ∀ entry ∈ scopes.locals, ∀ id ∈ declaredIds [naming], entry.2.binding ≠ some id)
    (hnames : scopes.outer = [] → ∀ entry ∈ declarations [naming], ∀ id,
      entry.2.binding = some id → nameOf id = entry.1) :
    naming.Throughout (Scopes.Fits nameOf) scopes := by
  cases naming with
  | refers name resolution => exact hresolves
  | declares name resolution =>
    obtain ⟨hbinding, hglobal⟩ : resolution.binding.isSome ∧ (resolution.isGlobal = true ↔ scopes.outer = []) :=
      hresolves
    obtain ⟨id, hid⟩ := Option.isSome_iff_exists.mp hbinding
    have hmem : id ∈ declaredIds [.declares name resolution] :=
      List.mem_filterMap.mpr ⟨_, List.mem_singleton_self _, hid⟩
    exact ⟨id, hid, hglobal, fun houter => hnames houter (name, resolution) (List.mem_singleton_self _) id hid,
      fun entry hentry => hapart entry hentry id hmem⟩
  | scope body =>
    rw [declaredIds, mentions_scope] at hdistinct hapart
    exact fits_of_resolves body hresolves hdistinct hapart fun houter => absurd houter (List.cons_ne_nil _ _)
termination_by structural naming

/-- Names that are resolved lexically fit, if the numbers of declarations are different. -/
theorem fits_of_resolves (outline : List Naming) {scopes : Scopes}
    (hresolves : Throughout Scopes.Resolves scopes outline) (hdistinct : (declaredIds outline).Nodup)
    (hapart : ∀ entry ∈ scopes.locals, ∀ id ∈ declaredIds outline, entry.2.binding ≠ some id)
    (hnames : scopes.outer = [] → ∀ entry ∈ declarations outline, ∀ id,
      entry.2.binding = some id → nameOf id = entry.1) :
    Throughout (Scopes.Fits nameOf) scopes outline := by
  cases outline with
  | nil => trivial
  | cons naming rest =>
    obtain ⟨hfirst, hrest⟩ := hresolves
    have hsplit : declaredIds (naming :: rest) = declaredIds [naming] ++ declaredIds rest :=
      @declaredIds_append [naming] rest
    have hdeclares : declarations (naming :: rest) = declarations [naming] ++ declarations rest :=
      @declarations_append [naming] rest
    rw [hsplit] at hdistinct hapart
    rw [hdeclares] at hnames
    obtain ⟨hone, hothers, hdisjoint⟩ := List.nodup_append.mp hdistinct
    refine ⟨naming.fits hfirst hone (fun entry hentry id hid => hapart entry hentry id (List.mem_append_left _ hid))
      fun houter entry hentry => hnames houter entry (List.mem_append_left _ hentry), ?_⟩
    refine fits_of_resolves rest hrest hothers (fun entry hentry id hid => ?_) fun houter entry hentry =>
      hnames (by rwa [Scopes.outer_after] at houter) entry (List.mem_append_right _ hentry)
    have hold (hentry : entry ∈ scopes.locals) : entry.2.binding ≠ some id :=
      hapart entry hentry id (List.mem_append_right _ hid)
    cases naming with
    | refers name resolution => exact hold hentry
    | scope body => exact hold hentry
    | declares name resolution =>
      by_cases houter : scopes.outer = []
      · rw [Scopes.locals_of_outermost (by rwa [Scopes.outer_after])] at hentry
        cases hentry
      · rw [Scopes.locals_declares houter] at hentry
        rcases List.mem_cons.mp hentry with rfl | hentry
        · intro hbinding
          exact hdisjoint id (List.mem_filterMap.mpr ⟨_, List.mem_singleton_self _, hbinding⟩) id hid rfl
        · exact hold hentry
termination_by structural outline

end

end Fitting

section Globals

variable {entries : List (String × Resolution)} {name : String} {resolution : Resolution} {id : BindingId}

/-- The name of the declaration that has a number. -/
def nameIn (entries : List (String × Resolution)) (id : BindingId) : String :=
  ((entries.find? (·.2.binding = some id)).map (·.1)).getD ""

theorem nameIn_eq (hdistinct : (entries.filterMap (·.2.binding)).Nodup) (hmem : (name, resolution) ∈ entries)
    (hbinding : resolution.binding = some id) : nameIn entries id = name := by
  induction entries with
  | nil => cases hmem
  | cons entry rest ih =>
    rw [nameIn, List.find?_cons]
    rcases List.mem_cons.mp hmem with rfl | hmem
    · simp [hbinding]
    · cases hother : entry.2.binding with
      | none =>
        rw [List.filterMap_cons, hother] at hdistinct
        simpa [nameIn] using ih hdistinct hmem
      | some other =>
        rw [List.filterMap_cons, hother] at hdistinct
        obtain ⟨hnew, hdistinct⟩ := List.nodup_cons.mp hdistinct
        have hne : other ≠ id := by
          rintro rfl
          exact hnew (List.mem_filterMap.mpr ⟨_, hmem, hbinding⟩)
        simpa [nameIn, hne] using ih hdistinct hmem

theorem declarations_of_mem {stmt : Stmt} {stmts : List Stmt} {entry : String × Resolution} (hmem : stmt ∈ stmts)
    (hentry : entry ∈ declarations stmt.outline) : entry ∈ declarations (Stmt.outlines stmts) := by
  induction stmts with
  | nil => cases hmem
  | cons first rest ih =>
    rw [Stmt.outlines, declarations_append]
    rcases List.mem_cons.mp hmem with rfl | hmem
    · exact List.mem_append_left _ hentry
    · exact List.mem_append_right _ (ih hmem)

/-- Slots are given to declarations of the outermost scope. -/
theorem GlobalTable.declared_of_slot {table after : GlobalTable} {stmts : List Stmt} {slot : Nat}
    (htable : table.ofStatements stmts = .ok after)
    (hslot : after.slots[id]? = some slot) :
    (∃ slot, table.slots[id]? = some slot) ∨ ∃ name, (name, ⟨some id, true⟩) ∈ declarations (Stmt.outlines stmts) := by
  refine GlobalTable.ofStatements_induction (motive := fun before => ∀ slot, before.slots[id]? = some slot →
    (∃ slot, table.slots[id]? = some slot) ∨ ∃ name, (name, ⟨some id, true⟩) ∈ declarations (Stmt.outlines stmts))
    (fun stmt hmem before next hbefore hlists slot hslot => ?_) (fun slot hslot => .inl ⟨slot, hslot⟩) htable slot hslot
  cases hlists with
  | @declare location name initial other _ hassigns =>
    rcases hassigns.slots hslot with hold | ⟨rfl, -⟩
    · exact hbefore slot hold
    · refine .inr ⟨name, declarations_of_mem hmem ?_⟩
      rw [Stmt.outline, declarations_append]
      exact List.mem_append_right _ (List.mem_singleton_self _)
  | @function location declaration other _ hassigns =>
    rcases hassigns.slots hslot with hold | ⟨rfl, -⟩
    · exact hbefore slot hold
    · exact .inr ⟨declaration.name, declarations_of_mem hmem (List.mem_cons_self ..)⟩
  | other => exact hbefore slot hslot

variable {program : Program}

/-- The names of a program without functions, in the order of the statements. -/
theorem Program.outline_of_plain (hplain : ∀ stmt ∈ program.statements, stmt.isFunction = false) :
    program.outline = Stmt.outlines program.statements := by
  rw [Program.outline]
  generalize program.statements = stmts at hplain ⊢
  induction stmts with
  | nil => rfl
  | cons stmt rest ih =>
    obtain ⟨hstmt, hrest⟩ := List.forall_mem_cons.mp hplain
    have hnone : rest.flatMap Stmt.early = [] :=
      List.flatMap_eq_nil_iff.mpr fun other hother => Stmt.early_eq_nil (hrest other hother)
    have ih := ih hrest
    rw [hnone, List.nil_append] at ih
    rw [List.flatMap_cons, List.flatMap_cons, Stmt.early_eq_nil hstmt, Stmt.late_eq_outline hstmt, hnone, ih,
      Stmt.outlines]
    rfl

/-- Globals with different numbers have different slots and different names, and all names of the program fit. -/
theorem Program.exists_translation (hresolved : program.LexicallyResolved)
    (hobeys : Obeys .duplicateBinding {} program.outline)
    (hplain : ∀ stmt ∈ program.statements, stmt.isFunction = false) {table : GlobalTable}
    (htable : GlobalTable.ofStatements {} program.statements = .ok table) (code : Listing True) (printed : String) :
    ∃ T : Translation, T.table = table ∧ T.code = code ∧ T.printed = printed ∧
      Throughout (Scopes.Fits T.nameOf) {} (Stmt.outlines program.statements) := by
  obtain ⟨hresolves, hdistinct, -⟩ := hresolved
  rw [Program.outline_of_plain hplain] at hobeys hresolves hdistinct
  have hnodup := hdistinct.sublist (bindings_declarations_sublist _)
  have hname {id : BindingId} {slot : Nat} (hslot : table.slots[id]? = some slot) :
      ∃ name, (name, (⟨some id, true⟩ : Resolution)) ∈ declarations (Stmt.outlines program.statements) ∧
        nameIn (declarations (Stmt.outlines program.statements)) id = name := by
    rcases GlobalTable.declared_of_slot htable hslot with ⟨slot, hnone⟩ | ⟨name, hmem⟩
    · simp at hnone
    · exact ⟨name, hmem, nameIn_eq hnodup hmem rfl⟩
  refine ⟨⟨table, code, nameIn (declarations (Stmt.outlines program.statements)), printed,
    GlobalTable.apart_ofStatements htable, fun first second slot other hfirst hsecond hsame => ?_⟩, rfl, rfl, rfl, ?_⟩
  · obtain ⟨name, hmem, rfl⟩ := hname hfirst
    obtain ⟨_, hmem', rfl⟩ := hname hsecond
    have hentries := List.inj_on_of_nodup_map (nodup_declarations hobeys).1 hmem hmem' hsame
    simpa using congrArg (·.2.binding) hentries
  · exact fits_of_resolves _ hresolves hdistinct nofun fun _ entry hentry id hbinding =>
      nameIn_eq hnodup hentry hbinding

end Globals

end OwnScript
