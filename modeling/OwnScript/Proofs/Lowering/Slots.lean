import OwnScript.Lowering.Compile
import OwnScript.Proofs.Code.Verified

/-!
The slots of global variables. Code generation gives them out before it writes the first instruction, to the
declarations in the outermost scope, in order.
-/

namespace OwnScript

/-- The number of a declaration that is a statement of the outermost scope. -/
def Stmt.globalId? : Stmt → Option BindingId
  | .declare _ _ _ ⟨some id, true⟩ | .function _ _ ⟨some id, true⟩ => some id
  | _ => none

namespace GlobalTable

/-- What comes of a table when a variable is given a slot. -/
inductive Assigns (table : GlobalTable) (id : BindingId) (name : String) : GlobalTable → Prop where
  | known {slot : Nat} (hslot : table.slots[id]? = some slot) : Assigns table id name table
  | new (hroom : table.names.size ≤ maxOperand) :
    Assigns table id name { table with
      slots := table.slots.insert id table.names.size
      names := table.names.push name }

/-- What comes of a table at a statement. -/
inductive Lists (table : GlobalTable) : Stmt → GlobalTable → Prop where
  | declare {location : Location} {name : String} {initial : Expr} {id : BindingId} {next : GlobalTable}
      (hassigns : table.Assigns id name next) :
    Lists table (.declare location name initial ⟨some id, true⟩) next
  | function {location : Location} {declaration : Function} {id : BindingId} {next : GlobalTable}
      (hassigns : table.Assigns id declaration.name next) :
    Lists table (.function location declaration ⟨some id, true⟩)
      { next with entryPoints := next.entryPoints.insert declaration.name (next.slots[id]?.getD 0) }
  | other {stmt : Stmt} (hnone : stmt.globalId? = none) : Lists table stmt table

variable {table next after : GlobalTable} {id : BindingId} {name : String} {location : Location} {stmt : Stmt}
  {stmts rest : List Stmt}

theorem assigns_of_ok (hassign : table.assign id name location = .ok next) : table.Assigns id name next := by
  unfold assign at hassign
  split at hassign
  · rename_i hcontains
    cases hassign
    exact .known (Std.TreeMap.getElem?_eq_some_getElem (Std.TreeMap.contains_iff_mem.mp hcontains))
  · split at hassign
    · cases hassign
    · cases hassign
      exact .new (Nat.le_of_not_lt ‹_›)

/-- A variable that was given a slot has one, and the names only get more. -/
theorem Assigns.grows (hassigns : table.Assigns id name next) : next.entryPoints = table.entryPoints ∧
    table.names.size ≤ next.names.size ∧ ∃ slot, next.slots[id]? = some slot := by
  cases hassigns with
  | known hslot => exact ⟨rfl, le_rfl, _, hslot⟩
  | new => exact ⟨rfl, by simp, _, Std.TreeMap.getElem?_insert_self⟩

/-- A slot after that was there before, or is new and the next one. -/
theorem Assigns.slots (hassigns : table.Assigns id name next) {other : BindingId} {slot : Nat}
    (hslot : next.slots[other]? = some slot) :
    table.slots[other]? = some slot ∨
      other = id ∧ slot = table.names.size ∧ next.names.size = table.names.size + 1 := by
  cases hassigns with
  | known => exact .inl hslot
  | new =>
    rw [Std.TreeMap.getElem?_insert] at hslot
    split at hslot
    · rename_i hsame
      exact .inr ⟨(compare_eq_iff_eq.mp hsame).symm, (Option.some.inj hslot).symm, Array.size_push ..⟩
    · exact .inl hslot

/-- A variable that has a slot keeps one. -/
theorem Assigns.keeps (hassigns : table.Assigns id name next) {other : BindingId}
    (hslot : (table.slots[other]?).isSome) :
    (next.slots[other]?).isSome := by
  cases hassigns with
  | known => exact hslot
  | new =>
    rw [Std.TreeMap.getElem?_insert]
    split
    · rfl
    · exact hslot

theorem ofStatements_cons (htable : table.ofStatements (stmt :: rest) = .ok after) :
    ∃ next, table.Lists stmt next ∧ next.ofStatements rest = .ok after := by
  unfold ofStatements at htable
  split at htable
  · rename_i hcons
    cases hcons
  · rename_i hcons
    cases hcons
    obtain ⟨next, hassign, hrest⟩ := except_bind_eq_ok.mp htable
    exact ⟨next, .declare (assigns_of_ok hassign), hrest⟩
  · rename_i hcons
    cases hcons
    obtain ⟨next, hassign, hrest⟩ := except_bind_eq_ok.mp htable
    exact ⟨_, .function (assigns_of_ok hassign), hrest⟩
  · rename_i hdeclare hfunction hcons
    cases hcons
    refine ⟨table, .other ?_, htable⟩
    unfold Stmt.globalId?
    split
    · exact (hdeclare _ _ _ _ rfl).elim
    · exact (hfunction _ _ _ rfl).elim
    · rfl

theorem assign_eq_error {fault : LoweringFault} (hassign : table.assign id name location = .error fault) :
    ∃ diagnostic, fault = .rejected diagnostic ∧ diagnostic.kind = .limitExceeded := by
  unfold assign at hassign
  split at hassign
  · cases hassign
  · split at hassign
    · cases hassign
      exact ⟨_, rfl, rfl⟩
    · cases hassign

/-- There are slots for all variables, unless there are too many. -/
theorem ofStatements_eq_error {fault : LoweringFault} (htable : table.ofStatements stmts = .error fault) :
    ∃ diagnostic, fault = .rejected diagnostic ∧ diagnostic.kind = .limitExceeded := by
  induction stmts generalizing table with
  | nil => cases htable
  | cons stmt rest ih =>
    have hassigned {id : BindingId} {name : String} {location : Location} {next : GlobalTable → GlobalTable}
        (hboth : (table.assign id name location >>= fun after => (next after).ofStatements rest) = .error fault) :
        ∃ diagnostic, fault = .rejected diagnostic ∧ diagnostic.kind = .limitExceeded := by
      cases hassign : table.assign id name location with
      | error =>
        rw [hassign] at hboth
        cases hboth
        exact assign_eq_error hassign
      | ok after =>
        rw [hassign] at hboth
        exact ih hboth
    unfold ofStatements at htable
    split at htable
    · rename_i hcons
      cases hcons
    · rename_i hcons
      cases hcons
      exact hassigned htable
    · rename_i hcons
      cases hcons
      exact hassigned htable
    · rename_i hcons
      cases hcons
      exact ih htable

/-- What each statement preserves holds in the end. -/
theorem ofStatements_induction {motive : GlobalTable → Prop}
    (hstep : ∀ stmt ∈ stmts, ∀ table next : GlobalTable, motive table → table.Lists stmt next → motive next)
    (hstart : motive table) (htable : table.ofStatements stmts = .ok after) : motive after := by
  induction stmts generalizing table with
  | nil =>
    cases htable
    exact hstart
  | cons stmt rest ih =>
    obtain ⟨next, hlists, hrest⟩ := ofStatements_cons htable
    obtain ⟨hfirst, hothers⟩ := List.forall_mem_cons.mp hstep
    exact ih hothers (hfirst table next hstart hlists) hrest

section Slots

/-- Every slot that was given out fits in an operand. -/
structure Fits (table : GlobalTable) : Prop where
  few : table.names.size ≤ maxOperand + 1
  slots : ∀ (id : BindingId) (slot : Nat), table.slots[id]? = some slot → slot < table.names.size

theorem fits_empty : Fits {} :=
  ⟨Nat.zero_le _, fun _ _ h => by simp at h⟩

theorem Fits.assign (hfits : table.Fits) (hassigns : table.Assigns id name next) : next.Fits := by
  have hmore := hassigns.grows.2.1
  refine ⟨?_, fun other slot hslot => ?_⟩
  · cases hassigns with
    | known => exact hfits.few
    | new hroom =>
      rw [Array.size_push]
      exact Nat.succ_le_succ hroom
  · rcases hassigns.slots hslot with hold | ⟨-, rfl, hsize⟩
    · exact (hfits.slots other slot hold).trans_le hmore
    · omega

theorem Fits.lists (hfits : table.Fits) (hlists : table.Lists stmt next) : next.Fits := by
  cases hlists with
  | declare hassigns => exact hfits.assign hassigns
  | function hassigns => exact ⟨(hfits.assign hassigns).few, (hfits.assign hassigns).slots⟩
  | other => exact hfits

theorem Fits.ofStatements (hfits : table.Fits) (htable : table.ofStatements stmts = .ok after) : after.Fits :=
  ofStatements_induction (fun _ _ _ _ h hlists => h.lists hlists) hfits htable

/-- What a host may call has a slot. -/
def EntriesWithin (table : GlobalTable) : Prop :=
  ∀ (name : String) (slot : Nat), table.entryPoints[name]? = some slot → slot < table.names.size

theorem EntriesWithin.assign (hentries : table.EntriesWithin) (hassigns : table.Assigns id name next) :
    next.EntriesWithin := by
  obtain ⟨hsame, hmore, -⟩ := hassigns.grows
  intro name slot hslot
  rw [hsame] at hslot
  exact (hentries name slot hslot).trans_le hmore

theorem EntriesWithin.lists (hentries : table.EntriesWithin) (hfits : table.Fits) (hlists : table.Lists stmt next) :
    next.EntriesWithin := by
  cases hlists with
  | declare hassigns => exact hentries.assign hassigns
  | @function _ declaration id after hassigns =>
    obtain ⟨slot, hslot⟩ := hassigns.grows.2.2
    intro name found hfound
    change found < after.names.size
    rw [Std.TreeMap.getElem?_insert, hslot] at hfound
    split at hfound
    · cases hfound
      exact (hfits.assign hassigns).slots id slot hslot
    · exact hentries.assign hassigns name found hfound
  | other => exact hentries

theorem EntriesWithin.ofStatements (hfits : table.Fits) (hentries : table.EntriesWithin)
    (htable : table.ofStatements stmts = .ok after) : after.EntriesWithin := by
  have hboth : after.Fits ∧ after.EntriesWithin :=
    ofStatements_induction (motive := fun table => table.Fits ∧ table.EntriesWithin)
      (fun _ _ _ _ h hlists => ⟨h.1.lists hlists, h.2.lists h.1 hlists⟩) ⟨hfits, hentries⟩ htable
  exact hboth.2

/-- No two globals share a slot. -/
def Apart (table : GlobalTable) : Prop :=
  ∀ (first second : BindingId) (slot : Nat), table.slots[first]? = some slot → table.slots[second]? = some slot →
    first = second

theorem Apart.assign (hapart : table.Apart) (hfits : table.Fits) (hassigns : table.Assigns id name next) :
    next.Apart := by
  -- A new slot is higher than every slot that was given out before.
  intro first second slot hfirst hsecond
  rcases hassigns.slots hfirst with hfirst | ⟨rfl, rfl, -⟩
  · rcases hassigns.slots hsecond with hsecond | ⟨-, rfl, -⟩
    · exact hapart first second slot hfirst hsecond
    · exact absurd (hfits.slots first _ hfirst) (Nat.lt_irrefl _)
  · rcases hassigns.slots hsecond with hsecond | ⟨rfl, -⟩
    · exact absurd (hfits.slots second _ hsecond) (Nat.lt_irrefl _)
    · rfl

theorem Apart.lists (hapart : table.Apart) (hfits : table.Fits) (hlists : table.Lists stmt next) : next.Apart := by
  cases hlists with
  | declare hassigns => exact hapart.assign hfits hassigns
  | @function _ _ _ after hassigns =>
    have hafter : after.Apart := hapart.assign hfits hassigns
    exact hafter
  | other => exact hapart

/-- The slots that a program gives to its globals are different. -/
theorem apart_ofStatements (htable : ofStatements {} stmts = .ok table) : table.Apart := by
  have hboth : table.Fits ∧ table.Apart :=
    ofStatements_induction (motive := fun table => table.Fits ∧ table.Apart)
      (fun _ _ _ _ h hlists => ⟨h.1.lists hlists, h.2.lists h.1 hlists⟩)
      ⟨fits_empty, fun _ _ _ h => by simp at h⟩ htable
  exact hboth.2

theorem Lists.keeps (hlists : table.Lists stmt next) (hslot : (table.slots[id]?).isSome) :
    (next.slots[id]?).isSome := by
  cases hlists with
  | declare hassigns => exact hassigns.keeps hslot
  | function hassigns => exact hassigns.keeps hslot
  | other => exact hslot

theorem Lists.slot (hlists : table.Lists stmt next) (hid : stmt.globalId? = some id) : (next.slots[id]?).isSome := by
  cases hlists with
  | declare hassigns =>
    cases hid
    exact Option.isSome_iff_exists.mpr hassigns.grows.2.2
  | function hassigns =>
    cases hid
    exact Option.isSome_iff_exists.mpr hassigns.grows.2.2
  | other hnone => rw [hnone] at hid; cases hid

/-- Declarations of the outermost scope have slots. -/
theorem slots_ofStatements (htable : table.ofStatements stmts = .ok after) {stmt : Stmt} (hmem : stmt ∈ stmts)
    (hid : stmt.globalId? = some id) : (after.slots[id]?).isSome := by
  induction stmts generalizing table with
  | nil => cases hmem
  | cons first rest ih =>
    obtain ⟨next, hlists, hrest⟩ := ofStatements_cons htable
    rcases List.mem_cons.mp hmem with rfl | hmem
    · exact ofStatements_induction (motive := fun table => (table.slots[id]?).isSome)
        (fun _ _ _ _ h hlists => hlists.keeps h) (hlists.slot hid) hrest
    · exact ih hrest hmem

end Slots

end GlobalTable

end OwnScript
