import OwnScript.Proofs.Globals.Code
import OwnScript.Proofs.Lowering.Generation

/-!
The code of a script that reads its globals in time is covered from its first instruction on. At first no
global is defined; the code in front of the statements defines the global functions.
-/

namespace OwnScript

namespace GlobalTable

/-- The functions whose closures the globals of a program are given before its statements run. -/
def originals (globals : GlobalTable) (statements : List Stmt) : Originals := fun slot =>
  { function | ∃ prototype location declaration id, ∃ F : Listing True, function = some prototype ∧
      Stmt.function location declaration ⟨some id, true⟩ ∈ statements ∧ globals.slots[id]? = some slot ∧
      PrototypeCode globals F location prototype declaration }

/-- The slots of the global functions among statements. -/
def hoisted (globals : GlobalTable) (statements : List Stmt) : Set Nat :=
  { slot | ∃ location declaration id, Stmt.function location declaration ⟨some id, true⟩ ∈ statements ∧
      globals.slots[id]? = some slot }

end GlobalTable

variable {globals : GlobalTable} {readiness : Readiness} {statements : List Stmt}

/-- In a program that reads its globals in time, the first functions of a global may run where the global may
be read. -/
theorem Readiness.Respected.prepared (hrespected : readiness.Respected statements) (hapart : globals.Apart) (n : Nat) :
    Prepared readiness globals (globals.originals statements) n := by
  induction n with
  | zero => exact fun m hm => absurd hm (Nat.not_lt_zero m)
  | succ n ih =>
    rintro m hm defined id slot hslot ⟨-, hready⟩ function
      ⟨prototype, location, declaration, other, F, rfl, hmem, hother, hcode⟩
    obtain rfl := hapart id other slot hslot hother
    obtain ⟨hlisted, htimely⟩ := hrespected.functions location declaration id hmem
    exact PrototypeCode.entered declaration hcode (htimely defined (hready hlisted))
      (ih.fewer (Nat.le_of_lt_succ hm))

/-- The code that makes the global functions. -/
theorem HoistCode.covered {F : Listing True} {n p q : Nat} {stmts : List Stmt}
    (hcode : HoistCode globals F p stmts q) (hstmts : ∀ stmt ∈ stmts, stmt ∈ statements) {defined : Set Nat}
    (hnext : F.Covered (globals.originals statements) n q (globals.hoisted stmts ∪ defined)) :
    F.Covered (globals.originals statements) n p defined := by
  induction hcode generalizing defined with
  | nil =>
    refine hnext.mono ?_
    rintro slot (⟨_, _, _, h, -⟩ | h)
    · cases h
    · exact h
  | @function p after slot location declaration id rest hclosure hslot hset hpop _ ih =>
    cases hclosure with
    | intro hhas hfound hprototype =>
      refine covered_hoist hhas hfound ⟨_, _, _, _, _, rfl, hstmts _ (List.mem_cons_self ..), hslot, hprototype⟩ hset
        hpop (ih (fun stmt h => hstmts stmt (List.mem_cons_of_mem _ h)) (hnext.mono ?_))
      rintro other (⟨place, found, id, hmem, hother⟩ | h)
      · rcases List.mem_cons.mp hmem with hsame | hmem
        · cases hsame
          exact .inr (.inl (Option.some.inj (hother.symm.trans hslot)))
        · exact .inl ⟨place, found, id, hmem, hother⟩
      · exact .inr (.inr h)
  | @skip p after stmt rest hother _ ih =>
    refine ih (fun stmt h => hstmts stmt (List.mem_cons_of_mem _ h)) (hnext.mono ?_)
    rintro slot (⟨place, found, id, hmem, hslot⟩ | h)
    · rcases List.mem_cons.mp hmem with hsame | hmem
      · exact absurd hsame.symm (hother place found id)
      · exact .inl ⟨place, found, id, hmem, hslot⟩
    · exact .inr h

/-- The code of a script. -/
theorem ScriptCode.covered {F : Listing True} {prototype : Prototype}
    (hcode : ScriptCode globals F prototype statements) (hrespected : readiness.Respected statements)
    (hapart : globals.Apart) (n : Nat) : F.Covered (globals.originals statements) n 0 ∅ := by
  cases hcode with
  | intro _ hhoist hstmts hhalt =>
    have hstart := StmtsCode.covered statements hstmts hrespected.statements (hrespected.prepared hapart n) .none
      fun _ _ => covered_end hhalt rfl fun _ => rfl
    refine hhoist.covered (fun _ h => h) (hstart.mono ?_)
    rintro slot ⟨id, hid, hslot⟩
    obtain ⟨location, declaration, hmem⟩ := hrespected.listed id hid
    exact .inl ⟨location, declaration, id, hmem, hslot⟩

/-- The script of a program that reads its globals in time may run. -/
theorem ScriptCode.runnable {F : Listing True} {prototype : Prototype}
    (hcode : ScriptCode globals F prototype statements) (hrespected : readiness.Respected statements)
    (hapart : globals.Apart) : Runnable (globals.originals statements) ∅ (some prototype) := by
  have hcovered := hcode.covered hrespected hapart
  cases hcode with
  | intro hchunk => exact ⟨prototype, F.chunk, rfl, hchunk, hcovered⟩

end OwnScript
