import OwnScript.Proofs.Meaning.Progress

/-!
A machine that runs the code of a program mirrors a point of the evaluation of the program. Its stack and its
globals hold the values of the evaluation, up to the choice of references; its heap may have lost garbage, and what
it printed is what the evaluation printed. That stays so when garbage is collected and when an instruction is
given up because the heap is full.
-/

namespace OwnScript

open Stateful Machine

/-- A program whose code runs: the slots of its globals, its code, the names of its declarations, and what the
machine had printed before. No two globals share a slot or a name. -/
structure Translation where
  table : GlobalTable
  code : Listing True
  nameOf : BindingId → String
  printed : String
  slotsApart : ∀ (first second : BindingId) (slot : Nat), table.slots[first]? = some slot →
    table.slots[second]? = some slot → first = second
  namesApart : ∀ (first second : BindingId) (slot other : Nat), table.slots[first]? = some slot →
    table.slots[second]? = some other → nameOf first = nameOf second → first = second

/-- The stack of a machine that runs a script: the script itself, and above it values, given from the top down. -/
def pile (script : Value) (values : List Value) : Array Value :=
  (script :: values.reverse).toArray

section Piles

variable (script value : Value) (values above below : List Value)

@[simp] theorem size_pile : (pile script values).size = values.length + 1 := by
  simp [pile]

@[simp] theorem push_pile : (pile script values).push value = pile script (value :: values) := by
  simp [pile]

@[simp] theorem pop_pile : (pile script (value :: values)).pop = pile script values := by
  simp only [pile, List.reverse_cons, List.pop_toArray, ← List.cons_append, List.dropLast_concat]

theorem shrink_pile : (pile script (above ++ below)).shrink (below.length + 1) = pile script below := by
  apply Array.ext'
  rw [Array.toList_shrink]
  simp [pile]

theorem pile_top (distance : Nat) (hdistance : distance < values.length) :
    (pile script values)[values.length - distance]? = values[distance]? := by
  obtain ⟨place, hplace⟩ := Nat.exists_eq_add_of_lt hdistance
  have hindex : values.length - distance = place + 1 := by omega
  rw [hindex]
  simp only [pile, List.getElem?_toArray, List.getElem?_cons_succ]
  rw [List.getElem?_reverse (by omega)]
  congr 1
  omega

theorem pile_slot : (pile script (above ++ value :: below))[1 + below.length]? = some value := by
  have hlength : (above ++ value :: below).length - above.length = 1 + below.length := by simp; omega
  rw [← hlength, pile_top script _ above.length (by simp)]
  simp

theorem set_pile (new : Value) :
    (pile script (above ++ value :: below)).setIfInBounds (1 + below.length) new =
      pile script (above ++ new :: below) := by
  apply Array.ext'
  simp only [pile, Array.toList_setIfInBounds]
  rw [Nat.add_comm]
  simp only [List.set_cons_succ, List.reverse_append, List.reverse_cons, List.append_assoc, List.cons_append,
    List.nil_append]
  rw [List.set_append_right _ _ (by simp)]
  simp

theorem extract_pile :
    (pile script (above ++ below)).extract (below.length + 1) (above.length + below.length + 1) =
      above.reverse.toArray := by
  apply Array.ext'
  simp only [pile, Array.toList_extract, List.reverse_append, List.extract_eq_take_drop]
  have hcount : above.length + below.length + 1 - (below.length + 1) = above.reverse.length := by simp
  rw [List.drop_succ_cons, List.drop_left' (List.length_reverse ..), hcount, List.take_length]

end Piles

/-- A machine that runs the code of a program mirrors a point of the evaluation: the values on its stack, from the
top down, and what the evaluation has made so far. -/
structure Mirrors (T : Translation) (ρ : Renaming) (stack : List Value) (w : World) (m : Machine) : Prop where
  running : m.halted = false
  chunk : m.chunk = some T.code.chunk
  frames : ∃ frame, m.frames = #[frame] ∧ frame.base = 1 ∧ frame.caller = none
  cells : m.openCells = []
  output : m.output = T.printed ++ w.output
  heap : ∃ config, Heap.Corresponds ρ { w.heap with config } m.heap
  stack : ∃ script values, m.stack = pile script values ∧ List.Forall₂ (Value.Related ρ) stack values
  globals : ∀ id slot, T.table.slots[id]? = some slot → ∃ found, m.globals[slot]? = some found ∧
    Option.Rel (Value.Related ρ) (w.globals.lookup (T.nameOf id)) found
  named : m.globals.size ≤ m.unit.globalNames.size

/-- A machine that mirrors a point of the evaluation before the instruction at an offset. -/
structure Stands (T : Translation) (offset : Nat) (stack : List Value) (w : World) (m : Machine) : Prop where
  ip : m.ip = offset
  mirrors : ∃ ρ, Mirrors T ρ stack w m

variable {T : Translation} {ρ : Renaming} {stack : List Value} {w : World} {m after : Machine} {offset : Nat}

theorem Mirrors.collectGarbage (hmirrors : Mirrors T ρ stack w m) : ∃ σ, Mirrors T σ stack w m.collectGarbage := by
  obtain ⟨config, hheap⟩ := hmirrors.heap
  have hreached {first second : Value} (hrel : Value.Related ρ first second) (hroot : second ∈ m.roots) :
      Value.Related (ρ.swap.keeping (m.heap.Reachable m.roots) fun _ => True).swap first second :=
    (hrel.swap.keeping (fun ref href => .root hroot href) fun _ _ => trivial).swap
  refine ⟨(ρ.swap.keeping (m.heap.Reachable m.roots) fun _ => True).swap, {
    running := hmirrors.running
    chunk := hmirrors.chunk
    frames := hmirrors.frames
    cells := hmirrors.cells
    output := hmirrors.output
    heap := ⟨config, (hheap.swap.collect_left m.roots).swap⟩
    stack := ?_
    globals := fun id slot hslot => ?_
    named := hmirrors.named }⟩
  · obtain ⟨script, values, hstack, hrel⟩ := hmirrors.stack
    refine ⟨script, values, hstack, forall₂_of_mem hrel fun _ _ second hsecond h => hreached h ?_⟩
    refine stack_mem_roots ?_
    simp [hstack, pile, hsecond]
  · obtain ⟨found, hfound, hrel⟩ := hmirrors.globals id slot hslot
    refine ⟨found, hfound, ?_⟩
    generalize w.globals.lookup (T.nameOf id) = wanted at hrel ⊢
    cases hrel with
    | none => exact .none
    | some h => exact .some (hreached h (global_mem_roots (Array.mem_toList_iff.mpr (Array.mem_of_getElem? hfound))))

theorem Mirrors.gaveUp (hmirrors : Mirrors T ρ stack w m) (hgave : m.GaveUp after) : Mirrors T ρ stack w after := by
  rw [hgave.rest]
  obtain ⟨config, hheap⟩ := hmirrors.heap
  exact { hmirrors with heap := ⟨config, hheap.alike (.refl _) hgave.heap⟩ }

theorem Stands.safepoint (hstands : Stands T offset stack w m) : Stands T offset stack w m.safepoint := by
  obtain ⟨ρ, hmirrors⟩ := hstands.mirrors
  obtain ⟨trace, hcollected | hsame⟩ := m.safepoint_cases
  · obtain ⟨σ, hafter⟩ := hmirrors.collectGarbage
    rw [hcollected]
    exact ⟨hstands.ip, σ, { hafter with }⟩
  · rw [hsame]
    exact ⟨hstands.ip, ρ, { hmirrors with }⟩

theorem Stands.again (hstands : Stands T offset stack w m) (hpoised : m.Poised) {ip : Nat}
    (hgave : GaveUp { m with ip } after) : Stands T offset stack w (Exec.again after) := by
  obtain ⟨ρ, hmirrors⟩ := hstands.mirrors
  have hback : Mirrors T ρ stack w { m with ip } := { hmirrors with }
  have hafter := hback.gaveUp hgave
  have hreturned : Mirrors T ρ stack w { after with ip := after.instructionStart } := { hafter with }
  obtain ⟨σ, hcollected⟩ := hreturned.collectGarbage
  refine ⟨?_, σ, hcollected⟩
  have hstart := congrArg Machine.instructionStart hgave.rest
  exact (hstart.trans hpoised).trans hstands.ip

namespace Exec

variable {fails : Option ErrorKind} {goal : Machine → Prop} {op : Opcode} {a b : Nat} {height : Option Nat}
  {place : Location}

/-- What becomes of an instruction, whichever machine carries it out that mirrors a point of the evaluation. -/
def Always (T : Translation) (stack : List Value) (w : World) (next : Nat) (fails : Option ErrorKind)
    (goal : Machine → Prop) (step : Exec Unit) : Prop :=
  ∀ ρ m, Mirrors T ρ stack w m → m.ip = next → ComesOut fails goal m (step m)

theorem comesOut_dispatch (hhas : T.code.Has offset height op a b place) (hstands : Stands T offset stack w m)
    (halways : Always T stack w (offset + op.size) fails goal (execute op a b)) :
    ComesOut fails goal { m.safepoint with ip := offset + op.size } (dispatch m.safepoint) := by
  have hsafe := hstands.safepoint
  obtain ⟨ρ, hmirrors⟩ := hsafe.mirrors
  have hnext : m.safepoint.instruction? = some (op, a, b) := by
    rw [instruction?, hmirrors.chunk, hsafe.ip]
    exact hhas.instruction
  rw [dispatch_eq, hnext]
  dsimp only
  rw [hsafe.ip]
  exact halways ρ _ { hmirrors with } rfl

theorem excused (hhas : T.code.Has offset height op a b place) (hstands : Stands T offset stack w m) {ip : Nat}
    {kind : ErrorKind} {diagnostic : Diagnostic}
    (hfailure : BareFailure kind { m.safepoint with ip } after diagnostic)
    (hkind : kind = .stackOverflow ∨ fails = some kind) :
    Excused (fails.map (⟨·, place⟩)) (T.printed ++ w.output) (after.locate diagnostic) after.reset := by
  rcases hkind with hkind | hkind
  · exact .inl (hfailure.kind.trans hkind)
  · obtain ⟨ρ, hmirrors⟩ := hstands.safepoint.mirrors
    refine .inr (.inr ⟨?_, hfailure.output.trans hmirrors.output⟩)
    have hchunk : after.chunk = some T.code.chunk := hfailure.chunk.trans hmirrors.chunk
    have hstart : after.instructionStart = offset :=
      hfailure.start.trans (m.poised_safepoint.trans hstands.safepoint.ip)
    have hplace : (after.locate diagnostic).location = place := by
      simp only [locate, hchunk, hfailure.unplaced, hstart]
      exact hhas.location
    rw [hkind, hplace, ← hfailure.kind]
    rfl

/-- An instruction leads to what it always comes out with. -/
theorem leads_instruction (hhas : T.code.Has offset height op a b place) (hstands : Stands T offset stack w m)
    (halways : Always T stack w (offset + op.size) fails goal (execute op a b)) :
    Leads (Excused (fails.map (⟨·, place⟩)) (T.printed ++ w.output)) goal m := by
  have hrunning : m.halted = false := by
    obtain ⟨ρ, hmirrors⟩ := hstands.mirrors
    exact hmirrors.running
  have hfirst := comesOut_dispatch hhas hstands halways
  generalize hresult : dispatch m.safepoint = result at hfirst
  cases hfirst with
  | passes hgoal =>
    refine .passes hrunning ?_ (.here hgoal)
    rw [complete, hresult]
    rfl
  | overflows hfailure =>
    refine .stops hrunning ?_ (excused hhas hstands hfailure (.inl rfl))
    rw [complete, hresult]
    rfl
  | fails hfails hfailure =>
    refine .stops hrunning ?_ (excused hhas hstands hfailure (.inr hfails))
    rw [complete, hresult]
    rfl
  | @full request middle hgave =>
    have hagain := hstands.safepoint.again m.poised_safepoint hgave
    have hsecond := comesOut_dispatch hhas hagain halways
    generalize hretried : dispatch (again middle).safepoint = retried at hsecond
    cases hsecond with
    | passes hgoal =>
      refine .passes hrunning ?_ (.here hgoal)
      rw [complete, hresult]
      dsimp only
      rw [hretried]
      rfl
    | overflows hfailure =>
      refine .stops hrunning ?_ (excused hhas hagain hfailure (.inl rfl))
      rw [complete, hresult]
      dsimp only
      rw [hretried]
      rfl
    | fails hfails hfailure =>
      refine .stops hrunning ?_ (excused hhas hagain hfailure (.inr hfails))
      rw [complete, hresult]
      dsimp only
      rw [hretried]
      rfl
    | @full second last =>
      refine .stops hrunning (complete_of_full hresult hretried) (.inr (.inl ?_))
      rfl

end Exec

end OwnScript
