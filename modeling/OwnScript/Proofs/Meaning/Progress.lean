import OwnScript.Proofs.Host.Schedules
import OwnScript.Proofs.Program.Evaluation

/-!
Where a run gets to. A machine leads to a state if its run passes through it, unless the run ends with a failure
that is allowed for. Whether an instruction runs once or, after a collection, a second time makes no difference.
-/

namespace OwnScript

open Stateful

namespace Exec

open Machine

variable {stops more : Diagnostic → Machine → Prop} {goal next : Machine → Prop} {m after : Machine}

/-- The run of a machine comes to a machine with a property, or ends with a failure that is allowed for. -/
inductive Leads (stops : Diagnostic → Machine → Prop) (goal : Machine → Prop) : Machine → Prop where
  | here {m : Machine} : goal m → Leads stops goal m
  | passes {m after : Machine} : m.halted = false → complete m = .ok () after → Leads stops goal after →
      Leads stops goal m
  | stops {m last : Machine} {diagnostic : Diagnostic} : m.halted = false →
      complete m = .error (.failure diagnostic) last → stops diagnostic last → Leads stops goal m

namespace Leads

/-- What a run gets to leads on. -/
theorem bind (hleads : Leads stops next m) (hnext : ∀ after, next after → Leads stops goal after) :
    Leads stops goal m := by
  induction hleads with
  | here hthere => exact hnext _ hthere
  | passes hrunning hpass _ ih => exact .passes hrunning hpass ih
  | stops hrunning hstop hallowed => exact .stops hrunning hstop hallowed

/-- More failures are allowed for. -/
theorem allowing (hleads : Leads stops goal m)
    (hmore : ∀ diagnostic last, stops diagnostic last → more diagnostic last) :
    Leads more goal m := by
  induction hleads with
  | here hthere => exact .here hthere
  | passes hrunning hpass _ ih => exact .passes hrunning hpass ih
  | stops hrunning hstop hallowed => exact .stops hrunning hstop (hmore _ _ hallowed)

end Leads

theorem sound_complete (hsound : m.Sound) (hrunning : m.halted = false) (hpass : complete m = .ok () after) :
    after.Sound := by
  obtain ⟨turns, htakes⟩ := exists_takes hsound hrunning
  exact (htakes.passes after hpass).sound hsound

/-- The ways in which a whole run may end: with a value in a state, or with a failure. -/
inductive RunEnds (stops : Diagnostic → Machine → Prop) (goal : Machine → Prop) :
    EStateM.Result Fault Machine Value → Prop where
  | value {m : Machine} : goal m → RunEnds stops goal (.ok m.result { m with halted := false })
  | failure {diagnostic : Diagnostic} {last : Machine} : stops diagnostic last →
      RunEnds stops goal (.error (.failure diagnostic) last)

/-- A run that leads to a machine whose script is over comes to its end, given enough turns. -/
theorem Leads.runEnds (hleads : Leads stops (fun last => last.halted = true ∧ goal last) m) (hsound : m.Sound) :
    ∃ enough, ∀ fuel ≥ enough, RunEnds stops goal (runLoop fuel false m) := by
  induction hleads with
  | here hthere =>
    refine ⟨1, fun fuel hfuel => ?_⟩
    obtain ⟨rest, rfl⟩ := Nat.exists_eq_add_of_le' hfuel
    rw [runLoop_halted hthere.1]
    exact .value hthere.2
  | passes hrunning hpass _ ih =>
    obtain ⟨enough, henough⟩ := ih (sound_complete hsound hrunning hpass)
    obtain ⟨turns, htakes⟩ := exists_takes hsound hrunning
    refine ⟨enough + turns, fun fuel hfuel => ?_⟩
    obtain ⟨rest, rfl⟩ := Nat.exists_eq_add_of_le' hfuel
    rw [← Nat.add_assoc, htakes.enough, hpass]
    exact henough (rest + enough) (Nat.le_add_left _ _)
  | stops hrunning hstop hallowed =>
    obtain ⟨turns, htakes⟩ := exists_takes hsound hrunning
    refine ⟨turns, fun fuel hfuel => ?_⟩
    obtain ⟨rest, rfl⟩ := Nat.exists_eq_add_of_le' hfuel
    rw [htakes.enough, hstop]
    exact .failure hallowed

/-- What a failure of an instruction is: its kind, before the place in the source is added, on a machine that
still stands where the instruction began. -/
structure BareFailure (kind : ErrorKind) (m after : Machine) (diagnostic : Diagnostic) : Prop where
  kind : diagnostic.kind = kind
  unplaced : diagnostic.location = {}
  chunk : after.chunk = m.chunk
  start : after.instructionStart = m.instructionStart
  output : after.output = m.output

/-- How an instruction comes out that is expected to succeed, or else to fail with a certain kind: it may always
find the heap or the stack full. -/
inductive ComesOut (fails : Option ErrorKind) (goal : Machine → Prop) (m : Machine) :
    EStateM.Result Fault Machine Unit → Prop where
  | passes {after : Machine} : goal after → ComesOut fails goal m (.ok () after)
  | full {request : HeapExhausted} {after : Machine} : m.GaveUp after →
      ComesOut fails goal m (.error (.exhausted request) after)
  | overflows {diagnostic : Diagnostic} {after : Machine} : BareFailure .stackOverflow m after diagnostic →
      ComesOut fails goal m (.error (.failure diagnostic) after)
  | fails {diagnostic : Diagnostic} {after : Machine} {kind : ErrorKind} : fails = some kind →
      BareFailure kind m after diagnostic → ComesOut fails goal m (.error (.failure diagnostic) after)

/-- The failures that a run may end with: the one that is expected, after what was printed, and those for want of
room. -/
def Excused (fails : Option Failure) (output : String) (diagnostic : Diagnostic) (last : Machine) : Prop :=
  diagnostic.kind = .stackOverflow ∨ diagnostic.kind = .outOfMemory ∨
    (fails = some ⟨diagnostic.kind, diagnostic.location⟩ ∧ last.output = output)

end Exec

end OwnScript
