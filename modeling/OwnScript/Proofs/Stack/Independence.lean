import OwnScript.Proofs.Host.Reuse
import OwnScript.Proofs.Stack.Programs

/-!
What a compiled program does depends on nothing but the program and its arguments. Its instructions name slots below
the top of the stack only, so they come across nothing that the past of a machine has left above it: neither the
schedule of collections nor what the machine has served before can be seen.
-/

namespace OwnScript

namespace Machine

/-- An instruction that finds the stack as its code expects it names slots below the top only. -/
theorem StackInPlace.staysBelow {globals : GlobalTable} {statements : List Stmt} {m : Machine} {frame : Frame}
    {function : Prototype} {cells : Array (Option Ref)} {asScript : Bool}
    (hplace : m.StackInPlace globals statements frame function cells asScript) (hframe : m.frames.back? = some frame) :
    m.StaysBelow := by
  intro op a b hinstruction slot hslot
  have hcell (hop : op = .getUpvalue ∨ op = .setUpvalue ∨ op = .moveUpvalue) (hslot : m.upvalueSlot? a = some slot) :
      slot < m.stack.size := by
    rw [upvalueSlot?, hframe, Option.bind_some, hplace.closure] at hslot
    dsimp only at hslot
    split at hslot
    · rename_i found hfound
      cases hslot
      obtain ⟨cell, hcell, hopened⟩ := Option.bind_eq_some_iff.mp hfound
      exact hplace.captured op a b hinstruction hop cell _ (Option.join_eq_some_iff.mp hcell) hopened
    · cases hslot
  cases op with
  | getUpvalue => exact hcell (.inl rfl) (Option.mem_toList.mp hslot)
  | setUpvalue => exact hcell (.inr (.inl rfl)) (Option.mem_toList.mp hslot)
  | moveUpvalue => exact hcell (.inr (.inr rfl)) (Option.mem_toList.mp hslot)
  | matchArgs =>
    have harguments := hplace.arguments a b hinstruction
    rw [namedSlots, hframe] at hslot
    split at hslot
    · rename_i found parameters hsame hparameters
      cases hsame
      split at hslot
      · rename_i hcount
        have hinside := (List.mem_range'_1.mp hslot).2
        omega
      · cases hslot
    · cases hslot
  | _ => cases hslot

end Machine

namespace Program

open Machine

variable {program : Program} {unit : CodeUnit}

/-- The instructions of a compiled program name slots below the top of the stack only. -/
theorem serves_below (hshape : program.wellShaped = true) (hcompile : program.analyze.program.compile = .ok unit)
    (hverified : unit.verify = .ok ()) (config : Config) (entry : String) (arguments : List Scalar) :
    Exec.ServesBelow (.run unit entry (arguments.map .scalar)) (.ofConfig config) := by
  rw [← wellShaped_analyze] at hshape
  obtain ⟨table, -, -, htable, -⟩ := compile_layout (fun _ : True => hshape) hcompile
  intro m hpasses hrunning
  obtain ⟨frame, function, cells, asScript, hframe, hplace⟩ :=
    stackInPlace_of_passes hshape hcompile hverified htable hpasses hrunning
  exact hplace.staysBelow hframe

/-- When collections happen cannot be seen in what a compiled program does: on machines that differ only in the
schedule of their collections and in what they park for reuse, its runs end alike. -/
theorem run_on_any_schedule (hshape : program.wellShaped = true) (hcompile : program.analyze.program.compile = .ok unit)
    (hverified : unit.verify = .ok ()) {machine : MachineConfig} {first second : HeapConfig}
    (hlimit : first.maxHeapBytes = second.maxHeapBytes) (entry : String) (arguments : List Scalar)
    (hfirst : Exec.RunFits unit entry (arguments.map .scalar) (.ofConfig ⟨machine, first⟩))
    (hsecond : Exec.RunFits unit entry (arguments.map .scalar) (.ofConfig ⟨machine, second⟩)) {fuel more : Nat}
    (hanswered : Exec.Answered (Exec.run fuel unit entry (arguments.map .scalar) (.ofConfig ⟨machine, first⟩)))
    (hmore : 2 * fuel ≤ more) :
    Exec.SameEnd (Exec.run fuel unit entry (arguments.map .scalar) (.ofConfig ⟨machine, first⟩))
      (Exec.run more unit entry (arguments.map .scalar) (.ofConfig ⟨machine, second⟩)) :=
  Exec.sameEnd_run (sound_ofConfig _) (sound_ofConfig _) (fun _ => .nil)
    (Exec.concluded_enterScript_new hlimit unit arguments)
    (.inl (serves_below hshape hcompile hverified _ entry arguments)) hfirst hsecond hanswered hmore

/-- What a machine has served before cannot be seen in what a compiled program does: its run ends as on a new machine
with the same settings. -/
theorem run_on_used_machine (hshape : program.wellShaped = true) (hcompile : program.analyze.program.compile = .ok unit)
    (hverified : unit.verify = .ok ()) {config : Config} {m : Machine} (hhistory : Exec.History config m)
    (entry : String) (arguments : List Scalar) (hfits : Exec.Fits unit entry (arguments.map .scalar) m)
    (hnewFits : Exec.RunFits unit entry (arguments.map .scalar) (.ofConfig config)) {fuel more : Nat}
    (hanswered : Exec.Answered (Exec.run fuel unit entry (arguments.map .scalar) m)) (hmore : 2 * fuel ≤ more) :
    Exec.SameEnd (Exec.run fuel unit entry (arguments.map .scalar) m)
      (Exec.preceding m.output (Exec.run more unit entry (arguments.map .scalar) (.ofConfig config))) :=
  (hhistory.sameEnd_run hfits hnewFits (.inr (serves_below hshape hcompile hverified config entry arguments))
    hmore).1 hanswered

end Program

end OwnScript
