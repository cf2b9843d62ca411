import OwnScript.Proofs.Analysis.Shape
import OwnScript.Proofs.Host.Schedules
import OwnScript.Proofs.Stack.Runs

/-!
What holds for programs. A well-shaped program that analysis accepts runs on a stack that is always as its
code expects it: every operation finds what it needs, and in front of every statement the frame holds the
variables that are visible there and nothing else.
-/

namespace OwnScript

open Stateful Profile

section Heights

variable {globals : GlobalTable} {F : Listing True} {loop : Option LoopPlan} {p q : Nat}
  {scope after : FrameScope}

/-- Statements with a scope of their own, dropped at the end, start at the height of their scope. -/
theorem StmtsCode.holds_block {stmts : List Stmt} {location : Location} {dropped : FrameScope} {r : Nat}
    (hbody : StmtsCode globals F loop scope p stmts (dropped ++ after) q) (hlength : after.length = scope.length)
    (hdrop : DropCode F location scope.length dropped q r) (hend : p = r → F.Holds p scope.length) :
    F.Holds p scope.length := by
  cases hbody with
  | nil =>
    have hnone : dropped = [] := by
      refine List.eq_nil_of_length_eq_zero ?_
      simp only [List.length_append] at hlength
      omega
    subst hnone
    cases hdrop
    exact hend rfl
  | cons hholds => exact hholds

/-- The code of a statement, if it has any, starts at the height of its scope. -/
theorem StmtCode.holds {stmt : Stmt} (hcode : StmtCode globals F loop scope p stmt after q) (hsome : p < q) :
    F.Holds p scope.length := by
  cases hcode with
  | absent => exact absurd hsome (lt_irrefl _)
  | declareUndefined => exact absurd hsome (lt_irrefl _)
  | declareGlobal _ _ _ hinitial => exact hinitial.holds
  | declareEmpty _ hhas => exact hhas.height
  | declareLocal _ hinitial => exact hinitial.holds
  | assign hvalue => exact hvalue.holds
  | assignField hobject => exact hobject.holds
  | assignIndex hobject => exact hobject.holds
  | evaluate hexpression => exact hexpression.holds
  | print hexpression => exact hexpression.holds
  | block hbody hlength hdrop => exact hbody.holds_block hlength hdrop fun h => absurd h (Nat.ne_of_lt hsome)
  | ifElse hcondition => exact hcondition.holds
  | condGuards harms =>
    cases harms with
    | nil hhas => exact hhas.height
    | last hbody hlength hdrop hjumps =>
      refine hbody.holds_block hlength hdrop fun h => ?_
      subst h
      obtain ⟨distance, hhas, -⟩ := hjumps
      exact hhas.height
    | cons _ hguard => exact hguard.holds
  | condPatterns _ hscrutinee => exact hscrutinee.holds
  | whileLoop hcondition => exact hcondition.holds
  | forLoop hstart => exact hstart.holds
  | forever hholds => exact hholds
  | leave hlength hdrop hjumps =>
    obtain ⟨distance, hhas, -⟩ := hjumps
    rw [List.length_append, hlength, Nat.add_comm]
    exact hdrop.holds hhas.height
  | skip hlength hdrop hjumps =>
    obtain ⟨distance, hhas, -⟩ := hjumps
    rw [List.length_append, hlength, Nat.add_comm]
    exact hdrop.holds hhas.height
  | giveBackNil hhas => exact hhas.height
  | giveBack hvalue => exact hvalue.holds
  | disown hhas => exact hhas.height
  | functionGlobal => exact absurd hsome (lt_irrefl _)
  | functionLocal _ hclosure =>
    cases hclosure with
    | intro hhas => exact hhas.height

end Heights

namespace Machine

variable {globals : GlobalTable} {statements : List Stmt} {m : Machine}

/-- The stack of a machine is as its code expects it. The arguments that are matched next and the slots of
the open cells of the running closure are on the stack. However the running code is laid out, its frame
holds as many values as stand beside the next instruction, and in front of a statement these are the
variables of its scope. -/
structure StackInPlace (globals : GlobalTable) (statements : List Stmt) (m : Machine) (frame : Frame)
    (function : Prototype) (cells : Array (Option Ref)) (asScript : Bool) : Prop where
  closure : m.heap.get? frame.closure = some (.closure (some function) cells)
  arguments : ∀ a b, m.instruction? = some (.matchArgs, a, b) →
    frame.base + frame.argumentCount ≤ m.stack.size
  captured : ∀ op a b, m.instruction? = some (op, a, b) →
    (op = .getUpvalue ∨ op = .setUpvalue ∨ op = .moveUpvalue) → ∀ cell slot, cells[a]? = some (some cell) →
    m.heap.get? cell = some (.upvalue (.opened slot)) → slot < m.stack.size
  running : ∃ F, LaidOut globals statements asScript function F ∧ m.chunk = some F.chunk
  heights : ∀ F, LaidOut globals statements asScript function F → ∀ height, F.Holds m.ip height →
    m.stack.size = frame.base + height
  statements : ∀ F, LaidOut globals statements asScript function F → ∀ loop scope stmt after q,
    StmtCode globals F loop scope m.ip stmt after q → m.ip < q → m.stack.size = frame.base + scope.length

theorem Facing.stackInPlace {known : Nat → Prop} {top : Option Bool} {frame : Frame} {function : Prototype}
    {asScript : Bool} {chunk : Chunk} {cells : Array (Option Ref)} {op : Opcode} {a b : Nat}
    (hfacing : m.Facing globals statements known top frame function asScript chunk cells op a b) :
    m.StackInPlace globals statements frame function cells asScript := by
  have hlow := hfacing.current.low
  have hheights (F : Listing True) (hlaid : LaidOut globals statements asScript function F) (height : Nat)
      (hholds : F.Holds m.ip height) : m.stack.size = frame.base + height := by
    have hheight : m.stack.size - frame.base = height := hfacing.current.sure.height hlaid hholds
    omega
  refine ⟨hfacing.standing.closure, fun a b hnext => ?_, fun op a b hnext hop cell slot hcell hopened => ?_, ?_,
    hheights, fun F hlaid loop scope stmt after q hcode hsome => hheights F hlaid _ (hcode.holds hsome)⟩
  · obtain ⟨rfl, rfl, rfl⟩ : op = .matchArgs ∧ _ ∧ _ := by simpa [hfacing.instruction] using hnext
    cases hfacing.fine with
    | plain hplain => cases hplain
    | matchArgs _ hcount =>
      have hcount : frame.argumentCount ≤ m.stack.size - frame.base := hcount
      omega
  · have hother : op ≠ .closure := by rcases hop with rfl | rfl | rfl <;> decide
    have hopen := hfacing.sound.listed hfacing.innermost hfacing.standing.closure hcell hopened
    have hknown := (hfacing.line.cells slot hopen).resolve_right (by simp [wanted_of_ne hnext hother])
    exact (hfacing.line.inside slot hknown).2
  · obtain ⟨F, hlaid⟩ := hfacing.current.laid
    exact ⟨F, hlaid, hfacing.standing.running.trans (hfacing.standing.own.symm.trans hlaid.1)⟩

end Machine

namespace Program

open Machine

variable {program : Program} {unit : CodeUnit}

theorem mem_scalars {arguments : List Scalar} {value : Value} (hvalue : value ∈ arguments.map Value.scalar) :
    ∃ scalar, value = .scalar scalar := by
  obtain ⟨scalar, -, rfl⟩ := List.mem_map.mp hvalue
  exact ⟨scalar, rfl⟩

/-- At every instruction boundary of a run the stack is as the code expects it. -/
theorem stackInPlace_of_passes (hshape : program.analyze.program.wellShaped = true)
    (hcompile : program.analyze.program.compile = .ok unit) (hverified : unit.verify = .ok ()) {table : GlobalTable}
    (htable : GlobalTable.ofStatements {} program.analyze.program.statements = .ok table) {config : Config}
    {entry : String} {arguments : List Scalar} {m : Machine}
    (hpasses : Exec.Passes (.run unit entry (arguments.map .scalar)) (.ofConfig config) m)
    (hrunning : m.halted = false) :
    ∃ frame function cells asScript, m.frames.back? = some frame ∧
      m.StackInPlace table program.analyze.program.statements frame function cells asScript := by
  obtain ⟨other, script, F, hother, hscript, -, -, hcode⟩ := compile_layout (fun _ : True => hshape) hcompile
  obtain rfl : other = table := Except.ok.inj (hother.symm.trans htable)
  have hsound := (sound_ofConfig config).pin (Exec.accepts_scalars (.ofConfig config) arguments)
  have hunderway := Exec.passes_underway hverified hscript hcode (fun _ => mem_scalars) hsound
    ((Exec.lasting_onCourse hverified).fresh config) (Exec.supplies_ofConfig config) hpasses
  obtain ⟨frame, hframe⟩ := hunderway.active hrunning
  obtain ⟨known, top, function, asScript, chunk, cells, op, a, b, hfacing⟩ :=
    hunderway.aligned.facing hunderway.course hunderway.sound hframe
  exact ⟨frame, function, cells, asScript, hframe, hfacing.stackInPlace⟩

/-- The stack stays aligned. Whatever the settings, the entry function and its arguments, a run of a
well-shaped program that was accepted and compiled fails with no complaint about its code, and at every
instruction boundary the stack is as the code expects it. -/
theorem run_stackInPlace (hshape : program.wellShaped = true)
    (hcompile : program.analyze.program.compile = .ok unit) (hverified : unit.verify = .ok ()) (config : Config)
    (entry : String) (arguments : List Scalar) :
    ∃ table, GlobalTable.ofStatements {} program.analyze.program.statements = .ok table ∧
      (∀ fuel, Exec.Decent (Exec.run fuel unit entry (arguments.map .scalar) (.ofConfig config))) ∧
      ∀ m, Exec.Passes (.run unit entry (arguments.map .scalar)) (.ofConfig config) m → m.halted = false →
        ∃ frame function cells asScript, m.frames.back? = some frame ∧
          m.StackInPlace table program.analyze.program.statements frame function cells asScript := by
  rw [← wellShaped_analyze] at hshape
  obtain ⟨table, script, F, htable, hscript, -, -, hcode⟩ := compile_layout (fun _ : True => hshape) hcompile
  have hsound := (sound_ofConfig config).pin (Exec.accepts_scalars (.ofConfig config) arguments)
  have hdedicated := (Exec.lasting_onCourse hverified).fresh config
  have hsupplies := @Exec.supplies_ofConfig table config
  refine ⟨table, htable, fun fuel => ?_, fun m => stackInPlace_of_passes hshape hcompile hverified htable⟩
  exact Exec.decent_run hverified hscript hcode (fun _ => mem_scalars) hsound hdedicated hsupplies fuel

/-- A variable of a block that a function inside reads. -/
def counterInBlock : Program :=
  { statements :=
      [.block {}
        [.declare {} "count" (.literal {} (.scalar (.int 1))) {},
          .function {} ⟨"next", true, [⟨{}, [], [.giveBack {} (.name ⟨{}, "count", {}⟩)]⟩]⟩ {},
          .print {} (.call {} (.name ⟨{}, "next", {}⟩) [])]] }

/-- Inside the function, where the variable is still on the stack. -/
theorem run_stackInPlace_counterInBlock : counterInBlock.wellShaped = true ∧
    ∃ unit table m frame function cells asScript, counterInBlock.analyze.program.compile = .ok unit ∧
      Exec.Passes (.run unit "" []) (.ofConfig {}) m ∧ m.frames.size = 2 ∧ m.openSlots = [1] ∧
      m.frames.back? = some frame ∧
      m.StackInPlace table counterInBlock.analyze.program.statements frame function cells asScript := by
  have hshape : counterInBlock.wellShaped = true := by decide +kernel
  have hrun : (counterInBlock.analyze.program.compile.toOption.bind fun unit =>
      if unit.verify.toOption = some () then
        (Exec.boundary unit 7 (.ofConfig {})).map fun m => (m.frames.size, m.openSlots, m.halted)
      else none) = some (2, [1], false) := by decide +kernel
  obtain ⟨unit, hunit, hrun⟩ := Option.bind_eq_some_iff.mp hrun
  split at hrun
  · rename_i hok
    obtain ⟨m, hboundary, hm⟩ := Option.map_eq_some_iff.mp hrun
    obtain ⟨hframes, hslots, hrunning⟩ : m.frames.size = 2 ∧ m.openSlots = [1] ∧ m.halted = false := by simpa using hm
    have hcompile := except_of_toOption hunit
    have hpasses : Exec.Passes (.run unit "" []) (.ofConfig {}) m := .runScript (Exec.passes_boundary hboundary)
    obtain ⟨table, -, -, hplace⟩ := run_stackInPlace hshape hcompile (except_of_toOption hok) {} "" []
    obtain ⟨frame, function, cells, asScript, hframe, hstack⟩ := hplace m hpasses hrunning
    exact ⟨hshape, unit, table, m, frame, function, cells, asScript, hcompile, hpasses, hframes, hslots, hframe, hstack⟩
  · cases hrun

end Program

end OwnScript
