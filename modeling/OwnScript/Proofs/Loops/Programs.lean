import OwnScript.Proofs.Loops.Rounds
import OwnScript.Proofs.Stack.Programs

/-!
What holds for programs. A for loop of a well-shaped program that was accepted and compiled runs over its half-open
range: as often as there are numbers from the start up to the bound, with each of them in turn as the variable of the
loop, whatever its body does to that variable and however a run of the body ends inside of the loop.
-/

namespace OwnScript

open Stateful

namespace Machine

variable {globals : GlobalTable} {statements : List Stmt} {before : Machine} {frame : Frame} {function : Prototype}
  {cells : Array (Option Ref)} {asScript : Bool}

/-- If the running code is in front of a for loop, then the loop runs over its half-open range. However the code is laid
out, whatever integers the start and the bound are evaluated to, and as long as each run of the body ends where the
counter is stepped, the loop keeps its tally. -/
def CountsRanges (globals : GlobalTable) (statements : List Stmt) (before : Machine) (function : Prototype)
    (asScript : Bool) : Prop :=
  ∀ F, LaidOut globals statements asScript function F → ∀ loop scope place counter binding first last body after u,
    StmtCode globals F loop scope before.ip (.forLoop place counter binding first last body) after u →
    ∃ q test step, ForLoopCode globals F scope before.ip place binding first last body q test step u ∧
      ∀ a b middle start, Exec.Evaluates q (.ofInt a) before middle → Exec.Evaluates test (.ofInt b) middle start →
      ∀ bodies inBody retried m, Exec.Rounds before.frames.size test step start bodies inBody retried m →
        Exec.Tally a b test step before bodies inBody m

theorem StackInPlace.countsRanges (hplace : before.StackInPlace globals statements frame function cells asScript)
    (hunderway : before.Underway globals statements) (hframe : before.frames.back? = some frame) :
    before.CountsRanges globals statements function asScript := by
  intro F hlaid loop scope place counter binding first last body after u hcode
  obtain ⟨q, test, step, hloop⟩ := hcode.forLoopCode
  obtain ⟨hfirst, hsecond, inner, s, hstart, hbound, hbody⟩ := hloop.parts
  have hsize : before.stack.size = frame.base + scope.length := by
    refine hplace.statements F hlaid _ _ _ _ _ hcode ?_
    have hforward := hloop.counts.forward
    have hmiddle := ExprCode.le first hstart
    have hend := ExprCode.le last hbound
    rw [hloop.ending]
    omega
  let site : ForSite globals statements :=
    { calls := before.frames, frame, function, asScript, code := F, innermost := hframe, laid := hlaid,
      place, height := scope.length, test, step, counts := hloop.counts }
  have hlives : site.Lives before := ⟨hunderway, ⟨cells, hplace.closure⟩, [], (List.append_nil _).symm⟩
  refine ⟨q, test, step, hloop, fun a b middle start hevaluated hlast bodies inBody retried m hrounds => ?_⟩
  have hcounting := site.counting_start hlives rfl hstart.later.length_eq hbound hevaluated hlast
  exact (hcounting.rounds hrounds).tally rfl hsize

end Machine

namespace Program

open Machine

variable {program : Program} {unit : CodeUnit}

/-- For loops run over exactly their half-open ranges. Whatever the settings, the entry function and its arguments, at
every instruction boundary of a run of a well-shaped program that was accepted and compiled, a for loop in front of
which the running code stands does so. -/
theorem run_countsRanges (hshape : program.wellShaped = true)
    (hcompile : program.analyze.program.compile = .ok unit) (hverified : unit.verify = .ok ()) (config : Config)
    (entry : String) (arguments : List Scalar) :
    ∃ table, GlobalTable.ofStatements {} program.analyze.program.statements = .ok table ∧
      ∀ before, Exec.Passes (.run unit entry (arguments.map .scalar)) (.ofConfig config) before →
        before.halted = false → ∃ frame function cells asScript, before.frames.back? = some frame ∧
          before.StackInPlace table program.analyze.program.statements frame function cells asScript ∧
          before.CountsRanges table program.analyze.program.statements function asScript := by
  rw [← wellShaped_analyze] at hshape
  obtain ⟨table, script, F, htable, hscript, -, -, hcode⟩ := compile_layout (fun _ : True => hshape) hcompile
  have hscalars (value : Value) (hvalue : value ∈ arguments.map Value.scalar) : ∃ scalar, value = .scalar scalar := by
    obtain ⟨scalar, -, rfl⟩ := List.mem_map.mp hvalue
    exact ⟨scalar, rfl⟩
  have hsound := (sound_ofConfig config).pin (Exec.accepts_scalars (.ofConfig config) arguments)
  refine ⟨table, htable, fun before hpasses hrunning => ?_⟩
  have hunderway := Exec.passes_underway hverified hscript hcode hscalars hsound
    ((Exec.lasting_onCourse hverified).fresh config) (Exec.supplies_ofConfig config) hpasses
  obtain ⟨frame, hframe⟩ := hunderway.active hrunning
  obtain ⟨known, top, function, asScript, chunk, cells, op, a, b, hfacing⟩ :=
    hunderway.aligned.facing hunderway.course hunderway.sound hframe
  have hplace := hfacing.stackInPlace
  exact ⟨frame, function, cells, asScript, hframe, hplace, hplace.countsRanges hunderway hframe⟩

end Program

/-- The code of an integer is one instruction. -/
theorem ExprCode.int_end {globals : GlobalTable} {F : Listing True} {height p q : Nat} {scope after : FrameScope}
    {location : Location} {number : Int64}
    (hcode : ExprCode globals F height scope p (.literal location (.scalar (.int number))) after q) : q = p + 3 := by
  cases hcode with
  | literal _ hloads =>
    cases hloads
    rfl

namespace Exec

variable {before start middle : Machine} {depth test step stop : Nat} {value : Value}

/-- An expression that one turn evaluates. -/
theorem evaluates_of_advance (hadvance : advance 1 false before = some middle) (hbefore : before.ip ≠ stop)
    (hframes : middle.frames.size = before.frames.size) (hip : middle.ip = stop)
    (hvalue : middle.stack.back? = some value) : Evaluates stop value before middle := by
  refine ⟨?_, hframes, hip, hvalue⟩
  simp only [advance] at hadvance
  split at hadvance
  · cases hadvance
  · rename_i hrunning
    split at hadvance
    · rename_i again after hturn
      cases hadvance
      exact ⟨again, .turn .start (by simpa using hrunning) (fun _ => hbefore) hturn hframes.ge⟩
    · cases hadvance

/-- A for loop on its way. -/
structure LoopRun where
  bodies : List Machine
  inBody : Bool
  retried : Bool
  machine : Machine

namespace LoopRun

/-- One turn more, if the loop goes on and no run of its body ends but where the counter is stepped. -/
def next (depth test step : Nat) (run : LoopRun) : Option LoopRun :=
  if run.machine.halted then none
  else
    match turn run.retried run.machine with
    | .error _ _ => none
    | .ok again after =>
      if run.inBody then
        if after.frames.size = depth ∧ after.ip = step then some ⟨run.bodies, false, again, after⟩
        else if depth ≤ after.frames.size ∧ ¬ (after.frames.size = depth ∧ after.ip = step + 15) then
          some ⟨run.bodies, true, again, after⟩
        else none
      else if run.machine.ip = step + 17 then none
      else if run.machine.ip = test + 11 ∧ again = false then some ⟨run.bodies ++ [after], true, false, after⟩
      else some ⟨run.bodies, false, again, after⟩

/-- So many turns more. -/
def turns (depth test step : Nat) : Nat → LoopRun → Option LoopRun
  | 0, run => some run
  | count + 1, run => (run.next depth test step).bind (turns depth test step count)

variable {run later : LoopRun}

theorem rounds_next (hrounds : Rounds depth test step start run.bodies run.inBody run.retried run.machine)
    (hnext : run.next depth test step = some later) :
    Rounds depth test step start later.bodies later.inBody later.retried later.machine := by
  obtain ⟨bodies, inBody, retried, machine⟩ := run
  unfold next at hnext
  split at hnext
  · cases hnext
  · rename_i hgoes
    have hrunning : machine.halted = false := by simpa using hgoes
    split at hnext
    · cases hnext
    · rename_i again after hturn
      cases inBody with
      | true =>
        rw [if_pos rfl] at hnext
        split at hnext
        · rename_i hends
          cases hnext
          exact .ends hrounds hrunning hturn hends.1 hends.2
        · rename_i hlasts
          split at hnext
          · rename_i hstays
            cases hnext
            exact .inside hrounds hrunning hturn hstays.1 fun hsize =>
              ⟨fun hip => hlasts ⟨hsize, hip⟩, fun hip => hstays.2 ⟨hsize, hip⟩⟩
          · cases hnext
      | false =>
        rw [if_neg Bool.false_ne_true] at hnext
        split at hnext
        · cases hnext
        · rename_i hgoing
          split at hnext
          · rename_i hbegins
            cases hnext
            obtain ⟨hfresh, rfl⟩ := hbegins
            exact .begins hrounds hrunning hfresh hturn
          · rename_i hcounts
            cases hnext
            refine .counts hrounds hrunning hgoing (fun hfresh => ?_) hturn
            by_contra hagain
            exact hcounts ⟨hfresh, Bool.eq_false_of_not_eq_true hagain⟩

theorem rounds_turns {count : Nat}
    (hrounds : Rounds depth test step start run.bodies run.inBody run.retried run.machine)
    (hturns : run.turns depth test step count = some later) :
    Rounds depth test step start later.bodies later.inBody later.retried later.machine := by
  induction count generalizing run with
  | zero =>
    cases hturns
    exact hrounds
  | succ count ih =>
    obtain ⟨middle, hnext, hrest⟩ := Option.bind_eq_some_iff.mp hturns
    exact ih (rounds_next hrounds hnext) hrest

end LoopRun

end Exec

namespace Program

open Machine Exec

/-- A loop from 0 up to 2 that changes its variable and goes on with the next number. -/
def countToTwo : Program :=
  { statements :=
      [.forLoop {} "i" none (.literal {} (.scalar (.int 0))) (.literal {} (.scalar (.int 2)))
        (.block {} [.print {} (.name ⟨{}, "i", {}⟩), .assign {} "i" (.literal {} (.scalar (.int 7))) {}, .skip {}])] }

/-- Whether a program is a single loop between two integers. -/
def isIntegerLoop : List Stmt → Bool
  | [.forLoop _ _ _ (.literal _ (.scalar (.int _))) (.literal _ (.scalar (.int _))) _] => true
  | _ => false

/-- The body runs twice, and the stack is as high afterwards as before. -/
theorem run_countsRanges_countToTwo : countToTwo.wellShaped = true ∧
    ∃ unit table before frame function cells asScript middle start, ∃ last : LoopRun,
      countToTwo.analyze.program.compile = .ok unit ∧ Passes (.run unit "" []) (.ofConfig {}) before ∧
      before.StackInPlace table countToTwo.analyze.program.statements frame function cells asScript ∧
      Evaluates 3 (.ofInt 0) before middle ∧ Evaluates 6 (.ofInt 2) middle start ∧
      Rounds 1 6 36 start last.bodies last.inBody last.retried last.machine ∧
      Tally 0 2 6 36 before last.bodies last.inBody last.machine ∧
      last.bodies.length = 2 ∧ last.machine.stack.size = before.stack.size := by
  have hshape : countToTwo.wellShaped = true := by decide +kernel
  have hstatements : isIntegerLoop countToTwo.analyze.program.statements = true := by decide +kernel
  have hrun : (countToTwo.analyze.program.compile.toOption.bind fun unit =>
      if unit.verify.toOption = some () then
        (boundary unit 0 (.ofConfig {})).bind fun before =>
          (advance 1 false before).bind fun middle =>
            (advance 1 false middle).bind fun start =>
              (LoopRun.turns 1 6 36 45 ⟨[], false, false, start⟩).filter fun last =>
                [before.halted, last.inBody] == [false, false] &&
                  [before.ip, middle.ip, start.ip, last.machine.ip] == [0, 3, 6, 53] &&
                  [before.frames.size, middle.frames.size, start.frames.size] == [1, 1, 1] &&
                  [middle.stack.back?, start.stack.back?] == [some (.ofInt 0), some (.ofInt 2)] &&
                  [before.chunk.bind (·.instructionAt? 0), before.chunk.bind (·.instructionAt? 13)] ==
                    [some (.constant, 0, 0), some (.jumpIfFalse, 34, 0)]
      else none).isSome = true := by decide +kernel
  obtain ⟨last, hrun⟩ := Option.isSome_iff_exists.mp hrun
  obtain ⟨unit, hunit, hrun⟩ := Option.bind_eq_some_iff.mp hrun
  split at hrun
  · rename_i hok
    obtain ⟨before, hboundary, hrun⟩ := Option.bind_eq_some_iff.mp hrun
    obtain ⟨middle, hmiddle, hrun⟩ := Option.bind_eq_some_iff.mp hrun
    obtain ⟨start, hstart, hrun⟩ := Option.bind_eq_some_iff.mp hrun
    obtain ⟨hlast, hfacts⟩ := Option.filter_eq_some_iff.mp hrun
    simp only [Bool.and_eq_true, beq_iff_eq, List.cons.injEq, and_true] at hfacts
    obtain ⟨⟨⟨⟨⟨hrunning, hout⟩, hplaces⟩, hdepth, hsame, hagain⟩, hzero, htwo⟩, hopening, hbranch⟩ := hfacts
    obtain ⟨hip, hfirst, hsecond, hend⟩ := hplaces
    have hcompile := except_of_toOption hunit
    have hpasses : Passes (.run unit "" []) (.ofConfig {}) before := .runScript (passes_boundary hboundary)
    obtain ⟨table, -, hcounts⟩ := run_countsRanges hshape hcompile (except_of_toOption hok) {} "" []
    obtain ⟨frame, function, cells, asScript, hframe, hplace, hcounts⟩ := hcounts before hpasses hrunning
    obtain ⟨F, hlaid, hchunk⟩ := hplace.running
    rw [hchunk] at hopening hbranch
    unfold isIntegerLoop at hstatements
    split at hstatements
    · rename_i place counter binding firstPlace first lastPlace bound body hlist
      -- The code does not test arguments, so it is that of the script.
      obtain rfl : asScript = true := by
        cases asScript with
        | true => rfl
        | false =>
          obtain ⟨location, declared, hcode⟩ := hlaid.2
          exact absurd ⟨_, _, _, hopening, rfl⟩ hcode.tests
      have hcode : ScriptCode table F function countToTwo.analyze.program.statements := hlaid.2
      rw [hlist] at hcode
      obtain ⟨-, hhoist, hbody, -⟩ := hcode
      cases hhoist with
      | skip _ hnone =>
        cases hnone
        cases hbody with
        | cons _ hstmt _ =>
          rw [← hip] at hstmt
          obtain ⟨q, test, step, hloop, htally⟩ := hcounts F hlaid _ _ _ _ _ _ _ _ _ _ hstmt
          obtain ⟨_, _, _, _, hstartCode, hboundCode, -⟩ := hloop.parts
          obtain rfl : q = 3 := hstartCode.int_end.trans (by rw [hip])
          obtain rfl : test = 6 := hboundCode.int_end
          obtain ⟨distance, hhas, htarget⟩ := hloop.counts.branch
          cases hbranch.symm.trans hhas.instruction
          obtain rfl : step = 36 := by omega
          have hevaluated : Evaluates 3 (.ofInt 0) before middle :=
            evaluates_of_advance hmiddle (by omega) (hsame.trans hdepth.symm) hfirst hzero
          have hbounded : Evaluates 6 (.ofInt 2) middle start :=
            evaluates_of_advance hstart (by omega) (hagain.trans hsame.symm) hsecond htwo
          have hrounds := LoopRun.rounds_turns .start hlast
          have htallied := htally 0 2 middle start hevaluated hbounded last.bodies last.inBody last.retried last.machine
            (hdepth ▸ hrounds)
          obtain ⟨hlength, -, hheight⟩ := htallied.finished hout hend
          exact ⟨hshape, unit, table, before, frame, function, cells, true, middle, start, last, hcompile, hpasses,
            hplace, hevaluated, hbounded, hrounds, htallied, hlength, hheight⟩
    · cases hstatements
  · cases hrun

end Program

end OwnScript
