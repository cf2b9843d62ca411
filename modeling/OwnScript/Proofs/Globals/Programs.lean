import OwnScript.Proofs.Globals.Runs
import OwnScript.Proofs.Globals.Scripts
import OwnScript.Proofs.Analysis.Readiness
import OwnScript.Proofs.Stack.Programs

/-!
Accepted programs and their globals. What analysis accepts reads its globals in time, so the script that is
compiled from it may run before any global is defined, and so no run of it meets an undefined global.
-/

namespace OwnScript

open Stateful

namespace Program

open Machine

variable {program : Program} {unit : CodeUnit}

/-- The script of an accepted program may run when no global is defined. -/
theorem runnable_of_accepted (hshape : program.wellShaped = true) (haccepted : program.analyze.diagnostics = [])
    (hcompile : program.analyze.program.compile = .ok unit) :
    ∃ originals, Runnable originals ∅ unit.script := by
  obtain ⟨readiness, hrespected⟩ := readiness_of_accepted program hshape haccepted
  rw [← wellShaped_analyze] at hshape
  obtain ⟨table, script, F, htable, hscript, -, -, hcode⟩ := compile_layout (fun _ : True => hshape) hcompile
  exact ⟨_, hscript ▸ hcode.runnable hrespected (GlobalTable.apart_ofStatements htable)⟩

/-- Definite initialization is sound for globals. Whatever the settings, running the script of a well-shaped program
that was accepted and compiled never fails because of an undefined global: every instruction that reads or moves a
global finds it defined, wherever it stands. -/
theorem globals_defined (hshape : program.wellShaped = true) (haccepted : program.analyze.diagnostics = [])
    (hcompile : program.analyze.program.compile = .ok unit) (hverified : unit.verify = .ok ()) (config : Config) :
    (∀ fuel diagnostic after, Exec.load fuel unit (.ofConfig config) = .error (.failure diagnostic) after →
      diagnostic.kind ≠ .undefinedGlobal) ∧
    ∀ m, Exec.Passes (.execute unit) (.ofConfig config) m →
      ∀ op slot b, m.instruction? = some (op, slot, b) → op = .getGlobal ∨ op = .moveGlobal →
        ∃ value, m.globals[slot]? = some (some value) := by
  obtain ⟨originals, hruns⟩ := runnable_of_accepted hshape haccepted hcompile
  rw [← wellShaped_analyze] at hshape
  obtain ⟨table, script, F, -, hscript, -, -, hcode⟩ := compile_layout (fun _ : True => hshape) hcompile
  have hsound := sound_ofConfig config
  have hdedicated := (Exec.lasting_onCourse hverified).fresh config
  have hsupplies := @Exec.supplies_ofConfig table config
  have hoffers := @Exec.offers_ofConfig (Runnable originals ∅) config
  obtain ⟨hdecent, hunderway⟩ := Exec.underway_enterScript hverified hsound hdedicated hsupplies hscript hcode
  have hassured (start : Machine) (hstart : Exec.enterScript unit (.ofConfig config) = .ok () start) :=
    Exec.assured_enterScript hverified hsound hoffers hsupplies.above hruns hstart
  refine ⟨fun fuel diagnostic after hfails => ?_, fun m hpasses op slot b hinstruction hop => ?_⟩
  · rw [Exec.load_eq, bind_apply] at hfails
    cases hresult : Exec.enterScript unit (.ofConfig config) with
    | ok value start =>
      rw [hresult] at hfails
      exact Exec.assured_runLoop (hunderway start hresult) (hassured start hresult) fuel false hfails
    | error fault refused =>
      rw [hresult] at hfails
      cases hfails
      rcases Exec.enterScript_cases hverified hsound with ⟨_, _, -, -, -, -, -, -, hstarted⟩ | ⟨_, _, hfault, hrefused⟩
      · cases hresult.symm.trans hstarted
      · cases hresult.symm.trans hrefused
        rcases hfault with h | h
        · cases h
          decide
        · cases h
          decide
  · cases hpasses with
    | script hstart hturns =>
      have hm := hturns.underway (hunderway _ hstart)
      obtain ⟨loose, met, hcovered⟩ := hturns.assured (hunderway _ hstart) (hassured _ hstart)
      cases hframe : m.frames.back? with
      | none =>
        rw [instruction?, hm.course.inPlace.chunk_eq_none hframe] at hinstruction
        cases hinstruction
      | some frame =>
        obtain ⟨known, top, function, asScript, chunk, cells, op', a', b', hfacing⟩ :=
          hm.aligned.facing hm.course hm.sound hframe
        cases hfacing.instruction.symm.trans hinstruction
        exact (hfacing.covered hcovered).1 (by rcases hop with rfl | rfl <;> rfl)

/-- A function that is called before its declaration and reads a global. -/
def calledEarly : Program :=
  { statements :=
      [.declare {} "count" (.literal {} (.scalar (.int 1))) {},
        .print {} (.call {} (.name ⟨{}, "current", {}⟩) []),
        .function {} ⟨"current", true, [⟨{}, [], [.giveBack {} (.name ⟨{}, "count", {}⟩)]⟩]⟩ {}] }

/-- Inside the function, where the global is read next. -/
theorem globals_defined_calledEarly : calledEarly.wellShaped = true ∧ calledEarly.analyze.diagnostics = [] ∧
    ∃ unit m slot b, calledEarly.analyze.program.compile = .ok unit ∧
      Exec.Passes (.execute unit) (.ofConfig {}) m ∧ m.frames.size = 2 ∧
      m.instruction? = some (.getGlobal, slot, b) ∧ ∃ value, m.globals[slot]? = some (some value) := by
  have hshape : calledEarly.wellShaped = true := by decide +kernel
  have haccepted : calledEarly.analyze.diagnostics = [] := by decide +kernel
  have hrun : (calledEarly.analyze.program.compile.toOption.bind fun unit =>
      if unit.verify.toOption = some () then
        (Exec.boundary unit 11 (.ofConfig {})).bind fun m => m.instruction?.map fun found => (m.frames.size, found.1)
      else none) = some (2, .getGlobal) := by decide +kernel
  obtain ⟨unit, hunit, hrun⟩ := Option.bind_eq_some_iff.mp hrun
  split at hrun
  · rename_i hok
    obtain ⟨m, hboundary, hm⟩ := Option.bind_eq_some_iff.mp hrun
    obtain ⟨⟨op, slot, b⟩, hinstruction, hm⟩ := Option.map_eq_some_iff.mp hm
    obtain ⟨hframes, rfl⟩ : m.frames.size = 2 ∧ op = .getGlobal := by simpa using hm
    have hcompile := except_of_toOption hunit
    have hpasses := Exec.passes_boundary hboundary
    have hdefined := (globals_defined hshape haccepted hcompile (except_of_toOption hok) {}).2 m hpasses
    exact ⟨hshape, haccepted, unit, m, slot, b, hcompile, hpasses, hframes, hinstruction,
      hdefined _ slot b hinstruction (.inl rfl)⟩
  · cases hrun

end Program

end OwnScript
