import OwnScript.Proofs.Analysis.Resolution
import OwnScript.Proofs.Meaning.Analysis
import OwnScript.Proofs.Meaning.Declarations
import OwnScript.Proofs.Meaning.Statements
import OwnScript.Proofs.Stack.Runs

/-!
Whole runs of scripts. The machine starts with an empty frame and with globals that have no values, as the evaluation
of the program starts, and it comes to its end as the evaluation does. So the code of a program without functions
means what the tree of the program means.
-/

namespace OwnScript

open Stateful Machine

/-- How the outcome of a run compares to that of an evaluation. Both end with the same value, up to the choice of
references, or with a failure of the same kind at the same place, and the run has printed the same after what was there
before; or the run stops for want of room. -/
inductive SameOutcome (printed : String) :
    EStateM.Result Stop Scene Value → EStateM.Result Fault Machine Value → Prop where
  | value {value result : Value} {scene : Scene} {m : Machine} {ρ : Renaming} {config : HeapConfig} :
      m.output = printed ++ scene.output → Heap.Corresponds ρ { scene.heap with config } m.heap →
      Value.Related ρ value result → SameOutcome printed (.ok value scene) (.ok result m)
  | failure {failure : Failure} {scene : Scene} {diagnostic : Diagnostic} {m : Machine} :
      diagnostic.kind = failure.kind → diagnostic.location = failure.location → m.output = printed ++ scene.output →
      SameOutcome printed (.error (.failure failure) scene) (.error (.failure diagnostic) m)
  | room {outcome : EStateM.Result Stop Scene Value} {diagnostic : Diagnostic} {m : Machine} :
      diagnostic.kind = .stackOverflow ∨ diagnostic.kind = .outOfMemory →
      SameOutcome printed outcome (.error (.failure diagnostic) m)

theorem Heap.Sound.reconfigure {heap : Heap} (hsound : heap.Sound) (config : HeapConfig) :
    { heap with config }.Sound :=
  ⟨hsound.bounded, ⟨hsound.idle.gray, hsound.idle.collecting, hsound.idle.unmarked⟩,
    ⟨hsound.accounted.tracked, hsound.accounted.bytesLive⟩, hsound.closed⟩

namespace Exec

variable {T : Translation} {m : Machine} {unit : CodeUnit}

theorem hoistCode_plain {globals : GlobalTable} {F : Listing True} {stmts : List Stmt} {p q : Nat}
    (hcode : HoistCode globals F p stmts q) (hplain : ∀ stmt ∈ stmts, stmt.isFunction = false) : q = p := by
  induction hcode with
  | nil => rfl
  | function => cases hplain _ (List.mem_cons_self ..)
  | skip _ _ ih => exact ih (List.forall_mem_cons.mp hplain).2

/-- A machine that is about to run a script mirrors the start of an evaluation, unless there is no room for the
script. -/
theorem stands_start (hverified : unit.verify = .ok ()) (hsound : m.Sound)
    (hchunk : unit.script.bind (·.chunk) = some T.code.chunk)
    (hslots : ∀ (id : BindingId) (slot : Nat), T.table.slots[id]? = some slot → slot < unit.globalNames.size)
    (hprinted : T.printed = m.output) :
    (∃ start, enterScript unit m = .ok () start ∧ start.Sound ∧ Stands T 0 [] { heap := .ofConfig {} } start) ∨
    ∃ diagnostic after, enterScript unit m = .error (.failure diagnostic) after ∧ OutOfRoom diagnostic after := by
  have hentered := sound_enterScript hsound unit
  rcases enterScript_cases hverified hsound with
    ⟨base, parked, hsettled, halike, hframes, hstack, hcells, hglobals, hstarted⟩ | ⟨fault, after, hfault, hrefused⟩
  · rw [hstarted] at hentered
    refine .inl ⟨_, hstarted, hentered, rfl, ⟨fun _ _ => False, fun _ _ => False⟩, ?_⟩
    have hbase : base.halted = false ∧ base.output = m.output ∧ base.unit = unit := by
      cases hsettled with
      | asIs => exact ⟨rfl, rfl, rfl⟩
      | collected hgave =>
        rw [hgave.rest]
        exact ⟨rfl, rfl, rfl⟩
    obtain ⟨hrunning, houtput, hunit⟩ := hbase
    have hsame : (scriptStarted unit base.heap.nextRef
        { base with heap := parked.link (.unboundClosure unit.script) }).heap.Sound := by
      obtain ⟨σ, hcorr⟩ := hentered
      exact hcorr.heap.leftSound
    refine {
      running := hrunning
      chunk := hchunk
      frames := ⟨_, by rw [scriptStarted, hframes]; rfl, rfl, rfl⟩
      cells := hcells
      output := ?_
      heap := ⟨(parked.link (.unboundClosure unit.script)).config, ?_⟩
      stack := ⟨.ofRef base.heap.nextRef, [], by rw [scriptStarted, hstack]; rfl, .nil⟩
      globals := fun id slot hslot => ⟨none, ?_, .none⟩
      named := ?_ }
    · exact houtput.trans (hprinted.symm.trans (String.append_empty ..).symm)
    · exact Heap.corresponds_unpaired ((Heap.sound_ofConfig {}).reconfigure _) hsame rfl
    · change base.globals[slot]? = some none
      rw [hglobals, Array.getElem?_replicate, if_pos (hslots id slot hslot)]
    · change base.globals.size ≤ base.unit.globalNames.size
      rw [hglobals, hunit, Array.size_replicate]
  · rcases hfault with rfl | rfl
    · exact .inr ⟨_, after, hrefused, .inr rfl⟩
    · exact .inr ⟨_, after, hrefused, .inl rfl⟩

/-- A script whose evaluation a machine follows comes to the same outcome. -/
theorem sameOutcome_of_follows {outcome : EStateM.Result Stop Scene Value} (hsound : m.Sound)
    (hfollows : Follows T outcome (fun value scene last => last.halted = true ∧ Returned T value scene.toWorld last) m)
    (hends : ∀ scene, outcome ≠ .error .unfinished scene) :
    ∃ enough, ∀ fuel ≥ enough, SameOutcome T.printed outcome (runLoop fuel false m) := by
  cases outcome with
  | ok value scene =>
    obtain ⟨enough, hruns⟩ := Leads.runEnds hfollows hsound
    refine ⟨enough, fun fuel hfuel => ?_⟩
    have hrun := hruns fuel hfuel
    generalize runLoop fuel false m = result at hrun ⊢
    cases hrun with
    | value hreturned =>
      obtain ⟨houtput, ρ, config, hheap, hrel⟩ := hreturned
      exact .value houtput hheap hrel
    | failure hroom => exact .room hroom
  | error stop scene =>
    cases stop with
    | unfinished => exact absurd rfl (hends scene)
    | failure failure =>
      obtain ⟨enough, hruns⟩ := (Leads.imp hfollows fun _ h => (⟨h.elim, h⟩ : _ ∧ False)).runEnds hsound
      refine ⟨enough, fun fuel hfuel => ?_⟩
      have hrun := hruns fuel hfuel
      generalize runLoop fuel false m = result at hrun ⊢
      cases hrun with
      | value hnever => exact hnever.elim
      | failure hexcused =>
        rcases hexcused with h | h | ⟨hsame, houtput⟩
        · exact .room (.inl h)
        · exact .room (.inr h)
        · cases hsame
          exact .failure rfl rfl houtput

/-- The value of a script is what it gives back, or nil at its end. -/
theorem follows_script {program : Program} {turns q : Nat} {scope : FrameScope}
    (hshape : program.wellShaped = true)
    (hfits : Throughout (Scopes.Fits T.nameOf) {} (Stmt.outlines program.statements))
    (hcode : StmtsCode T.table T.code none [] 0 program.statements scope q)
    (hhalt : T.code.Has q (some scope.length) .halt 0 0 {}) (hstands : Stands T 0 [] { heap := .ofConfig {} } m) :
    Follows T (program.evaluate turns)
      (fun value scene last => last.halted = true ∧ Returned T value scene.toWorld last)
      m := by
  have hplaced : Placed T none 0 {} [] [] [] { heap := .ofConfig {} } m :=
    ⟨⟨rfl, rfl, List.nodup_nil, nofun⟩, List.suffix_rfl, nofun, rfl, hstands⟩
  have houtermost : false = true ↔ (({} : Scopes).outer ≠ []) := iff_of_false nofun fun h => h rfl
  refine (follows_stmts program.statements hshape hcode hfits houtermost hplaced).bind fun ending scene after h => ?_
  cases h with
  | next hgoes =>
    obtain ⟨declared, now, -, -, htied⟩ := hgoes
    exact leads_always hhalt htied.stands (always_halt 0 0)
  | leave hplan => cases hplan
  | skip hplan => cases hplan
  | giveBack hhalted hreturned => exact .here ⟨hhalted, hreturned⟩

end Exec

namespace Program

open Exec

variable {program : Program} {unit : CodeUnit} {turns : Nat} {m : Machine}

/-- A program whose names are resolved and that has no functions in its statements comes to the same outcome when its
code is run as when it is evaluated. -/
theorem sameOutcome_load (hshape : program.wellShaped = true)
    (hplain : ∀ stmt ∈ program.statements, stmt.isFunction = false) (hresolved : program.LexicallyResolved)
    (hobeys : Obeys .duplicateBinding {} program.outline) (hcompile : program.compile = .ok unit)
    (hverified : unit.verify = .ok ()) (hends : ∀ scene, program.evaluate turns ≠ .error .unfinished scene)
    (hsound : m.Sound) :
    ∃ enough, ∀ fuel ≥ enough, SameOutcome m.output (program.evaluate turns) (load fuel unit m) := by
  obtain ⟨table, script, F, htable, hscript, hnames, -, hcode⟩ := compile_layout (fun _ : True => hshape) hcompile
  obtain ⟨hchunk, hhoist, hstmts, hhalt⟩ := hcode
  obtain rfl := hoistCode_plain hhoist hplain
  obtain ⟨T, rfl, rfl, hprinted, hfits⟩ := exists_translation hresolved hobeys hplain htable F m.output
  have hslots (id : BindingId) (slot : Nat) (hslot : T.table.slots[id]? = some slot) :
      slot < unit.globalNames.size := by
    rw [hnames]
    exact (GlobalTable.fits_empty.ofStatements htable).slots id slot hslot
  simp only [load_eq]
  rcases stands_start hverified hsound (by rw [hscript]; exact hchunk) hslots hprinted with
    ⟨start, hstarted, hstart, hstands⟩ | ⟨diagnostic, after, hrefused, hroom⟩
  · obtain ⟨enough, hruns⟩ :=
      sameOutcome_of_follows hstart (follows_script hshape hfits hstmts hhalt hstands) hends
    refine ⟨enough, fun fuel hfuel => ?_⟩
    rw [bind_apply, hstarted, ← hprinted]
    exact hruns fuel hfuel
  · refine ⟨0, fun fuel _ => ?_⟩
    rw [bind_apply, hrefused]
    exact .room hroom

/-- Compilation keeps what a program without functions means. If the program is accepted and its unit is verified, and
the evaluation of its tree comes to an end, a machine that loads the unit comes to its end as well: with the same value
or with a failure of the same kind at the same place, and it has printed the same. It may only stop earlier for want
of room. -/
theorem load_evaluates (hshape : program.wellShaped = true) (hfree : program.callFree = true)
    (haccepted : program.analyze.diagnostics = []) (hcompile : program.analyze.program.compile = .ok unit)
    (hverified : unit.verify = .ok ()) (hends : ∀ scene, program.evaluate turns ≠ .error .unfinished scene)
    (hsound : m.Sound) :
    ∃ enough, ∀ fuel ≥ enough, SameOutcome m.output (program.evaluate turns) (load fuel unit m) := by
  have hplain := isFunction_of_callFree hfree
  have hsame := evaluate_analyze program turns
  rw [← hsame] at hends ⊢
  exact sameOutcome_load (program.wellShaped_analyze.trans hshape) (isFunction_analyze hplain)
    (lexicallyResolved_analyze (.inr hfree) haccepted) (obeys_analyze (.inr hfree) haccepted (by decide)) hcompile
    hverified hends hsound

/-- A loop over numbers that adds up the fields of records except for one. -/
def tally : Program :=
  { statements :=
      [.declare {} "total" (.literal {} (.scalar (.int 0))) {},
        .forLoop {} "n" none (.literal {} (.scalar (.int 0))) (.literal {} (.scalar (.int 4))) (.block {}
          [.declare {} "pair" (.record {} [("x", .name ⟨{}, "n", {}⟩)]) {},
            .cond {} (.name ⟨{}, "pair", {}⟩)
              [⟨{}, some (.destructure {} [("x", .literal {} (.scalar (.int 1)))]), .absent, [.skip {}]⟩,
                ⟨{}, some (.bind {} "found" none), .absent,
                  [.assign {} "total"
                    (.binary {} .add (.name ⟨{}, "total", {}⟩) (.field {} (.name ⟨{}, "found", {}⟩) "x")) {}]⟩],
            .print {} (.name ⟨{}, "total", {}⟩)]),
        .giveBack {} (.name ⟨{}, "total", {}⟩)] }

/-- The code of the program. -/
def tallyUnit : CodeUnit :=
  tally.analyze.program.compile.toOption.getD {}

/-- What a program has printed when its evaluation ends with a value. -/
def printed? (program : Program) (turns : Nat) : Option String :=
  match program.evaluate turns with
  | .ok _ scene => some scene.output
  | .error _ _ => none

theorem load_evaluates_tally : tally.callFree = true ∧ tally.analyze.program.compile = .ok tallyUnit ∧
    tally.printed? 5 = some "0\n2\n5\n" ∧
    ∃ enough, ∀ fuel ≥ enough, SameOutcome "" (tally.evaluate 5) (load fuel tallyUnit (.ofConfig {})) := by
  have hfree : tally.callFree = true := by decide +kernel
  have hcompile : tally.analyze.program.compile = .ok tallyUnit := by
    have hsome : tally.analyze.program.compile.toOption.isSome = true := by decide +kernel
    obtain ⟨unit, hunit⟩ := Option.isSome_iff_exists.mp hsome
    rw [tallyUnit, hunit]
    exact except_of_toOption hunit
  have hverified : tallyUnit.verify = .ok () := by
    have hsome : tallyUnit.verify.toOption.isSome = true := by decide +kernel
    obtain ⟨⟨⟩, hunit⟩ := Option.isSome_iff_exists.mp hsome
    exact except_of_toOption hunit
  have hprinted : tally.printed? 5 = some "0\n2\n5\n" := by decide +kernel
  have hends (scene : Scene) : tally.evaluate 5 ≠ .error .unfinished scene := by
    intro hunfinished
    rw [printed?, hunfinished] at hprinted
    cases hprinted
  exact ⟨hfree, hcompile, hprinted,
    load_evaluates (by decide +kernel) hfree (by decide +kernel) hcompile hverified hends (sound_ofConfig {})⟩

end Program

end OwnScript
