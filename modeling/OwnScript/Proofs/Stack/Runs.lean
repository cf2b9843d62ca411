import OwnScript.Proofs.Stack.Steps
import OwnScript.Proofs.Lowering.Generation

/-!
Whole runs of compiled programs. The machine is aligned when a script or a function is entered, every turn
keeps it so, also one that finds the heap full, and so a run ends with a value or with an ordinary failure.
-/

namespace OwnScript

open Stateful Profile

namespace Machine

variable {globals : GlobalTable} {statements : List Stmt} {m after : Machine} {known : Nat → Prop}
  {top : Option Bool} {frame : Frame}

/-- The slots that an instruction wants to capture depend on the innermost call alone. -/
theorem wanted_eq_of_call (hframe : m.frames.back? = some frame) {prototype : Option Prototype}
    {cells : Array (Option Ref)} (hclosure : m.heap.get? frame.closure = some (.closure prototype cells))
    (hstill : after.heap.get? frame.closure = some (.closure prototype cells))
    (hframes : after.frames = m.frames) (hchunk : after.chunk = m.chunk) (hip : after.ip = m.ip) :
    after.wanted = m.wanted := by
  have hslots (inner : Prototype) : after.closureSlots inner = m.closureSlots inner := by
    simp only [closureSlots, hframes, hframe, hclosure, hstill]
  simp only [wanted, instruction?, hchunk, hip, hslots]

/-- An instruction wants slots of its own frame. -/
theorem wanted_above (hframe : m.frames.back? = some frame) {slot : Nat} (hslot : slot ∈ m.wanted) :
    frame.base ≤ slot := by
  unfold wanted at hslot
  split at hslot
  · split at hslot
    · simp only [closureSlots, hframe] at hslot
      split at hslot
      · obtain ⟨capture, -, -, rfl⟩ := Exec.mem_capturedSlots hslot
        exact Nat.le_add_right ..
      · cases hslot
    · cases hslot
  · cases hslot

/-- An aligned machine stays so if its heap follows, the closures of its calls are kept and new cells are
those that its next instruction wants. -/
theorem Aligned.carry (haligned : m.Aligned globals statements) (hstack : after.stack = m.stack)
    (hframes : after.frames = m.frames) (hchunk : after.chunk = m.chunk) (hip : after.ip = m.ip)
    (hglobals : after.globals = m.globals) (hfollows : m.heap.Follows (compiledOnly globals) after.heap)
    (hoffers : after.heap.Offers (compiledOnly globals))
    (hkept : ∀ frame ∈ m.frames, ∀ prototype cells, m.heap.get? frame.closure = some (.closure prototype cells) →
      after.heap.get? frame.closure = some (.closure prototype cells))
    (habove : after.CellsAbove)
    (hopen : ∀ slot ∈ after.openSlots, slot ∈ m.openSlots ∨ slot ∈ m.wanted) :
    after.Aligned globals statements where
  offers := ⟨hoffers, fun i value hi hvalue =>
    (haligned.offers.stack i value hi (hstack ▸ hvalue)).follows hfollows⟩
  admitted slot value hvalue := (haligned.admitted slot value (hglobals ▸ hvalue)).follows hfollows
  above := habove
  calls frame hframe := by
    rw [hframes] at hframe
    obtain ⟨known, top, hline⟩ := haligned.calls frame hframe
    obtain ⟨function, asScript, hcurrent⟩ := hline.current hframe
    obtain ⟨cells, hclosure⟩ := hcurrent.closure
    have hwanted : after.wanted = m.wanted :=
      wanted_eq_of_call hframe hclosure (hkept frame (Array.mem_of_back? hframe) _ _ hclosure) hframes hchunk hip
    refine ⟨known, top, hstack ▸ hline.inside, fun slot hslot => ?_, ?_, fun flag hflag => ?_⟩
    · rw [hwanted]
      exact (hopen slot hslot).elim (hline.cells slot) .inr
    · rw [hframes, hip, hstack]
      exact hline.calls.transport (fun frame hframe => hkept frame (by simpa using hframe)) fun _ _ h => h
    · obtain ⟨value, hvalue, htruthy⟩ := hline.answer flag hflag
      exact ⟨value, hstack ▸ hvalue, htruthy⟩

theorem Aligned.collectGarbage (haligned : m.Aligned globals statements) (hidle : m.heap.Idle) :
    m.collectGarbage.Aligned globals statements := by
  refine haligned.carry rfl rfl rfl rfl rfl (Heap.follows_collect hidle _) (haligned.offers.heap.collect hidle _)
    (fun frame hframe prototype cells h => ?_) haligned.above fun _ => .inl
  have hroot := closure_mem_roots (Array.mem_toList_iff.mpr hframe)
  rw [Machine.collectGarbage, (Heap.collect_spec hidle m.roots).reached _ (.root hroot rfl)]
  exact h

theorem Aligned.safepoint (haligned : m.Aligned globals statements) (hidle : m.heap.Idle) :
    m.safepoint.Aligned globals statements := by
  have hnoted {other : Machine} (hother : other.Aligned globals statements) (instructionStart : Nat)
      (trace : String) : Aligned globals statements { other with instructionStart, trace } :=
    hother.carry rfl rfl rfl rfl rfl (.refl _) hother.offers.heap (fun _ _ _ _ h => h) hother.above fun _ => .inl
  obtain ⟨trace, hcollected | hsame⟩ := m.safepoint_cases
  · rw [hcollected]
    exact hnoted (haligned.collectGarbage hidle) _ _
  · rw [hsame]
    exact hnoted haligned _ _

/-- A machine at an instruction boundary of a run, or one whose run has just ended. -/
structure Underway (globals : GlobalTable) (statements : List Stmt) (m : Machine) : Prop where
  course : m.OnCourse
  sound : m.Sound
  aligned : m.Aligned globals statements
  active : m.halted = false → ∃ frame, m.frames.back? = some frame

theorem Underway.safepoint (hunderway : m.Underway globals statements) :
    m.safepoint.Underway globals statements where
  course := hunderway.course.safepoint hunderway.sound.idle
  sound := hunderway.sound.safepoint
  aligned := hunderway.aligned.safepoint hunderway.sound.idle
  active h := by
    obtain ⟨trace, hcollected | hsame⟩ := m.safepoint_cases
    · rw [hcollected] at h ⊢
      exact hunderway.active h
    · rw [hsame] at h ⊢
      exact hunderway.active h

end Machine

namespace Exec

open Machine

variable {globals : GlobalTable} {statements : List Stmt} {m after : Machine} {frame : Frame}

/-- The instruction was carried out. -/
theorem aligned_of_advances (haligned : m.Aligned globals statements)
    (htends : Tends (compiledOnly globals) m after) (hadvances : m.Advances globals statements after) :
    after.Aligned globals statements where
  offers := htends.offers
  admitted slot value hvalue :=
    (htends.globals slot value hvalue).elim
      (fun h => (haligned.admitted slot value h).follows htends.follows) id
  above := hadvances.above
  calls frame hframe := by
    obtain ⟨known, top, hline, -⟩ := hadvances.calls frame hframe
    exact ⟨known, top, hline⟩

/-- The heap was full: the instruction will run again, and may have captured some of the slots that it
wants. -/
theorem aligned_of_full (haligned : m.Aligned globals statements) (hcourse : m.OnCourse) (hsound : m.Sound)
    (hframe : m.frames.back? = some frame) {request : HeapExhausted}
    (hfull : dispatch m = .error (.exhausted request) after) :
    Aligned globals statements { after with ip := m.ip } := by
  have hsteps := steps_dispatch haligned hcourse hsound hframe
  rw [hfull] at hsteps
  obtain ⟨need, hresidue⟩ := residue_of_full hsound hfull
  have hpreserved := preserved_dispatch hcourse
  rw [hfull] at hpreserved
  have hstack := congrArg Machine.stack hresidue.rest
  have hframes := congrArg Machine.frames hresidue.rest
  have hchunk := congrArg Machine.chunk hresidue.rest
  have hglobals := congrArg Machine.globals hresidue.rest
  dsimp only at hstack hframes hchunk hglobals
  obtain ⟨known, top, hline⟩ := haligned.calls frame hframe
  obtain ⟨function, asScript, hcurrent⟩ := hline.current hframe
  refine haligned.carry hstack hframes hchunk rfl hglobals hsteps.1.follows hsteps.1.offers.heap
    (fun _ _ _ _ h => hpreserved.closure hsound.intact h) (fun entry hentry => ?_) hresidue.within
  rcases hresidue.within entry.slot (mem_openSlots.mpr ⟨entry, hentry, rfl⟩) with hopen | hwanted
  · obtain ⟨old, hold, hslot⟩ := mem_openSlots.mp hopen
    exact hslot ▸ haligned.above old hold
  · exact hcurrent.base.trans_le (wanted_above hframe hwanted)

/-- One turn of a run: the machine stays aligned, or the run ends with an ordinary failure. -/
theorem underway_turn (hunderway : m.Underway globals statements) (hrunning : m.halted = false) (retried : Bool) :
    (∀ again after, turn retried m = .ok again after → after.Underway globals statements ∧
      (again = false → m.safepoint.Advances globals statements after)) ∧
    ∀ fault after, turn retried m = .error fault after →
      ∃ diagnostic, fault = .failure diagnostic ∧ diagnostic.kind ≠ .malformedBytecode := by
  have hready := hunderway.safepoint
  obtain ⟨-, -, -, hsame, hbegun, hstill, -⟩ := safepoint_same m
  have hstill : m.safepoint.halted = false := hstill.trans hrunning
  have hip : m.safepoint.instructionStart = m.safepoint.ip := hbegun.trans hsame.symm
  obtain ⟨frame, hframe⟩ := hready.active hstill
  have hsteps := steps_dispatch hready.aligned hready.course hready.sound hframe
  have hcourse := (course_turn hunderway.sound hunderway.course retried).2
  have hsound := sound_turn hunderway.sound retried
  generalize hturn : turn retried m = outcome at hcourse hsound
  unfold turn at hturn
  cases hresult : dispatch m.safepoint with
  | ok value after =>
    rw [hresult] at hsteps hturn
    subst hturn
    refine ⟨fun again last h => ?_, fun fault last h => by cases h⟩
    cases h
    exact ⟨⟨(hcourse _ _ rfl).1, hsound, aligned_of_advances hready.aligned hsteps.1 hsteps.2, hsteps.2.active⟩,
      fun _ => hsteps.2⟩
  | error fault after =>
    rw [hresult] at hsteps hturn
    cases fault with
    | exhausted request =>
      cases retried with
      | true =>
        subst hturn
        refine ⟨(fun again last h => by cases h), fun fault last h => ?_⟩
        cases h
        exact ⟨_, rfl, by simp [Machine.locate, Diagnostic.plain]⟩
      | false =>
        subst hturn
        refine ⟨fun again last h => ?_, fun fault last h => by cases h⟩
        cases h
        obtain ⟨need, hresidue⟩ := residue_of_full hready.sound hresult
        have hstart := congrArg Machine.instructionStart hresidue.rest
        have hframes := congrArg Machine.frames hresidue.rest
        dsimp only at hstart hframes
        have hback := aligned_of_full hready.aligned hready.course hready.sound hframe hresult
        rw [← hip, ← hstart] at hback
        have hidle : after.heap.Idle := by
          have hdispatched := sound_dispatch hready.sound
          rw [hresult] at hdispatched
          exact hdispatched.idle
        refine ⟨⟨(hcourse _ _ rfl).1, hsound, hback.collectGarbage hidle, fun _ => ⟨frame, ?_⟩⟩, fun h => by cases h⟩
        change after.frames.back? = some frame
        rw [hframes, hframe]
    | failure diagnostic =>
      subst hturn
      refine ⟨(fun again last h => by cases h), fun fault last h => ?_⟩
      cases h
      exact ⟨_, rfl, hsteps.2⟩
    | stray => exact hsteps.2.elim
    | outOfFuel => exact hsteps.2.elim

theorem Turns.underway {start : Machine} {retried : Bool} (hturns : Turns start retried m)
    (hstart : start.Underway globals statements) : m.Underway globals statements := by
  induction hturns with
  | start => exact hstart
  | next _ hrunning hturn ih => exact ((underway_turn ih hrunning _).1 _ _ hturn).1

/-- The faults with which a run of a well-shaped program may end: it fails for a reason of its own, or it is
cut off. -/
def Expected : Fault → Prop
  | .failure diagnostic => diagnostic.kind ≠ .malformedBytecode
  | .outOfFuel => True
  | .exhausted _ | .stray => False

/-- A run ends with a result or as expected. -/
def Decent {α : Type} : EStateM.Result Fault Machine α → Prop
  | .ok _ _ => True
  | .error fault _ => Expected fault

/-- A run from an instruction boundary on. -/
theorem underway_runLoop (hunderway : m.Underway globals statements) (fuel : Nat) (retried : Bool) :
    Decent (runLoop fuel retried m) ∧
      ∀ value after, runLoop fuel retried m = .ok value after → after.Supplies globals := by
  induction fuel generalizing m retried with
  | zero => exact ⟨trivial, fun _ _ h => by cases h⟩
  | succ fuel ih =>
    simp only [runLoop]
    rw [get_bind_apply]
    split
    · refine ⟨trivial, fun value after h => ?_⟩
      cases h
      have haligned := hunderway.aligned
      exact ⟨⟨haligned.offers.heap, haligned.offers.stack⟩, haligned.admitted, haligned.above⟩
    · rename_i hrunning
      have hturn := underway_turn hunderway (by simpa using hrunning) retried
      rw [bind_apply]
      generalize turn retried m = result at hturn ⊢
      cases result with
      | ok again after => exact ih (hturn.1 again after rfl).1 again
      | error fault after =>
        obtain ⟨diagnostic, rfl, hkind⟩ := hturn.2 fault after rfl
        exact ⟨hkind, fun _ _ h => by cases h⟩

theorem supplies_reset (hsupplies : m.Supplies globals) : m.reset.Supplies globals := by
  have hclosed := hsupplies.offers.tends.closeCells hsupplies.above 0
  refine ⟨⟨hclosed.offers.heap, fun i value _ h => ?_⟩, fun slot value h => ?_, fun entry hentry => ?_⟩
  · simp [reset] at h
  · refine (hsupplies.admitted slot value ?_).follows hclosed.follows
    exact h
  · refine hsupplies.above entry ?_
    have hrest : entry ∈ (m.closeCells 0).openCells := hentry
    rw [closeCells_eq] at hrest
    exact (List.dropWhile_suffix _).subset hrest

theorem openCells_reset (m : Machine) : m.reset.openCells = [] := by
  have hrest : m.reset.openCells = (m.closeCells 0).openCells := rfl
  rw [hrest, closeCells_eq]
  simp

theorem offers_settled {allowed : Option Prototype → Prop} {base : Machine} (hsettled : m.Settled base)
    (hsound : m.heap.Sound) (hoffers : m.heap.Offers allowed) : base.heap.Offers allowed := by
  cases hsettled with
  | asIs => exact hoffers
  | collected hgave => exact (hoffers.alike hgave.heap).collect (hsound.of_alike hgave.heap).idle _

/-- What a machine says whose stack is full. -/
def overflowFault : Fault :=
  .failure (.plain .stackOverflow "operand stack overflow")

/-- A verified script starts with its closure, which is the only new object, on an empty machine whose globals are
not defined, unless there is no room for it. -/
theorem enterScript_cases {unit : CodeUnit} (hverified : unit.verify = .ok ()) (hsound : m.Sound) :
    (∃ base parked, (m.prepared unit).Settled base ∧ Heap.Alike base.heap parked ∧ base.frames = #[] ∧
      base.stack = #[] ∧ base.openCells = [] ∧ base.globals = Array.replicate unit.globalNames.size none ∧
      enterScript unit m = .ok () (scriptStarted unit base.heap.nextRef
        { base with heap := parked.link (.unboundClosure unit.script) })) ∨
    ∃ fault after, (fault = hostFault ∨ fault = overflowFault) ∧ enterScript unit m = .error fault after := by
  have hready : (m.prepared unit).heap.Sound := by
    obtain ⟨ρ, hcorr⟩ := hsound
    exact (hcorr.prepared unit).heap.leftSound
  rw [enterScript_eq, hverified]
  dsimp only
  rw [bind_apply]
  rcases allocateForHost_cases (.unboundClosure unit.script) hready with
    ⟨base, parked, hsettled, halike, hresult, -⟩ | ⟨gaveUp, after, -, -, hresult, -⟩
  · rw [hresult]
    dsimp only
    rcases startScript_cases unit base.heap.nextRef
      { base with heap := parked.link (.unboundClosure unit.script) } with hstarted | hrefused
    · rw [hstarted]
      have hempty : base.frames = #[] ∧ base.stack = #[] ∧ base.openCells = [] ∧
          base.globals = Array.replicate unit.globalNames.size none := by
        cases hsettled with
        | asIs => exact ⟨rfl, rfl, openCells_reset m, rfl⟩
        | collected hgave =>
          rw [hgave.rest]
          exact ⟨rfl, rfl, openCells_reset m, rfl⟩
      obtain ⟨hframes, hstack, hcells, hglobals⟩ := hempty
      exact .inl ⟨base, parked, hsettled, halike, hframes, hstack, hcells, hglobals, rfl⟩
    · rw [hrefused]
      exact .inr ⟨_, _, .inr rfl, rfl⟩
  · rw [hresult]
    exact .inr ⟨_, _, .inl rfl, rfl⟩

/-- The values in a machine that is prepared for a script. -/
theorem offers_prepared {allowed : Option Prototype → Prop} {unit : CodeUnit} {base : Machine} {parked : Heap}
    (hsound : m.Sound) (hoffers : m.Offers allowed) (habove : m.CellsAbove) (hsettled : (m.prepared unit).Settled base)
    (halike : Heap.Alike base.heap parked) : (parked.link (.unboundClosure unit.script)).Offers allowed := by
  have hready : (m.prepared unit).heap.Sound := by
    obtain ⟨ρ, hcorr⟩ := hsound
    exact (hcorr.prepared unit).heap.leftSound
  have hbase := offers_settled hsettled hready (hoffers.tends.closeCells habove 0).offers.heap
  exact (hbase.alike halike).link_bare rfl

/-- A script starts on an empty frame. -/
theorem underway_enterScript {unit : CodeUnit} (hverified : unit.verify = .ok ()) (hsound : m.Sound)
    (hdedicated : m.Dedicated unit) (hsupplies : m.Supplies globals) {script : Prototype} {F : Listing True}
    (hscript : unit.script = some script) (hcode : ScriptCode globals F script statements) :
    Decent (enterScript unit m) ∧
      ∀ start, enterScript unit m = .ok () start → start.Underway globals statements := by
  have hcourse := (course_enterScript hverified hsound hdedicated).2
  have hentered := sound_enterScript hsound unit
  have hlaid : LaidOut globals statements true script F := by
    refine ⟨?_, hcode⟩
    cases hcode
    assumption
  rcases enterScript_cases hverified hsound with
    ⟨base, parked, hsettled, halike, hframes, hstack, hcells, hglobals, hstarted⟩ | ⟨fault, after, hfault, hrefused⟩
  · have hoffers : (parked.link (.unboundClosure unit.script)).Offers (compiledOnly globals) :=
      offers_prepared hsound hsupplies.offers hsupplies.above hsettled halike
    have hclosure : (parked.link (.unboundClosure unit.script)).get? base.heap.nextRef =
        some (.closure (some script) (Array.replicate script.captures.size none)) := by
      rw [Heap.get?_link, if_pos halike.nextRef.symm, hscript, Object.unboundClosure]
      rfl
    rw [hstarted] at hcourse hentered ⊢
    refine ⟨trivial, fun start h => ?_⟩
    cases h
    refine ⟨(hcourse _ rfl).1, hentered, ⟨⟨⟨hoffers, fun i value hi h => ?_⟩, fun slot value h => ?_, ?_⟩,
      fun frame _ => ⟨fun _ => False, none, fun _ h => h.elim, fun slot hslot => ?_, ?_, fun _ h => by cases h⟩⟩,
      fun _ => ⟨_, Array.back?_push ..⟩⟩
    · simp only [scriptStarted, hstack, Array.getElem?_push] at h
      rw [if_neg (by simpa using hi.ne')] at h
      simp at h
    · change base.globals[slot]? = _ at h
      rw [hglobals, Array.getElem?_replicate] at h
      split at h <;> cases h
    · intro entry hentry
      change entry ∈ base.openCells at hentry
      rw [hcells] at hentry
      cases hentry
    · obtain ⟨entry, hentry, -⟩ := mem_openSlots.mp hslot
      change entry ∈ base.openCells at hentry
      rw [hcells] at hentry
      cases hentry
    · have hsure : Sure globals statements true script 0 ⟨0, 0, knownIn (fun _ => False) 1 1, none⟩ :=
        (sure_script script).of_held fun _ h => h.2
      simp only [scriptStarted, hframes, hstack]
      exact .call Nat.one_pos le_rfl id hclosure hlaid hsure .host
  · rw [hrefused]
    refine ⟨?_, fun start h => by cases h⟩
    rcases hfault with rfl | rfl
    · simp [Decent, Expected, hostFault, Diagnostic.plain]
    · simp [Decent, Expected, overflowFault, Diagnostic.plain]

theorem push_error {value : Value} {fault : Fault} (herror : push value m = .error fault after) :
    fault = overflowFault := by
  simp only [push] at herror
  rw [get_bind_apply] at herror
  split at herror
  · cases herror
    rfl
  · cases herror

theorem pushAll_error {values : List Value} {fault : Fault} (herror : pushAll values m = .error fault after) :
    fault = overflowFault := by
  induction values generalizing m with
  | nil => cases herror
  | cons value rest ih =>
    simp only [pushAll] at herror
    rw [bind_apply] at herror
    cases hpush : push value m with
    | ok _ pushed =>
      rw [hpush] at herror
      exact ih herror
    | error other pushed =>
      rw [hpush] at herror
      cases herror
      exact push_error hpush

/-- A call by the host starts on its arguments. -/
theorem aligned_beginCall {function : String} {callee : Value} {arguments : List Value}
    (hsupplies : m.Supplies globals) (hempty : m.stack = #[]) (hframes : m.frames = #[])
    (hcells : m.openCells = []) (hcallee : m.heap.Admits (compiledOnly globals) callee)
    (harguments : ∀ value ∈ arguments, m.heap.Admits (compiledOnly globals) value) :
    Decent (beginCall function callee arguments m) ∧
      ∀ start, beginCall function callee arguments m = .ok () start → start.Aligned globals statements ∧
        ∃ frame, start.frames.back? = some frame := by
  have hpush := ends_push hsupplies.offers.upholds hcallee
  simp only [beginCall]
  rw [bind_apply]
  cases hfirst : push callee m with
  | error fault pushed =>
    obtain rfl := push_error hfirst
    exact ⟨(by simp [Decent, Expected, overflowFault, fail, Diagnostic.plain]), fun _ h => by cases h⟩
  | ok _ pushed =>
    rw [hfirst] at hpush
    obtain ⟨hupholds, rfl⟩ := hpush
    have hpushes := ends_pushAll hupholds harguments
    dsimp only
    rw [bind_apply]
    cases hsecond : pushAll arguments { m with stack := m.stack.push callee } with
    | error fault pushed =>
      obtain rfl := pushAll_error hsecond
      exact ⟨(by simp [Decent, Expected, overflowFault, fail, Diagnostic.plain]), fun _ h => by cases h⟩
    | ok _ pushed =>
      rw [hsecond] at hpushes
      obtain ⟨hpushed, hrest, hsize⟩ := hpushes
      simp only [Array.size_push, hempty, List.size_toArray, List.length_nil, Nat.zero_add] at hsize
      dsimp only
      rcases callValue_cases callee arguments.length pushed with
        ⟨closure, prototype, cells, rfl, hget, hresult⟩ | ⟨diagnostic, hkind, hresult⟩
      · rw [hresult]
        refine ⟨trivial, fun start h => ?_⟩
        cases h
        have hheap := congrArg Machine.heap hrest
        have hnoFrames := congrArg Machine.frames hrest
        have hglobals := congrArg Machine.globals hrest
        have hnoCells := congrArg Machine.openCells hrest
        dsimp only at hheap hnoFrames hglobals hnoCells
        rw [hframes] at hnoFrames
        rw [hcells] at hnoCells
        have hallowed := (hcallee closure rfl).2 prototype cells (hheap ▸ hget)
        obtain ⟨inner, rfl, F, location, source, hcode⟩ := hallowed
        have hlaid : LaidOut globals statements false inner F := by
          refine ⟨?_, location, source, hcode⟩
          cases hcode
          assumption
        have hbase : pushed.stack.size - arguments.length = 1 := by omega
        have hsure : Sure globals statements false inner arguments.length
            ⟨0, pushed.stack.size - 1, knownIn (fun _ => False) 1 pushed.stack.size, none⟩ := by
          have hheight : pushed.stack.size - 1 = arguments.length := by omega
          rw [hheight]
          exact (sure_function inner arguments.length).of_held fun _ h => h.2
        refine ⟨⟨⟨⟨hpushed.offers.heap, hpushed.offers.stack⟩, fun slot value h => ?_, fun entry hentry => ?_⟩,
          fun frame _ => ⟨fun _ => False, none, fun _ h => h.elim, fun slot hslot => ?_, ?_,
            fun _ h => by cases h⟩⟩, ⟨_, Array.back?_push ..⟩⟩
        · change pushed.globals[slot]? = _ at h
          rw [hglobals] at h
          change pushed.heap.Admits _ value
          rw [hheap]
          exact hsupplies.admitted slot value h
        · change entry ∈ pushed.openCells at hentry
          rw [hnoCells] at hentry
          cases hentry
        · obtain ⟨entry, hentry, -⟩ := mem_openSlots.mp hslot
          change entry ∈ pushed.openCells at hentry
          rw [hnoCells] at hentry
          cases hentry
        · simp only [entered, hnoFrames, hbase]
          exact .call Nat.one_pos (by change 1 ≤ pushed.stack.size; omega) id hget hlaid hsure .host
      · rw [hresult]
        exact ⟨hkind, fun _ h => by cases h⟩

theorem aligned_enterFunction {entry : String} {arguments : List Value} (hsupplies : m.Supplies globals)
    (harguments : ∀ value ∈ arguments, ∃ scalar, value = .scalar scalar) :
    Decent (enterFunction entry arguments m) ∧
      ∀ start, enterFunction entry arguments m = .ok () start → start.Aligned globals statements ∧
        ∃ frame, start.frames.back? = some frame := by
  simp only [enterFunction]
  rw [get_bind_apply]
  cases m.unit.entryPoints[entry]? with
  | none => exact ⟨(by simp [Decent, Expected, fail, Diagnostic.about]), fun _ h => by cases h⟩
  | some slot =>
    dsimp only
    cases hglobal : (m.globals[slot]?).join with
    | none => exact ⟨(by simp [Decent, Expected, fail, Diagnostic.about]), fun _ h => by cases h⟩
    | some callee =>
      dsimp only
      split
      · exact ⟨(by simp [Decent, Expected, fail, Diagnostic.plain, bind_apply]), fun _ h => by cases h⟩
      · have hreset := supplies_reset hsupplies
        have hcleared : Supplies globals { m.reset with hostValues := [] } :=
          ⟨⟨hreset.offers.heap, hreset.offers.stack⟩, hreset.admitted, hreset.above⟩
        have hcallee : m.reset.heap.Admits (compiledOnly globals) callee :=
          hreset.admitted slot callee (Option.join_eq_some_iff.mp hglobal)
        refine @aligned_beginCall globals statements { m.reset with hostValues := [] } entry callee arguments hcleared
          rfl rfl (openCells_reset m) hcallee fun value hvalue => ?_
        obtain ⟨scalar, rfl⟩ := harguments value hvalue
        exact Heap.admits_scalar scalar

/-- The host calls a function of the program with scalars. -/
theorem underway_enterFunction {unit : CodeUnit} {entry : String} {arguments : List Value}
    (hsound : Sound { m with pinned := m.pinned ++ arguments }) (hdedicated : m.Dedicated unit)
    (hsupplies : m.Supplies globals)
    (harguments : ∀ value ∈ arguments, ∃ scalar, value = .scalar scalar) :
    Decent (enterFunction entry arguments { m with pinned := m.pinned ++ arguments }) ∧
      ∀ start, enterFunction entry arguments { m with pinned := m.pinned ++ arguments } = .ok () start →
        start.Underway globals statements := by
  have hpinned : Machine.Dedicated unit { m with pinned := m.pinned ++ arguments } :=
    ⟨hdedicated.loaded, hdedicated.globals, hdedicated.closures⟩
  have hready : Supplies globals { m with pinned := m.pinned ++ arguments } :=
    ⟨⟨hsupplies.offers.heap, hsupplies.offers.stack⟩, hsupplies.admitted, hsupplies.above⟩
  obtain ⟨hdecent, haligned⟩ := aligned_enterFunction hready harguments
  refine ⟨hdecent, fun start h => ?_⟩
  have hentered := sound_enterFunction hsound entry
  rw [h] at hentered
  obtain ⟨hstart, hactive⟩ := haligned start h
  exact ⟨((course_enterFunction hpinned entry arguments).2 start h).1, hentered, hstart, fun _ => hactive⟩

section Programs

variable {unit : CodeUnit} {script : Prototype} {F : Listing True} {entry : String} {arguments : List Value}

theorem Decent.bind {α β : Type} {x : Exec α} {f : α → Exec β} (hfirst : Decent (x m))
    (hnext : ∀ value middle, x m = .ok value middle → Decent (f value middle)) : Decent ((x >>= f) m) := by
  rw [bind_apply]
  cases hresult : x m with
  | ok value middle => exact hnext value middle hresult
  | error fault middle =>
    rw [hresult] at hfirst
    exact hfirst

theorem Decent.withPinned {α : Type} {step : Exec α} {values : List Value}
    (hstep : Decent (step { m with pinned := m.pinned ++ values })) : Decent (withPinned values step m) := by
  simp only [Exec.withPinned]
  generalize step { m with pinned := m.pinned ++ values } = result at hstep ⊢
  cases result with
  | ok value after => exact hstep
  | error fault after => exact hstep

/-- A unit is loaded and its script is run. -/
theorem decent_load (hverified : unit.verify = .ok ()) (hsound : m.Sound) (hdedicated : m.Dedicated unit)
    (hsupplies : m.Supplies globals) (hscript : unit.script = some script)
    (hcode : ScriptCode globals F script statements) (fuel : Nat) :
    Decent (load fuel unit m) ∧ ∀ value after, load fuel unit m = .ok value after → after.Supplies globals := by
  obtain ⟨hdecent, hstart⟩ := underway_enterScript hverified hsound hdedicated hsupplies hscript hcode
  rw [load_eq]
  refine ⟨hdecent.bind fun _ start h => (underway_runLoop (hstart start h) fuel false).1, fun value after h => ?_⟩
  obtain ⟨_, start, henter, hrun⟩ := bind_eq_ok.mp h
  exact (underway_runLoop (hstart start henter) fuel false).2 value after hrun

/-- The machine stays aligned throughout a run. -/
theorem passes_underway (hverified : unit.verify = .ok ()) (hscript : unit.script = some script)
    (hcode : ScriptCode globals F script statements)
    (harguments : ∀ value ∈ arguments, ∃ scalar, value = .scalar scalar)
    (hsound : Sound { m with pinned := m.pinned ++ arguments }) (hdedicated : m.Dedicated unit)
    (hsupplies : m.Supplies globals) (hpasses : Passes (.run unit entry arguments) m after) :
    after.Underway globals statements := by
  have hpinned : Machine.Dedicated unit { m with pinned := m.pinned ++ arguments } :=
    ⟨hdedicated.loaded, hdedicated.globals, hdedicated.closures⟩
  have hready : Supplies globals { m with pinned := m.pinned ++ arguments } :=
    ⟨⟨hsupplies.offers.heap, hsupplies.offers.stack⟩, hsupplies.admitted, hsupplies.above⟩
  cases hpasses with
  | runScript hexecute =>
    cases hexecute with
    | script hstart hturns =>
      exact hturns.underway ((underway_enterScript hverified hsound hpinned hready hscript hcode).2 _ hstart)
  | @runFunction _ _ _ _ loaded _ fuel value hload _ hcall =>
    have hloaded := (decent_load hverified hsound hpinned hready hscript hcode fuel).2 value loaded hload
    have hstill := (lasting_onCourse hverified).load rfl hsound hpinned fuel
    obtain ⟨hafter, hkept⟩ := sound_load hsound fuel unit
    rw [hload] at hstill hafter hkept
    cases hcall with
    | function hstart hturns =>
      exact hturns.underway ((underway_enterFunction (hafter.repin hkept) hstill hloaded harguments).2 _ hstart)

/-- A run ends with a value or with an ordinary failure, unless it is cut off. -/
theorem decent_run (hverified : unit.verify = .ok ()) (hscript : unit.script = some script)
    (hcode : ScriptCode globals F script statements)
    (harguments : ∀ value ∈ arguments, ∃ scalar, value = .scalar scalar)
    (hsound : Sound { m with pinned := m.pinned ++ arguments }) (hdedicated : m.Dedicated unit)
    (hsupplies : m.Supplies globals) (fuel : Nat) : Decent (run fuel unit entry arguments m) := by
  have hpinned : Machine.Dedicated unit { m with pinned := m.pinned ++ arguments } :=
    ⟨hdedicated.loaded, hdedicated.globals, hdedicated.closures⟩
  have hready : Supplies globals { m with pinned := m.pinned ++ arguments } :=
    ⟨⟨hsupplies.offers.heap, hsupplies.offers.stack⟩, hsupplies.admitted, hsupplies.above⟩
  obtain ⟨hdecent, hloaded⟩ := decent_load hverified hsound hpinned hready hscript hcode fuel
  refine Decent.withPinned (hdecent.bind fun value loaded hload => ?_)
  have hstill := (lasting_onCourse hverified).load rfl hsound hpinned fuel
  obtain ⟨hafter, hkept⟩ := sound_load hsound fuel unit
  rw [hload] at hstill hafter hkept
  split
  · trivial
  · rw [callGlobal_eq]
    obtain ⟨hbegun, hstart⟩ := @underway_enterFunction globals statements loaded unit entry arguments
      (hafter.repin hkept) hstill (hloaded value loaded hload) harguments
    exact Decent.withPinned (hbegun.bind fun _ start h => (underway_runLoop (hstart start h) fuel false).1)

theorem offers_ofConfig {allowed : Option Prototype → Prop} (config : Config) : Offers allowed (.ofConfig config) where
  heap ref object h := by simp [Machine.ofConfig, Heap.ofConfig, Heap.get?] at h
  stack i value _ h := by simp [Machine.ofConfig] at h

theorem supplies_ofConfig (config : Config) : Supplies globals (.ofConfig config) where
  offers := offers_ofConfig config
  admitted slot value h := by simp [Machine.ofConfig] at h
  above entry h := by simp [Machine.ofConfig] at h

end Programs

end Exec

end OwnScript
