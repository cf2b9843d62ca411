import OwnScript.Proofs.Host.Limits
import OwnScript.Proofs.Machine.Complaints

/-!
The calls that a failure lists. A call is pending from the instruction that makes it to the one that ends it.
The list is written down beside the run, from the instructions that are carried out, and the calls that a
failure lists, which the machine reads off its frames, are those that are pending at that moment.
-/

namespace OwnScript

open Stateful

/-- A call that has not ended: the function that makes it, and the offset of the instruction there. -/
structure PendingCall where
  caller : Option Prototype
  offset : Nat

/-- The function that runs and the calls that have led to it, the last one first. -/
structure CallChain where
  running : Option Prototype
  pending : List PendingCall

/-- An active call as a failure lists it: the function, and where it stands. -/
def Diagnostic.Frame.at (function : Option Prototype) (offset : Nat) : Diagnostic.Frame where
  function := closureName function
  offset := offset
  location := ((function.bind (·.chunk)).map (·.locationAt offset)).getD {}

/-- The function whose closure is in a slot of the stack. -/
def Machine.functionAt (m : Machine) (slot : Nat) : Option Prototype :=
  match m.stack[slot]?.bind m.heap.objectOf? with
  | some (.closure prototype _) => prototype
  | _ => none

namespace CallChain

/-- The calls once the instruction at hand is completed. One that ends the call by the host leaves nothing to
go back to. -/
def completed (chain : CallChain) (m : Machine) : CallChain :=
  match (chain.running.bind (·.chunk)).bind (·.instructionAt? m.ip) with
  | some (.call, argumentCount, _) =>
    { running := m.functionAt (m.stack.size - 1 - argumentCount)
      pending := ⟨chain.running, m.ip⟩ :: chain.pending }
  | some (.ret, _, _) | some (.halt, _, _) =>
    match chain.pending with
    | [] => chain
    | call :: rest => { running := call.caller, pending := rest }
  | _ => chain

/-- The active calls, innermost first: the function that runs, at an offset, and the callers, each at its
call. -/
def entries (chain : CallChain) (offset : Nat) : List Diagnostic.Frame :=
  .at chain.running offset :: chain.pending.map fun call => .at call.caller call.offset

variable {chain : CallChain} {m : Machine} {chunk : Chunk} {op : Opcode} {a b : Nat}

theorem completed_eq_self (hchunk : chain.running.bind (·.chunk) = some chunk)
    (hinstruction : chunk.instructionAt? m.ip = some (op, a, b)) (hcall : op ≠ .call) (hleaves : ¬ op.leaves) :
    chain.completed m = chain := by
  rw [completed, hchunk, Option.bind_some, hinstruction]
  cases op with
  | call => exact absurd rfl hcall
  | ret => exact absurd (.inl rfl) hleaves
  | halt => exact absurd (.inr rfl) hleaves
  | _ => rfl

theorem completed_of_call (hchunk : chain.running.bind (·.chunk) = some chunk)
    (hinstruction : chunk.instructionAt? m.ip = some (.call, a, b)) :
    chain.completed m =
      { running := m.functionAt (m.stack.size - 1 - a), pending := ⟨chain.running, m.ip⟩ :: chain.pending } := by
  rw [completed, hchunk, Option.bind_some, hinstruction]

theorem completed_of_leaves (hchunk : chain.running.bind (·.chunk) = some chunk)
    (hinstruction : chunk.instructionAt? m.ip = some (op, a, b)) (hleaves : op.leaves) {call : PendingCall}
    {rest : List PendingCall} (hpending : chain.pending = call :: rest) :
    chain.completed m = { running := call.caller, pending := rest } := by
  rw [completed, hchunk, Option.bind_some, hinstruction]
  rcases hleaves with rfl | rfl
  · rw [hpending]
  · rw [hpending]

end CallChain

namespace Machine

/-- Active calls, innermost first, and the calls that they are pending for. Each runs the function of its
closure, and each but the last was made by an instruction of its caller and goes on behind it. -/
inductive CallsPending (heap : Heap) : List Frame → Option Prototype → List PendingCall → Prop where
  | host {frame : Frame} {function : Option Prototype} {cells : Array (Option Ref)} :
      heap.get? frame.closure = some (.closure function cells) → frame.caller = none →
      CallsPending heap [frame] function []
  | call {frame : Frame} {rest : List Frame} {function caller : Option Prototype}
      {cells : Array (Option Ref)} {chunk : Chunk} {offset : Nat} {pending : List PendingCall} :
      heap.get? frame.closure = some (.closure function cells) → caller.bind (·.chunk) = some chunk →
      chunk.StartsAt offset .call → frame.caller = some chunk →
      frame.returnTo = offset + Opcode.call.size → CallsPending heap rest caller pending →
      CallsPending heap (frame :: rest) function (⟨caller, offset⟩ :: pending)

variable {heap after : Heap} {frames : List Frame} {function : Option Prototype} {pending : List PendingCall}

/-- Machines in the same calls, of the same closures. -/
structure SameCalls (m after : Machine) : Prop where
  frames : after.frames = m.frames
  closures : ∀ frame ∈ m.frames.toList, ∀ prototype cells,
    m.heap.get? frame.closure = some (.closure prototype cells) →
    after.heap.get? frame.closure = some (.closure prototype cells)

theorem SameCalls.trans {m middle after : Machine} (hfirst : SameCalls m middle) (hsecond : SameCalls middle after) :
    SameCalls m after :=
  ⟨hsecond.frames.trans hfirst.frames, fun frame hframe prototype cells hclosure =>
    hsecond.closures frame (hfirst.frames.symm ▸ hframe) prototype cells
      (hfirst.closures frame hframe prototype cells hclosure)⟩

theorem sameCalls_collectGarbage {m : Machine} (hidle : m.heap.Idle) : SameCalls m m.collectGarbage :=
  ⟨rfl, fun _ hframe _ _ hclosure => (get?_collectGarbage hidle hframe).trans hclosure⟩

theorem sameCalls_safepoint {m : Machine} (hidle : m.heap.Idle) : SameCalls m m.safepoint :=
  ⟨(Exec.safepoint_same m).2.1, fun _ hframe _ _ hclosure => (get?_safepoint hidle hframe).trans hclosure⟩

theorem CallsPending.of_closures (hcalls : CallsPending heap frames function pending)
    (hkept : ∀ frame ∈ frames, ∀ prototype cells,
      heap.get? frame.closure = some (.closure prototype cells) →
      after.get? frame.closure = some (.closure prototype cells)) :
    CallsPending after frames function pending := by
  induction hcalls with
  | host hclosure hcaller => exact .host (hkept _ (List.mem_cons_self ..) _ _ hclosure) hcaller
  | call hclosure hchunk hstarts hcaller hreturn _ ih =>
    refine .call (hkept _ (List.mem_cons_self ..) _ _ hclosure) hchunk hstarts hcaller hreturn (ih ?_)
    intro frame hframe
    exact hkept frame (List.mem_cons_of_mem _ hframe)

theorem CallsPending.of_same {m after : Machine} (hsame : SameCalls m after)
    (hcalls : CallsPending m.heap m.frames.toList.reverse function pending) :
    CallsPending after.heap after.frames.toList.reverse function pending := by
  rw [hsame.frames]
  exact hcalls.of_closures fun frame hframe => hsame.closures frame (List.mem_reverse.mp hframe)

theorem CallsPending.running {frame : Frame} {rest : List Frame} {prototype : Option Prototype}
    {cells : Array (Option Ref)} (hcalls : CallsPending heap (frame :: rest) function pending)
    (hclosure : heap.get? frame.closure = some (.closure prototype cells)) : function = prototype := by
  cases hcalls with
  | host hown =>
    cases hown.symm.trans hclosure
    rfl
  | call hown =>
    cases hown.symm.trans hclosure
    rfl

theorem CallsPending.length (hcalls : CallsPending heap frames function pending) :
    frames.length = pending.length + 1 := by
  induction hcalls with
  | host => rfl
  | call _ _ _ _ _ _ ih => exact congrArg (· + 1) ih

/-- Whoever has made a pending call waits at that call, in its own code. -/
theorem CallsPending.waits (hcalls : CallsPending heap frames function pending) {call : PendingCall}
    (hcall : call ∈ pending) :
    ∃ chunk, call.caller.bind (·.chunk) = some chunk ∧ chunk.StartsAt call.offset .call := by
  induction hcalls with
  | host => cases hcall
  | call _ hchunk hstarts _ _ _ ih =>
    rcases List.mem_cons.mp hcall with rfl | hrest
    · exact ⟨_, hchunk, hstarts⟩
    · exact ih hrest

theorem functionName_closure {m : Machine} {ref : Ref} {cells : Array (Option Ref)}
    (hclosure : m.heap.get? ref = some (.closure function cells)) :
    m.functionName ref = closureName function := by
  simp only [functionName, hclosure]

/-- What the machine reads off its frames are the pending calls. -/
theorem CallsPending.activeCalls {m : Machine} (hcalls : CallsPending m.heap frames function pending)
    (offset : Nat) :
    m.activeCalls frames (function.bind (·.chunk)) offset = CallChain.entries ⟨function, pending⟩ offset := by
  induction hcalls generalizing offset with
  | host hclosure =>
    simp only [Machine.activeCalls, functionName_closure hclosure]
    rfl
  | @call frame rest function caller cells chunk waiting pending hclosure hchunk _ hcaller hreturn _ ih =>
    have hback : frame.returnTo - Opcode.call.size = waiting := by omega
    simp only [Machine.activeCalls, functionName_closure hclosure, hback]
    rw [hcaller, ← hchunk, ih waiting]
    rfl

end Machine

namespace Exec

open Machine

variable {sizes : Nat → Prop} {m after start : Machine} {chain : CallChain}

theorem functionAt_closure {slot : Nat} {closure : Ref} {function : Option Prototype}
    {cells : Array (Option Ref)} (hslot : m.stack[slot]? = some (.ofRef closure))
    (hget : m.heap.get? closure = some (.closure function cells)) : m.functionAt slot = function := by
  have hobject : m.heap.objectOf? (.ofRef closure) = some (.closure function cells) := hget
  simp only [functionAt, hslot, Option.bind_some, hobject]

/-- An instruction makes a call, ends one or does neither, and the pending calls follow. -/
theorem pending_dispatch (hplace : m.InPlace sizes) (hintact : m.Intact)
    (hcalls : CallsPending m.heap m.frames.toList.reverse chain.running chain.pending)
    (hresult : dispatch m = .ok () after) :
    after.halted = true ∨
      CallsPending after.heap after.frames.toList.reverse (chain.completed m).running
        (chain.completed m).pending := by
  have hpreserved := InPlace.preserved_dispatch hplace
  rw [hresult] at hpreserved
  have hkept {frames : List Frame} {function : Option Prototype} {pending : List PendingCall}
      (h : CallsPending m.heap frames function pending) : CallsPending after.heap frames function pending :=
    h.of_closures fun _ _ _ _ h => hpreserved.closure hintact h
  cases hframe : m.frames.back? with
  | none =>
    rw [dispatch_no_call hplace hframe] at hresult
    cases hresult
  | some frame =>
    obtain ⟨function, cells, chunk, op, a, b, hstanding⟩ := hplace.standing hframe
    obtain ⟨running, pending⟩ := chain
    obtain rfl : running = some function := by
      rw [frames_eq hframe] at hcalls
      exact hcalls.running hstanding.closure
    have hchunk : (some function).bind (·.chunk) = some chunk := hstanding.own
    cases Standing.flows hplace hstanding hframe hresult with
    | stays hcall hleaves hframes =>
      refine .inr ?_
      rw [CallChain.completed_eq_self hchunk hstanding.instruction hcall hleaves, hframes]
      exact hkept hcalls
    | @enters closure prototype inner hcall hcallee hget hafter =>
      subst hcall hafter
      refine .inr ?_
      rw [CallChain.completed_of_call hchunk hstanding.instruction, functionAt_closure hcallee hget]
      simp only [entered, Array.toList_push, List.reverse_append, List.reverse_singleton, List.singleton_append]
      exact .call hget hchunk hstanding.starts hstanding.running rfl hcalls
    | returns hleaves hcaller hframes =>
      refine .inr ?_
      rw [frames_eq hframe] at hcalls
      generalize hrest : m.frames.pop.toList.reverse = rest at hcalls
      cases hcalls with
      | host _ hnone =>
        rw [hcaller] at hnone
        cases hnone
      | call _ _ _ _ _ hwaiting =>
        rw [CallChain.completed_of_leaves hchunk hstanding.instruction hleaves rfl, hframes, hrest]
        exact hkept hwaiting
    | finishes stack leftovers value _ _ hafter =>
      subst hafter
      exact .inl rfl

/-- An instruction that cannot be carried out leaves the machine in the calls that it was in. -/
theorem sameCalls_failed (horderly : m.Orderly) (hplace : m.InPlace sizes) {fault : Fault}
    (hresult : dispatch m.safepoint = .error fault after) (hframes : after.frames = m.safepoint.frames) :
    SameCalls m after := by
  have hready := horderly.safepoint
  have hpreserved := InPlace.preserved_dispatch (hplace.safepoint horderly.heap.idle)
  rw [hresult] at hpreserved
  refine (sameCalls_safepoint horderly.heap.idle).trans ⟨hframes, fun frame _ prototype cells hclosure => ?_⟩
  exact hpreserved.closure hready.intact hclosure

/-- An instruction that gives up leaves the machine in the calls that it was in. -/
theorem sameCalls_gaveUp (horderly : m.Orderly) (hplace : m.InPlace sizes) {retried : Bool}
    (hturn : turn retried m = .ok true after) : SameCalls m after := by
  have hready := horderly.safepoint
  have hchanges : Changes (fun _ => True) m.safepoint (stateAfter (dispatch m.safepoint)) :=
    changes_dispatch hready.intact fun _ _ => trivial
  unfold turn at hturn
  cases hresult : dispatch m.safepoint with
  | ok value last =>
    rw [hresult] at hturn
    cases hturn
  | error fault last =>
    rw [hresult] at hturn hchanges
    cases fault with
    | exhausted request =>
      dsimp only at hturn
      split at hturn
      · cases hturn
      · cases hturn
        have hidle : Heap.Idle (Machine.heap { last with ip := last.instructionStart }) :=
          (hchanges.tended hready).orderly.heap.idle
        obtain ⟨hframes, -⟩ | ⟨_, -, -, _, h⟩ := failed_dispatch hresult
        · have hback := sameCalls_failed horderly hplace hresult hframes
          have hmoved : SameCalls m { last with ip := last.instructionStart } := ⟨hback.frames, hback.closures⟩
          exact hmoved.trans (sameCalls_collectGarbage hidle)
        · cases h
    | failure diagnostic => cases hturn
    | stray => cases hturn
    | outOfFuel => cases hturn

/-- What a machine was doing when a complaint was raised: it was at an instruction of the same calls. -/
structure Raised (m : Machine) (failed : Diagnostic) (stopped : Machine) : Prop where
  calls : SameCalls m stopped
  chunk : stopped.chunk = m.chunk
  offset : stopped.instructionStart = m.ip
  complaint : ∃ diagnostic, Complaint True diagnostic ∧ failed = stopped.locate diagnostic

/-- A failure lists the calls that are pending, and names the place of the instruction. -/
theorem Raised.lists {failed : Diagnostic} {stopped : Machine} (hraised : Raised m failed stopped)
    (hplace : m.InPlace sizes) (hcalls : CallsPending m.heap m.frames.toList.reverse chain.running chain.pending) :
    failed.frames = chain.entries m.ip ∧ failed.frames.length = m.frames.size ∧
      ∃ function chunk op, chain.running = some function ∧ function.chunk = some chunk ∧
        chunk.StartsAt m.ip op ∧ failed.location = chunk.locationAt m.ip := by
  obtain ⟨diagnostic, ⟨hlocation, hnoFrames, -⟩, rfl⟩ := hraised.complaint
  obtain ⟨frame, hframe⟩ : ∃ frame, m.frames.back? = some frame := by
    cases hframe : m.frames.back? with
    | some frame => exact ⟨frame, rfl⟩
    | none =>
      have hlength := hcalls.length
      rw [Array.back?_eq_none_iff.mp hframe] at hlength
      cases hlength
  obtain ⟨function, cells, chunk, op, a, b, hstanding⟩ := hplace.standing hframe
  have hrunning : chain.running = some function := by
    rw [frames_eq hframe] at hcalls
    exact hcalls.running hstanding.closure
  have hcode : m.chunk = chain.running.bind (·.chunk) := by
    rw [hrunning, hstanding.running]
    exact hstanding.own.symm
  have hlisted : (stopped.locate diagnostic).frames = chain.entries m.ip := by
    simp only [locate, hnoFrames, List.nil_append, hraised.chunk, hraised.offset, hcode]
    exact (hcalls.of_same hraised.calls).activeCalls m.ip
  refine ⟨hlisted, ?_, function, chunk, op, hrunning, hstanding.own, hstanding.starts, ?_⟩
  · rw [hlisted, CallChain.entries, List.length_cons, List.length_map, ← hcalls.length, List.length_reverse,
      Array.length_toList]
  · have hunknown : diagnostic.location.known = false := by rw [hlocation]; rfl
    simp only [locate, hraised.chunk, hstanding.running, hunknown, hraised.offset]
    rfl

/-- A machine in order and within its limits, as every machine is that serves a host. -/
structure Trim (m : Machine) : Prop where
  orderly : m.Orderly
  shape : m.InShape

theorem trim_of_good {config : MachineConfig} (hgood : Good (fun m => m.InShape ∧ m.config = config) m) : Trim m :=
  ⟨hgood.orderly, hgood.holds.1⟩

theorem Trim.good (htrim : Trim m) : Good (fun other => other.InShape ∧ other.config = m.config) m :=
  ⟨htrim.orderly, htrim.shape, rfl⟩

/-- The limits of a machine as something that lasts. -/
theorem enduring_shape (m : Machine) : Enduring { machine := m.config } (fun _ => True) (fun _ => True)
    (fun other => other.InShape ∧ other.config = m.config) :=
  enduring_inShape { machine := m.config }

/-- Whatever a host does, the machine stays in order and within its limits, and its calls stay in place. -/
theorem kept_inPlace :
    Kept (fun _ => True) (fun _ _ => True) (fun m => Trim m ∧ m.Stocked fun _ => True)
      (fun m => Trim m ∧ m.InPlace fun _ => True) where
  rest_of_active h := ⟨h.1, h.2.stocked⟩
  fresh config := ⟨trim_of_good ⟨orderly_ofConfig config, (enduring_inShape config).fresh⟩,
    fun ref prototype cells h => by simp [Machine.ofConfig, Heap.ofConfig, Heap.get?] at h⟩
  pinned {m _} _ h := ⟨trim_of_good ((enduring_shape m).good_pinned h.1.good _), h.2⟩
  again {m _ _} _ h := ⟨trim_of_good ((enduring_shape m).good_pinned h.1.good _), h.2⟩
  unpinned {m _ _} _ h := ⟨trim_of_good ((enduring_shape m).good_pinned h.1.good _), h.2⟩
  resumed {m} h := ⟨trim_of_good ((enduring_shape m).good_apart h.1.good ⟨rfl, rfl, rfl, rfl, rfl⟩), h.2⟩
  collected {m} h := ⟨trim_of_good ((enduring_shape m).good_collectGarbage h.1.good),
    h.2.of_closures fun _ _ _ hclosure => .inl (closures_collectGarbage h.1.orderly.heap.idle hclosure)⟩
  string {m} h text := ⟨trim_of_good ((enduring_shape m).good_makeString h.1.good text trivial),
    stocked_makeString h.1.orderly h.2 text⟩
  script {m unit} _ h := by
    have htrim := trim_of_good ((enduring_shape m).good_enterScript h.1.good unit trivial)
    obtain ⟨hstocked, hplace⟩ := inPlace_enterScript trivial h.1.orderly h.2
    refine ⟨⟨htrim, hstocked⟩, fun start hstart => ⟨?_, hplace start hstart⟩⟩
    rwa [hstart] at htrim
  function {m values arguments} _ h function := by
    have htrim := trim_of_good ((enduring_shape m).good_enterFunction h.1.good function arguments)
    obtain ⟨hstocked, hplace⟩ := inPlace_enterFunction h.2 function arguments
    refine ⟨⟨htrim, hstocked⟩, fun start hstart => ⟨?_, hplace start hstart⟩⟩
    rwa [hstart] at htrim
  turn {m} h _ retried := by
    have htrim := trim_of_good ((enduring_shape m).good_turn h.1.good (furnished_anything m) retried)
    obtain ⟨hstocked, hplace⟩ := inPlace_turn h.1.orderly h.2 retried
    refine ⟨⟨htrim, hstocked⟩, fun again after hturn => ⟨?_, hplace again after hturn⟩⟩
    rwa [hturn] at htrim

end Exec

/-- A machine at an instruction boundary, with its pending calls. -/
structure Traced where
  machine : Machine
  /-- Whether the last instruction gave up and will be tried again. -/
  retried : Bool
  chain : CallChain

namespace Traced

open Machine Exec

/-- A machine whose run starts. The function that the host calls is at the bottom of the stack. -/
def ofStart (start : Machine) : Traced :=
  ⟨start, false, ⟨start.functionAt 0, []⟩⟩

/-- One turn of a run: an instruction gives up and changes nothing about the calls, or it is completed. -/
inductive Step (w : Traced) : Traced → Prop where
  | gaveUp {after : Machine} : w.machine.halted = false → turn w.retried w.machine = .ok true after →
      Step w ⟨after, true, w.chain⟩
  | completed {after : Machine} : w.machine.halted = false → turn w.retried w.machine = .ok false after →
      Step w ⟨after, false, w.chain.completed w.machine.safepoint⟩

/-- Any number of turns. -/
abbrev Runs : Traced → Traced → Prop :=
  Relation.ReflTransGen Step

/-- What holds at every boundary: the calls are in place, and unless the run has ended they are the pending
ones. -/
structure Consistent (w : Traced) : Prop where
  trim : Trim w.machine
  place : w.machine.InPlace fun _ => True
  pending : w.machine.halted = false →
    CallsPending w.machine.heap w.machine.frames.toList.reverse w.chain.running w.chain.pending

variable {w later : Traced}

theorem Consistent.step (hconsistent : w.Consistent) (hstep : w.Step later) : later.Consistent := by
  obtain ⟨m, retried, chain⟩ := w
  obtain ⟨htrim, hplace, hpending⟩ := hconsistent
  have horderly := htrim.orderly
  dsimp only at *
  cases hstep with
  | @gaveUp after hrunning hturn =>
    obtain ⟨htrimAfter, hplaceAfter⟩ := (kept_inPlace.turn ⟨htrim, hplace⟩ hrunning retried).2 _ _ hturn
    exact ⟨htrimAfter, hplaceAfter, fun _ =>
      (hpending hrunning).of_same (sameCalls_gaveUp horderly hplace hturn)⟩
  | @completed after hrunning hturn =>
    obtain ⟨htrimAfter, hplaceAfter⟩ := (kept_inPlace.turn ⟨htrim, hplace⟩ hrunning retried).2 _ _ hturn
    refine ⟨htrimAfter, hplaceAfter, fun hstill => ?_⟩
    have hready := (hpending hrunning).of_same (sameCalls_safepoint horderly.heap.idle)
    refine (pending_dispatch (hplace.safepoint horderly.heap.idle) horderly.safepoint.intact hready
      (dispatch_of_completed hturn)).resolve_left fun hhalted => ?_
    change after.halted = false at hstill
    rw [hhalted] at hstill
    cases hstill

theorem Consistent.runs (hconsistent : w.Consistent) (hruns : w.Runs later) : later.Consistent := by
  induction hruns with
  | refl => exact hconsistent
  | tail _ hstep ih => exact ih.step hstep

theorem consistent_ofStart {start : Machine} (htrim : Trim start) (hplace : start.InPlace fun _ => True)
    {frame : Frame} (hopening : Opening start frame) : (ofStart start).Consistent := by
  refine ⟨htrim, hplace, fun _ => ?_⟩
  have hframe : start.frames.back? = some frame := by rw [hopening.frames]; rfl
  obtain ⟨function, cells, _, _, _, _, hstanding⟩ := hplace.standing hframe
  change CallsPending start.heap start.frames.toList.reverse (start.functionAt 0) []
  rw [functionAt_closure hopening.function hstanding.closure, hopening.frames]
  exact .host hstanding.closure hopening.caller

end Traced

namespace Exec

open Machine Traced

/-- A function that negates nil, which cannot be done. -/
def negatingFunction : Prototype :=
  let code := (({} : Chunk).writeOp .pushNil ⟨1, 17⟩).writeOp .negate ⟨1, 16⟩
  { name := "negating", chunk := some (code.writeOp .ret ⟨1, 9⟩) }

/-- A unit whose script calls that function. -/
def negatingUnit : CodeUnit :=
  let empty : Chunk := { functions := #[some negatingFunction] }
  let closure := (empty.writeOp .closure ⟨2, 1⟩).writeShort 0 ⟨2, 1⟩
  let called := (closure.writeOp .call ⟨2, 9⟩).writeShort 0 ⟨2, 9⟩
  { script := some { name := "<script>", chunk := some (called.writeOp .halt ⟨3, 1⟩), maxSlots := 1 } }

end Exec

end OwnScript
