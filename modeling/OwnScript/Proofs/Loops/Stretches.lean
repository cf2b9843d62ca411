import OwnScript.Proofs.Globals.Instructions
import OwnScript.Proofs.Host.Retries
import OwnScript.Proofs.Loops.Bodies
import OwnScript.Proofs.Stack.Instances
import OwnScript.Proofs.Stack.Openings
import OwnScript.Proofs.Stack.Slots

/-!
Active calls, turn by turn. While control is in a stretch of the code of a call or in a further call that is made there,
every instruction leaves some slots of the call alone: one of the stretch because its code heeds them, one of a further
call because they lie below all that belongs to it. So they have their values when control gets out of the stretch.
-/

namespace OwnScript

open Stateful Profile

namespace Profile

/-- An operation takes no more than the frame holds. -/
theorem Fine.taken_le {globals : GlobalTable} {chunk : Chunk} {arguments : Nat} {next : Profile → Prop}
    {profile : Profile} {op : Opcode} {a b : Nat} (hfine : Fine globals chunk arguments next profile op a b) :
    op.taken chunk a ≤ profile.height := by
  cases hfine with
  | plain _ htaken => exact htaken
  | close hheight => exact hheight
  | ret hheight => exact hheight
  | jump | back | ifFalse | ifTrue | call | halt | closure | matchValue | matchArgs | noMatchingArm
  | noMatchingOverload => exact Nat.zero_le _

end Profile

namespace Machine

variable {globals : GlobalTable} {statements : List Stmt} {m after : Machine} {known : Nat → Prop}
  {top : Option Bool} {frame : Frame} {function : Prototype} {asScript : Bool} {chunk : Chunk}
  {cells : Array (Option Ref)} {op : Opcode} {a b slot : Nat}

namespace Facing

variable (hfacing : m.Facing globals statements known top frame function asScript chunk cells op a b)

include hfacing

theorem flows (hresult : Exec.dispatch m = .ok () after) : Exec.Flows m frame chunk op a after :=
  Exec.Standing.flows hfacing.course.inPlace hfacing.standing hfacing.innermost hresult

/-- The cells that the running closure has captured are listed while they are open. -/
theorem unreached (hfree : slot ∉ m.openSlots) : Unreached slot m :=
  fun _ _ _ _ _ hframe hclosure hcell hopened => hfree (hfacing.sound.listed hframe hclosure hcell hopened)

/-- An instruction has no business with slots below its call. -/
theorem aside_below (hslot : slot + 1 < frame.base) (hfree : slot ∉ m.openSlots) : Aside slot m chunk op a where
  running := hfacing.standing.running
  low := by
    have htaken : op.taken chunk a ≤ m.stack.size - frame.base := hfacing.fine.taken_le
    have hlow := hfacing.current.low
    omega
  unwritten _ own hown := by
    cases hfacing.innermost.symm.trans hown
    omega
  unreached := hfacing.unreached hfree
  uncaptured _ own _ hown _ _ _ _ := by
    cases hfacing.innermost.symm.trans hown
    omega
  lasting _ own hown := by
    cases hfacing.innermost.symm.trans hown
    exact hslot

/-- An instruction that does no harm to a slot of its frame has no business with it, as long as its call goes on. -/
theorem aside_harmless {height : Option Nat} (hheight : ∀ k, height = some k → m.stack.size = frame.base + k)
    (hharmless : op.Harmless chunk slot height a) (hstays : ¬ op.leaves) (hinside : frame.base + slot < m.stack.size)
    (hfree : frame.base + slot ∉ m.openSlots) : Aside (frame.base + slot) m chunk op a where
  running := hfacing.standing.running
  low := by
    rcases hharmless.low with hnone | ⟨k, hk, hlow⟩
    · omega
    · have hsize := hheight k hk
      omega
  unwritten hop own hown := by
    cases hfacing.innermost.symm.trans hown
    have hother := hharmless.unwritten hop
    omega
  unreached := hfacing.unreached hfree
  uncaptured hop own prototype hown hfound capture hcapture hlocal := by
    cases hfacing.innermost.symm.trans hown
    have hother := hharmless.uncaptured hop prototype hfound capture hcapture hlocal
    omega
  lasting hop := absurd hop hstays

end Facing

/-- The next instruction of a run. -/
theorem Underway.facing (hunderway : m.Underway globals statements) (hrunning : m.halted = false) :
    ∃ known top frame function asScript chunk cells op a b,
      m.safepoint.Facing globals statements known top frame function asScript chunk cells op a b := by
  have hready := hunderway.safepoint
  obtain ⟨-, -, -, -, -, hhalted, -⟩ := Exec.safepoint_same m
  obtain ⟨frame, hframe⟩ := hready.active (hhalted.trans hrunning)
  obtain ⟨known, top, function, asScript, chunk, cells, op, a, b, hfacing⟩ :=
    hready.aligned.facing hready.course hready.sound hframe
  exact ⟨known, top, frame, function, asScript, chunk, cells, op, a, b, hfacing⟩

end Machine

namespace Exec

open Machine

variable {globals : GlobalTable} {statements : List Stmt} {m after : Machine} {known : Nat → Prop}
  {top : Option Bool} {frame : Frame} {function : Prototype} {asScript : Bool} {chunk : Chunk}
  {cells : Array (Option Ref)} {op : Opcode} {a b slot : Nat} {retried again : Bool}

/-- A turn that gives up stands where it stood. -/
theorem standsAgain_of_turn (hsound : m.Sound) (hturn : turn retried m = .ok true after) :
    StandsAgain m.safepoint after := by
  have hsafe := retriesSafely_of_sound hsound
  obtain ⟨rfl, asked, aborted, hfull⟩ := hsafe.once _ _ hturn
  obtain ⟨next, hnext, hstands⟩ := hsafe.first asked aborted hfull
  cases hnext.symm.trans hturn
  exact hstands

/-- What a turn that gives up leaves as it was. -/
theorem gaveUp_same (hsound : m.Sound) (hturn : turn retried m = .ok true after) :
    after.stack = m.stack ∧ after.frames = m.frames ∧ after.ip = m.ip := by
  obtain ⟨-, hframes, -, hip, -, -, hstack⟩ := safepoint_same m
  have hrest := (standsAgain_of_turn hsound hturn).rest
  exact ⟨(congrArg Machine.stack hrest).trans hstack, (congrArg Machine.frames hrest).trans hframes,
    (congrArg Machine.ip hrest).trans hip⟩

/-- The closures of the active calls outlast a turn. -/
theorem kept_turn (hunderway : m.Underway globals statements) (hturn : turn retried m = .ok again after)
    (hframe : frame ∈ m.frames) {prototype : Option Prototype} {others : Array (Option Ref)}
    (hclosure : m.heap.get? frame.closure = some (.closure prototype others)) :
    after.heap.get? frame.closure = some (.closure prototype others) := by
  have hready := hunderway.safepoint
  have hmem : frame ∈ m.frames.toList := Array.mem_toList_iff.mpr hframe
  rw [← get?_safepoint hunderway.sound.idle hmem] at hclosure
  cases again with
  | false =>
    have hpreserved := preserved_dispatch hready.course
    rw [dispatch_of_completed hturn] at hpreserved
    exact hpreserved.closure hready.sound.intact hclosure
  | true =>
    have hstands := standsAgain_of_turn hunderway.sound hturn
    obtain ⟨-, hframes, -⟩ := safepoint_same m
    have hroot := closure_mem_roots (hframes.symm ▸ hmem)
    have hsame := hstands.reached frame.closure (.root hroot rfl)
    rw [Heap.get?, hsame]
    exact hclosure

theorem untouched_safepoint (hsound : m.Sound) : Untouched slot m m.safepoint := by
  obtain ⟨hstack, hcells, -⟩ := Watched.relists_safepoint hsound.orderly
  exact .of_eq hstack hcells

/-- A turn leaves a slot alone with which its instruction has no business. -/
theorem untouched_turn (hunderway : m.Underway globals statements)
    (hfacing : m.safepoint.Facing globals statements known top frame function asScript chunk cells op a b)
    (haside : Aside slot m.safepoint chunk op a) (hturn : turn retried m = .ok again after) :
    Untouched slot m after := by
  have hsafe : Untouched slot m m.safepoint := untouched_safepoint hunderway.sound
  have hexecuted : Untouched slot m.safepoint (stateAfter (dispatch m.safepoint)) := by
    have hmoved : Aside slot { m.safepoint with ip := m.safepoint.ip + op.size } chunk op a :=
      ⟨haside.running, haside.low, haside.unwritten, haside.unreached, haside.uncaptured, haside.lasting⟩
    have huntouched := untouched_execute hmoved b
    rw [hfacing.standing.dispatch_eq]
    exact ⟨huntouched.value, huntouched.cell⟩
  have hboth := hsafe.trans hexecuted
  cases again with
  | false =>
    rw [dispatch_of_completed hturn] at hboth
    exact hboth
  | true =>
    obtain ⟨hstack, hcells, -⟩ := Watched.gaveUp_cases hunderway.sound hunderway.sound.orderly hturn
    refine ⟨by rw [hstack], fun h => hboth.cell ?_⟩
    rw [openSlots, ← hcells]
    exact h

/-- A turn that gives up makes no cell for a slot that its instruction does not want. -/
theorem not_open_of_gaveUp (hsound : m.Sound) (hturn : turn retried m = .ok true after)
    (hunwanted : slot ∉ m.safepoint.wanted) (hfree : slot ∉ m.openSlots) : slot ∉ after.openSlots := by
  intro hopen
  obtain ⟨entry, hentry, rfl⟩ := mem_openSlots.mp hopen
  have hstands := standsAgain_of_turn hsound hturn
  by_cases hold : entry ∈ m.safepoint.openCells
  · exact hfree ((untouched_safepoint hsound).cell (mem_openSlots.mpr ⟨entry, hold, rfl⟩))
  · exact hunwanted (hstands.opened entry hentry hold).1

/-- The call that is entered has its arguments to itself and goes back behind the instruction. -/
theorem exists_entered {closure : Ref} {prototype : Option Prototype} (hafter : after = entered m closure prototype a) :
    ∃ called : Frame, after.frames = m.frames.push called ∧ called.base = m.stack.size - a ∧
      called.returnTo = m.ip := by
  subst hafter
  exact ⟨_, rfl, rfl, rfl⟩

/-- In a turn one call is entered or left at most. -/
theorem frames_turn (hunderway : m.Underway globals statements) (hrunning : m.halted = false)
    (hturn : turn retried m = .ok again after) :
    after.frames = m.frames ∨ (∃ frame, after.frames = m.frames.push frame) ∨ after.frames = m.frames.pop := by
  cases again with
  | true => exact .inl (gaveUp_same hunderway.sound hturn).2.1
  | false =>
    obtain ⟨-, hframes, -⟩ := safepoint_same m
    obtain ⟨_, _, _, _, _, _, _, _, _, _, hfacing⟩ := hunderway.facing hrunning
    rw [← hframes]
    cases hfacing.flows (dispatch_of_completed hturn) with
    | stays _ _ hsame => exact .inl hsame
    | enters _ _ _ hafter =>
      obtain ⟨called, hpushed, -⟩ := exists_entered hafter
      exact .inr (.inl ⟨called, hpushed⟩)
    | returns _ _ hpopped => exact .inr (.inr hpopped)
    | finishes stack leftovers result _ _ hafter =>
      subst hafter
      exact .inr (.inr rfl)

end Exec

/-- A call that is active, with those around it, and how its code is laid out. -/
structure ActiveCall (globals : GlobalTable) (statements : List Stmt) where
  calls : Array Frame
  frame : Frame
  function : Prototype
  asScript : Bool
  code : Listing True
  innermost : calls.back? = some frame
  laid : LaidOut globals statements asScript function code

namespace ActiveCall

open Machine Exec

variable {globals : GlobalTable} {statements : List Stmt} {call : ActiveCall globals statements} {m after : Machine}
  {retried again : Bool}

/-- The call is still active. -/
structure Lives (call : ActiveCall globals statements) (m : Machine) : Prop where
  underway : m.Underway globals statements
  closure : ∃ cells, m.heap.get? call.frame.closure = some (.closure (some call.function) cells)
  calls : ∃ inner, m.frames.toList = call.calls.toList ++ inner

theorem size_pos (call : ActiveCall globals statements) : 0 < call.calls.size := by
  refine Array.size_pos_iff.mpr fun hnone => ?_
  have hlast := call.innermost
  rw [hnone] at hlast
  cases hlast

theorem Lives.mem (hlives : call.Lives m) : call.frame ∈ m.frames := by
  obtain ⟨inner, hframes⟩ := hlives.calls
  have hmem := Array.mem_toList_iff.mpr (Array.mem_of_back? call.innermost)
  exact Array.mem_toList_iff.mp (hframes ▸ List.mem_append_left inner hmem)

/-- Without further calls the call is the innermost one. -/
theorem Lives.frames_eq (hlives : call.Lives m) (hsize : m.frames.size = call.calls.size) : m.frames = call.calls := by
  obtain ⟨inner, hframes⟩ := hlives.calls
  have hlength := congrArg List.length hframes
  rw [List.length_append, Array.length_toList, Array.length_toList] at hlength
  obtain rfl : inner = [] := List.eq_nil_of_length_eq_zero (by omega)
  exact Array.toList_inj.mp (hframes.trans (List.append_nil _))

theorem Lives.turn (hlives : call.Lives m) (hrunning : m.halted = false) (hturn : turn retried m = .ok again after)
    (hdeep : call.calls.size ≤ after.frames.size) : call.Lives after where
  underway := ((underway_turn hlives.underway hrunning retried).1 _ _ hturn).1
  closure := by
    obtain ⟨cells, hclosure⟩ := hlives.closure
    exact ⟨cells, kept_turn hlives.underway hturn hlives.mem hclosure⟩
  calls := by
    obtain ⟨inner, hframes⟩ := hlives.calls
    rcases frames_turn hlives.underway hrunning hturn with hsame | ⟨frame, hpushed⟩ | hpopped
    · exact ⟨inner, hsame ▸ hframes⟩
    · exact ⟨inner ++ [frame], by rw [hpushed, Array.toList_push, hframes, List.append_assoc]⟩
    · rw [hpopped, Array.toList_pop, hframes]
      cases inner.eq_nil_or_concat with
      | inl hnone =>
        subst hnone
        have hpositive := call.size_pos
        have hsize := congrArg List.length hframes
        rw [List.append_nil, Array.length_toList, Array.length_toList] at hsize
        rw [hpopped, Array.size_pop] at hdeep
        omega
      | inr hlast =>
        obtain ⟨rest, frame, rfl⟩ := hlast
        exact ⟨rest, by rw [List.concat_eq_append, ← List.append_assoc, List.dropLast_concat]⟩

theorem Lives.safepoint (hlives : call.Lives m) : call.Lives m.safepoint where
  underway := hlives.underway.safepoint
  closure := by
    obtain ⟨cells, hclosure⟩ := hlives.closure
    exact ⟨cells, (get?_safepoint hlives.underway.sound.idle (Array.mem_toList_iff.mpr hlives.mem)).trans hclosure⟩
  calls := by
    obtain ⟨-, hframes, -⟩ := safepoint_same m
    exact hframes.symm ▸ hlives.calls

/-- The next instruction is one of the call, when this is the innermost one. -/
theorem Lives.facing (hlives : call.Lives m) (hframes : m.frames = call.calls) :
    ∃ known top cells op a b, m.Facing globals statements known top call.frame call.function call.asScript
      call.code.chunk cells op a b := by
  have hunderway := hlives.underway
  obtain ⟨known, top, function, asScript, chunk, cells, op, a, b, hfacing⟩ :=
    hunderway.aligned.facing hunderway.course hunderway.sound (hframes ▸ call.innermost)
  obtain ⟨own, hclosure⟩ := hlives.closure
  cases hfacing.standing.closure.symm.trans hclosure
  cases hfacing.standing.own.symm.trans call.laid.1
  obtain ⟨F, hlaid⟩ := hfacing.current.laid
  obtain rfl := hlaid.unique call.laid
  exact ⟨known, top, cells, op, a, b, hfacing⟩

theorem Lives.chunk_eq (hlives : call.Lives m) (hframes : m.frames = call.calls) : m.chunk = some call.code.chunk := by
  obtain ⟨known, top, cells, op, a, b, hfacing⟩ := hlives.facing hframes
  exact hfacing.standing.running

theorem Lives.size (hlives : call.Lives m) (hframes : m.frames = call.calls) {height : Nat}
    (hholds : call.code.Holds m.ip height) : m.stack.size = call.frame.base + height := by
  obtain ⟨known, top, cells, op, a, b, hfacing⟩ := hlives.facing hframes
  have hlow := hfacing.current.low
  have hheight : m.stack.size - call.frame.base = height := hfacing.current.sure.height call.laid hholds
  omega

end ActiveCall

/-- A stretch of the code of an active call that leaves the slots of its frame from one to another alone. Where control
gets out of it is part of it. -/
structure Stretch (globals : GlobalTable) (statements : List Stmt) extends ActiveCall globals statements where
  first : Nat
  last : Nat
  Out : Nat → Prop
  ordered : first ≤ last

namespace Stretch

open Machine Exec ActiveCall

variable {globals : GlobalTable} {statements : List Stmt} {stretch : Stretch globals statements} {m after : Machine}
  {retried again : Bool} {inner : List Frame} {back slot : Nat}

/-- The slots of the stack that are left alone. -/
def Covers (stretch : Stretch globals statements) (slot : Nat) : Prop :=
  ∃ offset, stretch.first ≤ offset ∧ offset ≤ stretch.last ∧ slot = stretch.frame.base + offset

/-- The code of the stretch, from an offset on, heeds the slots. -/
def Heeds (stretch : Stretch globals statements) (offset : Nat) : Prop :=
  ∀ slot, stretch.first ≤ slot → slot ≤ stretch.last → ∀ n, stretch.code.Heeds slot stretch.Out n offset

/-- An instruction of the stretch. -/
theorem Heeds.instruction (hheeds : stretch.Heeds back) (hinside : ¬ stretch.Out back) :
    ∃ op a b height place, stretch.code.Has back height op a b place ∧
      (∀ slot, stretch.first ≤ slot → slot ≤ stretch.last → op.Harmless stretch.code.chunk slot height a) ∧
      ∀ next ∈ op.targets back a false, stretch.Heeds next := by
  have hstep (slot : Nat) (hfirst : stretch.first ≤ slot) (hlast : slot ≤ stretch.last) (n : Nat) :=
    (hheeds slot hfirst hlast (n + 1)).resolve_left hinside
  obtain ⟨op, a, b, height, place, hhas, -, -⟩ := hstep _ le_rfl stretch.ordered 0
  refine ⟨op, a, b, height, place, hhas, fun slot hfirst hlast => ?_, fun next hnext slot hfirst hlast n => ?_⟩
  · obtain ⟨op', a', b', height', place', hagain, hharmless, -⟩ := hstep slot hfirst hlast 0
    cases hhas.instruction.symm.trans hagain.instruction
    cases (hhas.height trivial).symm.trans (hagain.height trivial)
    exact hharmless
  · obtain ⟨op', a', b', height', place', hagain, -, hnexts⟩ := hstep slot hfirst hlast n
    cases hhas.instruction.symm.trans hagain.instruction
    exact hnexts next hnext

/-- Control is at an offset of the stretch, or will be back there when a call returns that is made in it. Such calls
have their values above the slots that are left alone. -/
structure Inside (stretch : Stretch globals statements) (back : Nat) (inner : List Frame) (m : Machine) : Prop where
  lives : stretch.Lives m
  free : ∀ slot, stretch.Covers slot → slot ∉ m.openSlots
  frames : m.frames.toList = stretch.calls.toList ++ inner
  above : ∀ frame ∈ inner, stretch.frame.base + stretch.last + 1 < frame.base
  lands : inner.head?.elim m.ip Frame.returnTo = back
  reached : stretch.frame.base + stretch.last < m.stack.size
  heeds : stretch.Heeds back

/-- What a turn inside of the stretch leaves: control is still there, and the slots have kept their values. -/
structure Proceeds (stretch : Stretch globals statements) (m after : Machine) : Prop where
  inside : ∃ back inner, stretch.Inside back inner after
  kept : ∀ slot, stretch.Covers slot → after.stack[slot]? = m.stack[slot]?

theorem Inside.proceeds (hinside : stretch.Inside back inner m) (hrunning : m.halted = false)
    (hturn : turn retried m = .ok again after) (hdeep : stretch.calls.size ≤ after.frames.size)
    (huntouched : ∀ slot, stretch.Covers slot → Untouched slot m after)
    (hnext : ∃ back inner, after.frames.toList = stretch.calls.toList ++ inner ∧
      (∀ frame ∈ inner, stretch.frame.base + stretch.last + 1 < frame.base) ∧
      inner.head?.elim after.ip Frame.returnTo = back ∧ stretch.Heeds back) : stretch.Proceeds m after where
  inside := by
    obtain ⟨back, inner, hframes, habove, hback, hheeds⟩ := hnext
    refine ⟨back, inner, ⟨?_, ?_, hframes, habove, hback, ?_, hheeds⟩⟩
    · exact hinside.lives.turn hrunning hturn hdeep
    · exact fun slot hslot hopen => hinside.free slot hslot ((huntouched slot hslot).cell hopen)
    · exact (huntouched _ ⟨_, stretch.ordered, le_rfl, rfl⟩).lt hinside.reached
  kept slot hslot := (huntouched slot hslot).value

theorem Inside.free_safepoint (hinside : stretch.Inside back inner m) (hslot : stretch.Covers slot) :
    slot ∉ m.safepoint.openSlots :=
  fun hopen => hinside.free slot hslot ((untouched_safepoint hinside.lives.underway.sound).cell hopen)

/-- A turn of a call that is made in the stretch. -/
theorem Inside.turn_call {frame : Frame} {rest : List Frame} (hinside : stretch.Inside back (rest ++ [frame]) m)
    (hrunning : m.halted = false) (hturn : turn retried m = .ok again after)
    (hdeep : stretch.calls.size ≤ after.frames.size) : stretch.Proceeds m after := by
  have hunderway := hinside.lives.underway
  obtain ⟨-, hsame, -, hip, -, -, hstack⟩ := safepoint_same m
  obtain ⟨known, top, own, function, asScript, chunk, cells, op, a, b, hfacing⟩ := hunderway.facing hrunning
  have hframe : own = frame := by
    have hlast := hfacing.innermost
    rw [hsame, ← Array.getLast?_toList, hinside.frames, ← List.append_assoc, List.getLast?_concat] at hlast
    exact (Option.some.inj hlast).symm
  subst hframe
  have hbase : stretch.frame.base + stretch.last + 1 < own.base :=
    hinside.above own (List.mem_append_right _ (List.mem_singleton_self _))
  have huntouched (slot : Nat) (hslot : stretch.Covers slot) : Untouched slot m after := by
    have hlow : slot + 1 < own.base := by
      obtain ⟨offset, -, hlast, rfl⟩ := hslot
      omega
    exact untouched_turn hunderway hfacing (hfacing.aside_below hlow (hinside.free_safepoint hslot)) hturn
  refine hinside.proceeds hrunning hturn hdeep huntouched ?_
  -- The call that was made first is below this one, or is this one.
  have hstill : ∃ first more, rest ++ [own] = first :: more := by
    cases rest with
    | nil => exact ⟨_, _, rfl⟩
    | cons first more => exact ⟨_, _, rfl⟩
  obtain ⟨first, more, hinner⟩ := hstill
  have hreturn : first.returnTo = back := by
    have hback := hinside.lands
    rw [hinner] at hback
    exact hback
  cases again with
  | true =>
    obtain ⟨-, hframes, -⟩ := gaveUp_same hunderway.sound hturn
    refine ⟨back, rest ++ [own], hframes ▸ hinside.frames, hinside.above, ?_, hinside.heeds⟩
    rw [hinner]
    exact hreturn
  | false =>
    cases hfacing.flows (dispatch_of_completed hturn) with
    | stays _ _ hframes =>
      refine ⟨back, rest ++ [own], by rw [hframes, hsame, hinside.frames], hinside.above, ?_, hinside.heeds⟩
      rw [hinner]
      exact hreturn
    | enters hcall _ _ hafter =>
      obtain ⟨called, hpushed, hcalled, -⟩ := exists_entered hafter
      subst hcall
      have hroom : a < m.safepoint.stack.size - own.base := by
        cases hfacing.fine with
        | plain hplain => cases hplain
        | call hheight => exact hheight
      change called.base = m.safepoint.stack.size - a at hcalled
      change after.frames = m.safepoint.frames.push called at hpushed
      refine ⟨back, rest ++ [own] ++ [called], ?_, fun frame hframe => ?_, ?_, hinside.heeds⟩
      · rw [hpushed, hsame, Array.toList_push, hinside.frames, List.append_assoc]
      · rcases List.mem_append.mp hframe with hold | hnew
        · exact hinside.above frame hold
        · obtain rfl := List.mem_singleton.mp hnew
          omega
      · rw [hinner]
        exact hreturn
    | returns _ _ hframes _ hlands =>
      refine ⟨back, rest, ?_, fun frame hframe => hinside.above frame (List.mem_append_left _ hframe), ?_,
        hinside.heeds⟩
      · rw [hframes, hsame, Array.toList_pop, hinside.frames, ← List.append_assoc, List.dropLast_concat]
      · cases rest with
        | nil =>
          cases hinner
          exact hlands.trans hreturn
        | cons _ _ =>
          cases hinner
          exact hreturn
    | finishes stack leftovers result _ hcaller =>
      -- Only the outermost call has no caller.
      have hcallers := hfacing.standing.callers
      rw [hcaller] at hcallers
      generalize hbelow : m.safepoint.frames.pop.toList.reverse = below at hcallers
      cases hcallers
      have hnone := List.reverse_eq_nil_iff.mp hbelow
      rw [hsame, Array.toList_pop, hinside.frames, ← List.append_assoc, List.dropLast_concat] at hnone
      have hempty := (List.append_eq_nil_iff.mp hnone).1
      have hlast := stretch.innermost
      rw [← Array.getLast?_toList, hempty] at hlast
      cases hlast

/-- A turn of the stretch itself. -/
theorem Inside.turn_here (hinside : stretch.Inside back [] m) (hbody : ¬ stretch.Out back)
    (hrunning : m.halted = false) (hturn : turn retried m = .ok again after)
    (hdeep : stretch.calls.size ≤ after.frames.size) : stretch.Proceeds m after := by
  have hunderway := hinside.lives.underway
  have hsafe := hinside.lives.safepoint
  obtain ⟨-, hsame, -, hip, -, -, hstack⟩ := safepoint_same m
  have hframes : m.frames = stretch.calls := Array.toList_inj.mp (hinside.frames.trans (List.append_nil _))
  obtain ⟨known, top, cells, op, a, b, hfacing⟩ := hsafe.facing (hsame.trans hframes)
  obtain ⟨op', a', b', height, place, hhas, hharmless, htargets⟩ := hinside.heeds.instruction hbody
  have hback : m.ip = back := hinside.lands
  rw [← hback, ← hip] at hhas htargets
  cases hfacing.standing.instruction.symm.trans hhas.instruction
  have hstays (hdone : again = false) : ¬ op.leaves := by
    subst hdone
    intro hleaves
    have hpopped : after.frames = m.safepoint.frames.pop := by
      cases hfacing.flows (dispatch_of_completed hturn) with
      | stays _ hother => exact absurd hleaves hother
      | enters hcall =>
        subst hcall
        rcases hleaves with h | h <;> cases h
      | returns _ _ hpopped => exact hpopped
      | finishes stack leftovers result _ _ hafter =>
        subst hafter
        rfl
    have hpositive := stretch.size_pos
    rw [hpopped, hsame, hframes, Array.size_pop] at hdeep
    omega
  have huntouched (slot : Nat) (hslot : stretch.Covers slot) : Untouched slot m after := by
    by_cases hleaves : op.leaves
    · cases again with
      | false => exact absurd hleaves (hstays rfl)
      | true =>
        refine ⟨congrArg (·[slot]?) (gaveUp_same hunderway.sound hturn).1, fun hopen => absurd hopen ?_⟩
        refine not_open_of_gaveUp hunderway.sound hturn ?_ (hinside.free slot hslot)
        rw [wanted_of_ne hfacing.instruction (by rcases hleaves with rfl | rfl <;> decide)]
        exact List.not_mem_nil
    · have hheight (k : Nat) (hk : height = some k) : m.safepoint.stack.size = stretch.frame.base + k :=
        hsafe.size (hsame.trans hframes) fun h => (hhas.height h).trans (congrArg some hk)
      have hfree := hinside.free_safepoint hslot
      obtain ⟨offset, hfirst, hlast, rfl⟩ := hslot
      have hreached : stretch.frame.base + offset < m.safepoint.stack.size := by
        have := hinside.reached
        rw [hstack]
        omega
      exact untouched_turn hunderway hfacing
        (hfacing.aside_harmless hheight (hharmless offset hfirst hlast) hleaves hreached hfree) hturn
  refine hinside.proceeds hrunning hturn hdeep huntouched ?_
  cases again with
  | true =>
    obtain ⟨-, hcalls, hagain⟩ := gaveUp_same hunderway.sound hturn
    exact ⟨back, [], hcalls ▸ hinside.frames, fun _ h => (List.not_mem_nil h).elim, hagain.trans hback, hinside.heeds⟩
  | false =>
    have hresult := dispatch_of_completed hturn
    cases hfacing.flows hresult with
    | stays hcall hleaves hcalls =>
      have hlands : after.ip ∈ op.targets m.safepoint.ip a false :=
        (hfacing.lands ⟨hcall, hleaves⟩ (fun h : false = true => by cases h) hresult).2
      refine ⟨after.ip, [], ?_, fun _ h => (List.not_mem_nil h).elim, rfl, htargets _ hlands⟩
      rw [hcalls, hsame]
      exact hinside.frames
    | enters hcall _ _ hafter =>
      obtain ⟨called, hpushed, hcalled, hreturn⟩ := exists_entered hafter
      subst hcall
      obtain ⟨k, rfl, hlow⟩ := (hharmless stretch.last stretch.ordered le_rfl).called rfl
      have hsize : m.safepoint.stack.size = stretch.frame.base + k := hsafe.size (hsame.trans hframes) hhas.height
      change called.base = m.safepoint.stack.size - a at hcalled
      change after.frames = m.safepoint.frames.push called at hpushed
      change called.returnTo = m.safepoint.ip + 3 at hreturn
      refine ⟨called.returnTo, [called], ?_, fun frame hframe => ?_, rfl, ?_⟩
      · rw [hpushed, hsame, hframes, Array.toList_push]
      · obtain rfl := List.mem_singleton.mp hframe
        omega
      · rw [hreturn]
        exact htargets _ (List.mem_singleton_self _)
    | returns hleaves => exact absurd hleaves (hstays rfl)
    | finishes _ _ _ hleaves => exact absurd hleaves (hstays rfl)

/-- A turn inside of the stretch, unless control is where it gets out of it. -/
theorem Inside.turn (hinside : stretch.Inside back inner m)
    (hbody : m.frames.size = stretch.calls.size → ¬ stretch.Out m.ip) (hrunning : m.halted = false)
    (hturn : turn retried m = .ok again after) (hdeep : stretch.calls.size ≤ after.frames.size) :
    stretch.Proceeds m after := by
  rcases inner.eq_nil_or_concat with rfl | ⟨rest, frame, rfl⟩
  · have hframes := congrArg List.length hinside.frames
    rw [List.append_nil, Array.length_toList, Array.length_toList] at hframes
    have hback : m.ip = back := hinside.lands
    exact hinside.turn_here (hback ▸ hbody hframes) hrunning hturn hdeep
  · rw [List.concat_eq_append] at hinside
    exact hinside.turn_call hrunning hturn hdeep

end Stretch

end OwnScript
