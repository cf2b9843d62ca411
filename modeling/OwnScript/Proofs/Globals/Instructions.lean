import OwnScript.Proofs.Globals.Holdings
import OwnScript.Proofs.Machine.Changes
import OwnScript.Proofs.Machine.Complaints

/-!
One instruction of a machine whose active calls stand at covered places. It finds the global that it reads
defined, and the calls stand at covered places again: the innermost one where the instruction has led, a new
one at the start of a function that may run, and a caller where it has been waiting.
-/

namespace OwnScript

open Stateful

namespace Machine

variable {originals : Originals} {loose : Set (Option Prototype)} {met : Bool} {m after : Machine}

/-- Where the innermost call of a machine is, if it runs some code. -/
abbrev place (m : Machine) (chunk : Chunk) (loose : Set (Option Prototype)) (met : Bool) : Place :=
  { chunk, offset := m.ip, defined := m.definedSlots, loose, met }

/-- Active calls, innermost first, each at a place that is covered, a caller once its call has returned. -/
inductive CallsCovered (originals : Originals) (heap : Heap) (defined : Set Nat) :
    List Frame → Nat → Set (Option Prototype) → Bool → Prop where
  | host {ip : Nat} {loose : Set (Option Prototype)} {met : Bool} :
      CallsCovered originals heap defined [] ip loose met
  | call {frame : Frame} {rest : List Frame} {function : Prototype} {cells : Array (Option Ref)} {chunk : Chunk}
      {ip : Nat} {loose : Set (Option Prototype)} {met : Bool} :
      heap.get? frame.closure = some (.closure (some function) cells) → function.chunk = some chunk →
      (∀ count, Covers originals count { chunk, offset := ip, defined, loose, met }) →
      CallsCovered originals heap defined rest frame.returnTo ∅ false →
      CallsCovered originals heap defined (frame :: rest) ip loose met

/-- More globals that are defined do no harm, and closures stay what they are. -/
theorem CallsCovered.later {heap now : Heap} {defined wider : Set Nat} {frames : List Frame} {ip : Nat}
    (hcalls : CallsCovered originals heap defined frames ip loose met)
    (hkept : ∀ frame ∈ frames, ∀ prototype cells, heap.get? frame.closure = some (.closure prototype cells) →
      now.get? frame.closure = some (.closure prototype cells)) (hdefined : defined ⊆ wider) :
    CallsCovered originals now wider frames ip loose met := by
  induction hcalls with
  | host => exact .host
  | call hclosure hown hcovers _ ih =>
    exact .call (hkept _ (List.mem_cons_self ..) _ _ hclosure) hown (fun count => (hcovers count).more hdefined)
      (ih fun frame hframe => hkept frame (List.mem_cons_of_mem _ hframe))

/-- A machine in front of an instruction. Its calls stand at covered places, and what it can get hold of leads to
functions that may run, but for loose closures on top of the stack and the first functions of the globals. -/
structure Assured (originals : Originals) (loose : Set (Option Prototype)) (met : Bool) (m : Machine) : Prop where
  guards : m.Guards originals loose
  calls : CallsCovered originals m.heap m.definedSlots m.frames.toList.reverse m.ip loose met
  answer : met = true → Exec.TopIs true m

/-- The same with another heap. -/
theorem Assured.carry (hassured : m.Assured originals loose met) (hstack : after.stack = m.stack)
    (hframes : after.frames = m.frames) (hip : after.ip = m.ip) (hglobals : after.globals = m.globals)
    (hshelters : m.heap.Shelters (m.MayRun originals) after.heap)
    (hkept : ∀ frame ∈ m.frames, ∀ prototype cells, m.heap.get? frame.closure = some (.closure prototype cells) →
      after.heap.get? frame.closure = some (.closure prototype cells)) : after.Assured originals loose met where
  guards := hassured.guards.carry hstack hglobals hshelters
  calls := by
    have hdefined : after.definedSlots = m.definedSlots := by rw [definedSlots, definedSlots, hglobals]
    rw [hframes, hip, hdefined]
    exact hassured.calls.later (fun frame hframe => hkept frame (by simpa using hframe)) subset_rfl
  answer hmet := by
    obtain ⟨value, hvalue, htruthy⟩ := hassured.answer hmet
    exact ⟨value, hstack ▸ hvalue, htruthy⟩

theorem Assured.collectGarbage (hassured : m.Assured originals loose met) (hidle : m.heap.Idle) :
    m.collectGarbage.Assured originals loose met := by
  have hshelters : m.heap.Shelters (m.MayRun originals) (m.heap.collect m.roots).1 :=
    (Heap.follows_collect hidle _).shelters (hassured.guards.heap.collect hidle _)
  refine hassured.carry rfl rfl rfl rfl hshelters fun frame hframe prototype cells h => ?_
  have hroot := closure_mem_roots (Array.mem_toList_iff.mpr hframe)
  rw [Machine.collectGarbage, (Heap.collect_spec hidle m.roots).reached _ (.root hroot rfl)]
  exact h

theorem Assured.safepoint (hassured : m.Assured originals loose met) (hidle : m.heap.Idle) :
    m.safepoint.Assured originals loose met := by
  have hnoted {other : Machine} (hother : other.Assured originals loose met) (instructionStart : Nat)
      (trace : String) : Assured originals loose met { other with instructionStart, trace } :=
    ⟨hother.guards.carry rfl rfl ⟨fun _ _ _ => id, hother.guards.heap⟩, hother.calls, hother.answer⟩
  obtain ⟨trace, hcollected | hsame⟩ := m.safepoint_cases
  · rw [hcollected]
    exact hnoted (hassured.collectGarbage hidle) _ _
  · rw [hsame]
    exact hnoted hassured _ _

end Machine

namespace Exec

open Machine

variable {originals : Originals} {loose : Set (Option Prototype)} {met : Bool} {m after : Machine} {a b : Nat}

/-- Globals that are defined stay so. -/
theorem definedSlots_changes {asked : Nat → Prop} (hchanges : Changes asked m after) :
    m.definedSlots ⊆ after.definedSlots := by
  induction hchanges with
  | refl => exact subset_rfl
  | @tail middle last _ hchange ih =>
    refine ih.trans ?_
    cases hchange with
    | defined slot value =>
      rintro other ⟨found, hfound⟩
      change ∃ found, (middle.globals.setIfInBounds slot (some value))[other]? = some (some found)
      rw [Array.getElem?_setIfInBounds]
      split
      · rename_i hsame
        subst hsame
        rw [if_pos (Array.getElem?_eq_some_iff.mp hfound).1]
        exact ⟨value, rfl⟩
      · exact ⟨found, hfound⟩
    | _ => exact subset_rfl

theorem definedSlots_dispatch (hintact : m.Intact) (hresult : dispatch m = .ok () after) :
    m.definedSlots ⊆ after.definedSlots := by
  have hchanges : Changes (fun _ => True) m (stateAfter (dispatch m)) := changes_dispatch hintact fun _ _ => trivial
  rw [hresult] at hchanges
  exact definedSlots_changes hchanges

theorem Looks.same {α : Type} {x : Exec α} (hlooks : Looks x) {value : α} (hresult : x m = .ok value after) :
    after = m := by
  have hsame := hlooks m
  rwa [hresult] at hsame

theorem definedGlobal_ok {slot : Nat} {verb : String} {value : Value}
    (hresult : definedGlobal slot verb m = .ok value after) : m.globals[slot]? = some (some value) ∧ after = m := by
  refine ⟨?_, (looks_definedGlobal slot verb).same hresult⟩
  simp only [definedGlobal] at hresult
  rw [get_bind_apply] at hresult
  obtain ⟨found, middle, hfound, hrest⟩ := bind_eq_ok.mp hresult
  cases found with
  | some other =>
    cases hrest
    exact expect_eq_some hfound
  | none =>
    obtain ⟨name, last, -, hfail⟩ := bind_eq_ok.mp hrest
    cases hfail

/-- A global is read: its value is pushed, and nil takes its place if it is moved. -/
theorem readGlobal_ok {op : Opcode} (hreads : op.readsGlobal = true) (hresult : execute op a b m = .ok () after) :
    ∃ value, m.globals[a]? = some (some value) ∧ after.stack = m.stack.push value ∧ after.heap = m.heap ∧
      ∀ (slot : Nat) found, after.globals[slot]? = some (some found) →
        m.globals[slot]? = some (some found) ∨ ∃ scalar, found = .scalar scalar := by
  cases op with
  | getGlobal =>
    obtain ⟨value, middle, hdefined, hpush⟩ := bind_eq_ok.mp hresult
    obtain ⟨hvalue, rfl⟩ := definedGlobal_ok hdefined
    rw [push_ok hpush]
    exact ⟨value, hvalue, rfl, rfl, fun _ _ => .inl⟩
  | moveGlobal =>
    obtain ⟨value, middle, hdefined, hrest⟩ := bind_eq_ok.mp hresult
    obtain ⟨hvalue, rfl⟩ := definedGlobal_ok hdefined
    obtain ⟨_, pushed, hpush, hset⟩ := bind_eq_ok.mp hrest
    cases hset
    rw [push_ok hpush]
    refine ⟨value, hvalue, rfl, rfl, fun slot found hfound => ?_⟩
    change (middle.globals.setIfInBounds a (some .nil))[slot]? = _ at hfound
    rw [Array.getElem?_setIfInBounds] at hfound
    split at hfound
    · split at hfound
      · cases hfound
        exact .inr ⟨.nil, rfl⟩
      · cases hfound
    · exact .inl hfound
  | _ => cases hreads

/-- A global gets the value on top. -/
theorem setGlobal_ok (hresult : execute .setGlobal a b m = .ok () after) :
    ∃ value, m.stack.back? = some value ∧ after = { m with globals := m.globals.setIfInBounds a (some value) } := by
  obtain ⟨value, middle, hpeek, hset⟩ := bind_eq_ok.mp hresult
  rw [peek_eq] at hpeek
  split at hpeek
  · rename_i hvalue
    split at hpeek
    · cases hpeek
      cases hset
      exact ⟨_, by rw [Array.back?_eq_getElem?]; exact hvalue, rfl⟩
    · cases hpeek
  · cases hpeek

/-- A matcher that accepts every value leaves true on top. -/
theorem answer_matchValue {chunk : Chunk} (hchunk : m.chunk = some chunk)
    (haccepts : chunk.matchers[a]?.any Matcher.acceptsAll = true) (hresult : execute .matchValue a b m = .ok () after) :
    TopIs true after := by
  obtain ⟨own, middle, hown, hrest⟩ := bind_eq_ok.mp hresult
  cases hchunk.symm.trans (chunk_eq_some hown)
  obtain ⟨matcher, middle, hmatcher, hrest⟩ := bind_eq_ok.mp hrest
  have hfound := expect_eq_some hmatcher
  obtain ⟨index, middle, -, hrest⟩ := bind_eq_ok.mp hrest
  obtain ⟨value, middle, -, hrest⟩ := bind_eq_ok.mp hrest
  rw [get_bind_apply] at hrest
  rw [hfound, Option.any_some] at haccepts
  obtain ⟨bound, hbound⟩ : ∃ bound, middle.heap.matchValue matcher value = some bound := by
    unfold Matcher.acceptsAll at haccepts
    split at haccepts
    · exact ⟨_, rfl⟩
    · exact ⟨_, rfl⟩
    · cases haccepts
  rw [hbound] at hrest
  obtain ⟨_, pushed, -, hpush⟩ := bind_eq_ok.mp hrest
  rw [push_ok hpush]
  exact ⟨_, Array.back?_push .., rfl⟩

/-- If the value on top is true, a jump that needs a false one is not taken. -/
theorem ip_jumpIfFalse (htop : TopIs true m) (hresult : execute .jumpIfFalse a b m = .ok () after) :
    after.ip = m.ip := by
  obtain ⟨value, hvalue, htruthy⟩ := htop
  obtain ⟨found, middle, hpeek, hrest⟩ := bind_eq_ok.mp hresult
  obtain rfl := (looks_peek 0).same hpeek
  rw [peek_eq, Nat.sub_zero, ← Array.back?_eq_getElem?, hvalue] at hpeek
  dsimp only at hpeek
  split at hpeek
  · cases hpeek
    rw [htruthy] at hrest
    cases hrest
    rfl
  · cases hpeek

/-- A call returns, and no value leads to more than before. -/
theorem tends_returnFromFrame {allowed : Option Prototype → Prop} {start : Machine} (htends : Tends allowed start m)
    (habove : m.CellsAbove) {frame : Frame} (hframe : m.frames.back? = some frame) {result : Value}
    (hvalue : m.heap.Admits allowed result) :
    EndsWell (Tends allowed start) (fun _ _ => True) (returnFromFrame result m) := by
  have hclosed : Tends allowed m (left m frame) := tends_left htends.offers.tends habove frame
  have hleft := tends_left htends habove frame
  rw [returnFromFrame_eq, hframe]
  dsimp only
  split
  · exact ⟨⟨⟨hleft.offers.heap, hleft.offers.stack⟩, hleft.follows, hleft.globals⟩, trivial⟩
  · rename_i chunk _
    have hback : Offers allowed { left m frame with chunk := some chunk, ip := frame.returnTo } :=
      ⟨hleft.offers.heap, hleft.offers.stack⟩
    refine (ends_push hback.upholds (hvalue.follows hclosed.follows)).upgrade
      (fun after h => ?_) fun _ _ _ _ _ => trivial
    refine ⟨h.offers, hleft.follows.trans h.follows, fun slot value hfound => ?_⟩
    exact (h.globals slot value hfound).elim
      (fun hold => (hleft.globals slot value hold).imp_right fun h' => h'.follows h.follows) .inr

end Exec

namespace Machine

variable {globals : GlobalTable} {statements : List Stmt} {originals : Originals} {loose : Set (Option Prototype)}
  {met : Bool} {m after : Machine} {known : Nat → Prop} {top : Option Bool} {frame : Frame} {function : Prototype}
  {asScript : Bool} {chunk : Chunk} {cells : Array (Option Ref)} {op : Opcode} {a b : Nat}

namespace Facing

variable (hfacing : m.Facing globals statements known top frame function asScript chunk cells op a b)

include hfacing

/-- What the places of the calls say of the next instruction. -/
theorem covered (hassured : m.Assured originals loose met) :
    (op.readsGlobal = true → a ∈ m.definedSlots) ∧
      ((m.place chunk loose met).Hides originals op a ∨ ∀ function ∈ loose, m.MayRun originals function) ∧
      (∀ offset ∈ op.targets m.ip a met, ∀ count,
        Covers originals count ((m.place chunk loose met).next originals op a offset)) ∧
      CallsCovered originals m.heap m.definedSlots m.frames.pop.toList.reverse frame.returnTo ∅ false := by
  have hcalls := hassured.calls
  rw [frames_eq hfacing.innermost] at hcalls
  cases hcalls with
  | call hclosure hown hcovers hcallers =>
    cases hfacing.standing.closure.symm.trans hclosure
    cases hfacing.standing.own.symm.trans hown
    obtain ⟨_, _, _, hinstruction, hreads, hhides, hnext⟩ := covers_always hcovers
    cases hfacing.standing.instruction.symm.trans hinstruction
    exact ⟨hreads, hhides, hnext, hcallers⟩

/-- Control stays in its call, unless the instruction enters or leaves one. -/
theorem lands (hother : op ≠ .call ∧ ¬ op.leaves) (hanswer : met = true → Exec.TopIs true m)
    (hresult : Exec.dispatch m = .ok () after) : after.frames = m.frames ∧ after.ip ∈ op.targets m.ip a met := by
  rw [hfacing.standing.dispatch_eq] at hresult
  cases hmoves : op.moves with
  | false =>
    have hsteady : Steady (fun _ _ => True) { m with ip := m.ip + op.size }
        (Exec.stateAfter (Exec.execute op a b { m with ip := m.ip + op.size })) :=
      Exec.steady_execute hmoves a b fun _ _ _ _ _ _ _ => trivial
    rw [hresult] at hsteady
    have hip : after.ip = m.ip + op.size := hsteady.ip
    refine ⟨hsteady.frames, ?_⟩
    rw [hip]
    cases op with
    | noMatchingArm => cases hresult
    | noMatchingOverload => exact absurd hresult (Exec.noMatchingOverload_fails _ _)
    | jump | jumpIfFalse | jumpIfTrue | loopBack | call | ret | halt => cases hmoves
    | _ => exact List.mem_singleton_self _
  | true =>
    have hmoved := Exec.moved_execute hmoves a b { m with ip := m.ip + op.size }
    have hstraight (hop : op = .jumpIfFalse) (hmet : met = true) : after.ip = m.ip + 3 := by
      subst hop
      obtain ⟨value, hvalue, htruthy⟩ := hanswer hmet
      have htop : Exec.TopIs true { m with ip := m.ip + Opcode.jumpIfFalse.size } := ⟨value, hvalue, htruthy⟩
      exact Exec.ip_jumpIfFalse htop hresult
    rw [hresult] at hmoved
    generalize houtcome : EStateM.Result.ok () after = outcome at hmoved
    cases hmoved with
    | jumped hlands =>
      cases houtcome
      refine ⟨rfl, ?_⟩
      cases op with
      | jump => exact List.mem_singleton.mpr hlands
      | loopBack => exact List.mem_singleton.mpr hlands
      | jumpIfTrue => exact List.mem_pair.mpr hlands
      | jumpIfFalse =>
        cases met with
        | true => exact List.mem_singleton.mpr (hstraight rfl rfl)
        | false => exact List.mem_pair.mpr hlands
      | _ => exact hlands.elim
    | entered hcall => exact absurd hcall hother.1
    | finished _ _ _ hleaves => exact absurd hleaves hother.2
    | returned _ hleaves => exact absurd hleaves hother.2
    | lost => cases houtcome
    | refused => cases houtcome

/-- A global that is given a value is defined from then on. -/
theorem definedAfter (hresult : Exec.dispatch m = .ok () after) :
    (m.place chunk loose met).definedAfter a op ⊆ after.definedSlots := by
  have hstill := Exec.definedSlots_dispatch hfacing.sound.intact hresult
  cases op with
  | setGlobal =>
    refine Set.insert_subset ?_ hstill
    have hslot : a < m.globals.size ∧ _ := hfacing.resolves
    rw [hfacing.standing.dispatch_eq] at hresult
    obtain ⟨value, -, rfl⟩ := Exec.setGlobal_ok hresult
    change ∃ found, (m.globals.setIfInBounds a (some value))[a]? = some (some found)
    exact ⟨value, Array.getElem?_setIfInBounds_self_of_lt hslot.1⟩
  | _ => exact hstill

/-- The call goes on at a covered place. -/
theorem stays (hassured : m.Assured originals loose met) (hother : op ≠ .call ∧ ¬ op.leaves)
    (hresult : Exec.dispatch m = .ok () after)
    (hguards : after.Guards originals ((m.place chunk loose met).looseAfter originals a op))
    (hanswer : (m.place chunk loose met).metAfter a op = true → Exec.TopIs true after) :
    after.Assured originals ((m.place chunk loose met).looseAfter originals a op)
      ((m.place chunk loose met).metAfter a op) where
  guards := hguards
  calls := by
    obtain ⟨-, -, hnext, hcallers⟩ := hfacing.covered hassured
    obtain ⟨hframes, htarget⟩ := hfacing.lands hother hassured.answer hresult
    have hdefined : (m.place chunk loose met).definedAfter a op ⊆ after.definedSlots := hfacing.definedAfter hresult
    have hclosures (ref : Ref) (prototype : Option Prototype) (others : Array (Option Ref))
        (h : m.heap.get? ref = some (.closure prototype others)) := hfacing.kept_closure hresult h
    rw [hframes, frames_eq hfacing.innermost]
    refine .call (hclosures _ _ _ hfacing.standing.closure) hfacing.standing.own
      (fun count => (hnext after.ip htarget count).more hdefined) ?_
    exact hcallers.later (fun frame _ => hclosures frame.closure)
      (Exec.definedSlots_dispatch hfacing.sound.intact hresult)
  answer := hanswer

/-- Unless the instruction reads a global or makes a closure, no value leads to more than before. -/
theorem tends {allowed : Option Prototype → Prop} (hoffers : m.Offers allowed) (hclosure : op ≠ .closure)
    (hreads : op.readsGlobal = false) : Exec.EndsWell (Tends allowed m) (fun _ _ => True) (Exec.dispatch m) := by
  have hlow := hfacing.current.low
  have hbase := hfacing.current.base
  have hmoved (ip : Nat) : Tends allowed m { m with ip } :=
    ⟨⟨hoffers.heap, hoffers.stack⟩, .refl _, fun _ _ => .inl⟩
  have hupholding {β : Type} {ip : Nat} {post : β → Machine → Prop} {result : EStateM.Result Fault Machine β}
      (hends : Exec.EndsWell (Upholds allowed { m with ip }) post result) :
      Exec.EndsWell (Tends allowed m) (fun _ _ => True) result :=
    hends.upgrade (fun after h => ⟨h.offers, h.follows, h.globals⟩) fun _ _ _ _ _ => trivial
  have hbranches (hop : op = .jumpIfFalse ∨ op = .jumpIfTrue) (hheight : 0 < m.stack.size - frame.base) :
      Exec.EndsWell (Tends allowed m) (fun _ _ => True) (Exec.execute op a b { m with ip := m.ip + op.size }) := by
    rcases Exec.execute_jumpIf b { m with ip := m.ip + op.size } hop with ⟨_, _, -, hresult⟩ | ⟨fault, hpeek, -⟩
    · rw [hresult]
      exact ⟨hmoved _, trivial⟩
    · have hin : m.stack.size - 1 - 0 < m.stack.size := by omega
      rw [Exec.peek_eq, Array.getElem?_eq_getElem hin] at hpeek
      dsimp only at hpeek
      rw [if_pos (by omega)] at hpeek
      cases hpeek
  rw [hfacing.standing.dispatch_eq]
  cases hfacing.fine with
  | plain hplain htaken hseen hslot _ _ =>
    have hquiet (h : op = .getGlobal ∨ op = .moveGlobal) : False := by
      rcases h with rfl | rfl
      · cases hreads
      · cases hreads
    exact hupholding (Exec.leaves_plain (hmoved (m.ip + op.size)).offers hfacing.heapSound hplain
      (hfacing.supplied hplain htaken hseen hslot) (fun h => (hquiet h).elim) b)
  | close hheight _ =>
    have hheight : 0 < m.stack.size - frame.base := hheight
    refine (Exec.ends_closeUpvalue (hmoved (m.ip + Opcode.closeUpvalue.size)).offers hfacing.aligned.above
      (by change 1 < m.stack.size; omega) hfacing.openSound a b).upgrade
      (fun after h => ⟨h.offers, h.follows, h.globals⟩) fun _ _ _ _ _ => trivial
  | jump _ => exact ⟨hmoved _, trivial⟩
  | back _ => exact ⟨hmoved _, trivial⟩
  | ifFalse hheight _ _ => exact hbranches (.inl rfl) hheight
  | ifTrue hheight _ _ => exact hbranches (.inr rfl) hheight
  | call hheight _ _ =>
    have hheight : a < m.stack.size - frame.base := hheight
    rw [Exec.execute_call, if_neg (by change ¬ m.stack.size < a + 1; omega)]
    refine Exec.EndsWell.bind (hupholding (Exec.ends_peek (hmoved (m.ip + Opcode.call.size)).offers.upholds
      (by change a + 1 < m.stack.size; omega))) fun callee after htends _ => ?_
    rcases Exec.callValue_cases callee a after with ⟨closure, prototype, others, -, -, hresult⟩
      | ⟨diagnostic, hkind, hresult⟩
    · rw [hresult]
      exact ⟨⟨⟨htends.offers.heap, htends.offers.stack⟩, htends.follows, htends.globals⟩, trivial⟩
    · rw [hresult]
      exact ⟨htends, hkind⟩
  | ret hheight _ =>
    have hheight : 0 < m.stack.size - frame.base := hheight
    have hin : m.stack.size - 1 < m.stack.size := by omega
    have hback : m.stack.back? = some m.stack[m.stack.size - 1] := by
      rw [Array.back?_eq_getElem?, Array.getElem?_eq_getElem hin]
    change Exec.EndsWell _ _ ((Exec.pop >>= Exec.returnFromFrame) { m with ip := m.ip + Opcode.ret.size })
    rw [bind_apply, Exec.pop_eq]
    simp only [hback]
    have hpopped : Tends allowed m (cut { m with ip := m.ip + Opcode.ret.size } (m.stack.size - 1)) :=
      (hmoved (m.ip + Opcode.ret.size)).withStack (hoffers.shrink _)
    exact Exec.tends_returnFromFrame hpopped hfacing.aligned.above hfacing.innermost
      (hoffers.stack _ _ (by omega) (Array.getElem?_eq_getElem hin))
  | halt =>
    exact Exec.tends_returnFromFrame (hmoved (m.ip + Opcode.halt.size)) hfacing.aligned.above hfacing.innermost
      Heap.admits_nil
  | closure => exact absurd rfl hclosure
  | matchValue hfound hslot _ _ =>
    have hslot : b < m.stack.size - frame.base := hslot
    have hinside : frame.base + b < m.stack.size := by omega
    exact hupholding (Exec.ends_matchValue (hmoved (m.ip + Opcode.matchValue.size)).offers hfacing.innermost hbase
      hfacing.standing.running hfound hinside)
  | matchArgs hfound hcount _ _ =>
    have hcount : frame.argumentCount ≤ m.stack.size - frame.base := hcount
    have hinside : frame.base + frame.argumentCount ≤ m.stack.size := by omega
    exact hupholding (Exec.ends_matchArgs (hmoved (m.ip + Opcode.matchArgs.size)).offers hfacing.innermost hbase
      hfacing.standing.running hfound hinside b)
  | noMatchingArm => exact Exec.ends_fail (hmoved _) (by decide)
  | noMatchingOverload =>
    refine (Exec.ends_frame (hmoved (m.ip + Opcode.noMatchingOverload.size)) hfacing.innermost).look fun got _ => ?_
    rw [get_bind_apply]
    exact Exec.ends_fail (hmoved _) (by simp [Diagnostic.about])

/-- A closure is made of a function in the tables of the code. -/
theorem gains_dispatch (hop : op = .closure) :
    ∃ prototype, chunk.functions[a]? = some (some prototype) ∧
      Exec.EndsWell (m.Gains (some prototype)) (fun _ after => ∃ value, after.stack = m.stack.push value ∧
        after.heap.Admits (· = some prototype) value) (Exec.dispatch m) := by
  obtain ⟨prototype, hfound⟩ : ∃ prototype, chunk.functions[a]? = some (some prototype) := by
    subst hop
    cases hfacing.fine with
    | plain hplain => cases hplain
    | closure hfound => exact ⟨_, hfound⟩
  have hrunning : Exec.Running { m with ip := m.ip + op.size } frame cells :=
    ⟨hfacing.innermost, _, hfacing.standing.closure⟩
  have hheap : Heap.Sound (heap { m with ip := m.ip + op.size }) := hfacing.heapSound
  refine ⟨prototype, hfound, ?_⟩
  rw [hfacing.standing.dispatch_eq, hfacing.execute_closure hop hfound]
  exact (Exec.gains_pushClosure hheap hrunning (hfacing.outer_cells hop hfound)).upgrade
    (fun after h => ⟨h.heap, h.globals, h.stack⟩) fun _ after _ _ h => h.1

end Facing

end Machine

end OwnScript
