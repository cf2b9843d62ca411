import OwnScript.Proofs.Loops.Bodies
import OwnScript.Proofs.Lowering.Forward
import OwnScript.Proofs.Stack.Runs
import OwnScript.Proofs.Stack.Slots

/-!
How a for loop counts. It keeps a counter and a bound in two slots of its frame, tests the counter in front of every
run of its body, hands the body a copy and adds one afterwards. Outside the body control is at one of a few
instructions, and what is on the stack from the counter on follows from where it is.
-/

namespace OwnScript

open Stateful Machine

/-- The instructions of a for loop around its body, in a frame that holds so many values below those of the loop: the
counter is in the next slot and the bound in the one after it. The body touches neither, and is left for the step
or for the end of the loop. -/
structure Listing.Counts (F : Listing True) (place : Location) (height test step : Nat) : Prop where
  forward : test + 14 < step
  counter : F.Has test (some (height + 2)) .getLocal height 0 place
  bound : F.Has (test + 3) (some (height + 3)) .getLocal (height + 1) 0 place
  less : F.Has (test + 6) (some (height + 4)) .less 0 0 place
  branch : F.Jumps (test + 7) (some (height + 3)) .jumpIfFalse place (step + 14)
  pass : F.Has (test + 10) (some (height + 3)) .pop 0 0 place
  fresh : F.Has (test + 11) (some (height + 2)) .getLocal height 0 place
  body : ∀ slot, slot = height ∨ slot = height + 1 → ∀ n,
    F.Heeds slot (fun offset => offset = step ∨ offset = step + 15) n (test + 14)
  hold : F.Has step (some (height + 2)) .getLocal height 0 place
  one : ∃ a, F.Has (step + 3) (some (height + 3)) .constant a 0 place ∧ F.chunk.constants[a]? = some (.scalar (.int 1))
  add : F.Has (step + 6) (some (height + 4)) .add 0 0 place
  store : F.Has (step + 7) (some (height + 3)) .setLocal height 0 place
  spare : F.Has (step + 10) (some (height + 3)) .pop 0 0 place
  again : F.Repeats (step + 11) (some (height + 2)) place test
  fail : F.Has (step + 14) (some (height + 3)) .pop 0 0 place
  dropBound : F.Has (step + 15) (some (height + 2)) .pop 0 0 {}
  dropCounter : F.Has (step + 16) (some (height + 1)) .pop 0 0 {}

/-- The parts of the code of a for loop: that of the start up to an offset, that of the bound from there up to the test,
and that of the body behind the test. In the body `continue` leads to the step and `break` to the end of the loop. -/
structure ForLoopCode (globals : GlobalTable) (F : Listing True) (scope : FrameScope) (p : Nat) (place : Location)
    (binding : Option BindingId) (start bound : Expr) (body : Stmt) (q test step u : Nat) : Prop where
  parts : ∃ first second inner s, ExprCode globals F scope.length scope p start first q ∧
    ExprCode globals F (scope.length + 1) (⟨none, false⟩ :: first) q bound second test ∧
    StmtCode globals F (some ⟨scope.length + 2, step + 15, step⟩) (⟨binding, false⟩ :: ⟨none, false⟩ :: second)
      (test + 14) body inner s
  counts : F.Counts place scope.length test step
  ending : u = step + 17

/-- The code of a for loop has these parts. -/
theorem StmtCode.forLoopCode {globals : GlobalTable} {F : Listing True} {loop : Option LoopPlan}
    {scope after : FrameScope} {p u : Nat} {place : Location} {counter : String} {binding : Option BindingId}
    {start bound : Expr} {body : Stmt}
    (hcode : StmtCode globals F loop scope p (.forLoop place counter binding start bound body) after u) :
    ∃ q test step, ForLoopCode globals F scope p place binding start bound body q test step u := by
  cases hcode with
  | @forLoop _ _ _ first second dropped hidden _ _ q r s t _ a _ _ _ _ _ _ hstart hbound hcounter hlimit hless hbranch
      hpass hfresh _ hbody hlength hafter hdrop hhold hone hconstant hadd hstore hspare hagain hfail hhidden =>
    have hfirst : first.length = scope.length := hstart.later.length_eq
    have hsecond : second.length = scope.length + 1 := hbound.later.length_eq.trans (congrArg (· + 1) hfirst)
    -- Neither the bound nor the counter has a name, so that nothing captures them.
    have hlimitHidden : FrameScope.Hides (⟨binding, false⟩ :: ⟨none, false⟩ :: second) (scope.length + 1) :=
      .inr (.inl ⟨hsecond.symm, rfl, rfl⟩)
    have hcounterHidden : FrameScope.Hides (⟨binding, false⟩ :: ⟨none, false⟩ :: second) scope.length := by
      have hinner : FrameScope.Hides (⟨none, false⟩ :: first) scope.length := .inl ⟨hfirst.symm, rfl, rfl⟩
      exact .inr (.inr (hinner.later hbound.later))
    have hheeds (slot : Nat) (hslot : slot = scope.length ∨ slot = scope.length + 1) (n : Nat) :
        F.Heeds slot (fun offset => offset = t ∨ offset = t + 15) n (r + 14) := by
      have hlow : slot < scope.length + 2 := by omega
      have hhides : FrameScope.Hides (⟨binding, false⟩ :: ⟨none, false⟩ :: second) slot := by
        rcases hslot with rfl | rfl
        · exact hcounterHidden
        · exact hlimitHidden
      refine StmtCode.heeds body hbody hhides (fun plan hplan => ?_) (hdrop.heeds hlow (heeds_out (.inl rfl)))
      cases hplan
      exact ⟨hlow, heeds_out (.inr rfl), heeds_out (.inl rfl)⟩
    -- The variable of the loop is dropped at least.
    have hforward : r + 14 < t := by
      obtain ⟨declared, kept, heq, hkept⟩ := hbody.grows
      have hlengths := congrArg List.length heq
      simp only [List.length_append, hlength, hafter, hkept.length_eq, List.length_cons, hsecond] at hlengths
      have hbefore := StmtCode.le body hbody
      rw [hdrop.eq_add]
      omega
    obtain ⟨limit, count, rfl⟩ := List.length_eq_two.mp hlength
    have hkept (slot : Nat) (hslot : slot < scope.length + 2)
        (hhides : FrameScope.Hides (⟨binding, false⟩ :: ⟨none, false⟩ :: second) slot) :
        FrameScope.Hides (limit :: count :: after) slot := by
      refine (FrameScope.hides_append ?_).mp (hhides.grows hbody.grows)
      change slot < after.length + 1 + 1
      omega
    have hlimitFree : limit.captured = false := by
      rcases hkept _ (by omega) hlimitHidden with ⟨-, -, hfree⟩ | ⟨hslot, -⟩ | hslot
      · exact hfree
      · omega
      · have := hslot.lt
        omega
    have hcountFree : count.captured = false := by
      rcases hkept _ (by omega) hcounterHidden with ⟨hslot, -⟩ | ⟨-, -, hfree⟩ | hslot
      · change scope.length = after.length + 1 at hslot
        omega
      · exact hfree
      · have := hslot.lt
        omega
    cases hhidden with
    | cons hdropBound hrest =>
      cases hrest with
      | cons hdropCounter hend =>
        cases hend
        rw [FrameVar.dropOp, hlimitFree] at hdropBound
        rw [FrameVar.dropOp, hcountFree] at hdropCounter
        refine ⟨q, r, t, ⟨first, second, _, s, hstart, hbound, hbody⟩, ?_, rfl⟩
        exact
          { forward := hforward
            counter := hcounter
            bound := hlimit
            less := hless
            branch := hbranch
            pass := hpass
            fresh := hfresh
            body := hheeds
            hold := hhold
            one := ⟨a, hone, hconstant⟩
            add := hadd
            store := hstore
            spare := hspare
            again := hagain
            fail := hfail
            dropBound := hdropBound
            dropCounter := hdropCounter }

section Numbers

variable {a b c : Int64} {turns : Nat}

/-- So many turns of a loop are done, and the counter stands at the next number. -/
structure Settled (a b : Int64) (turns : Nat) (c : Int64) : Prop where
  value : c.toInt = a.toInt + turns
  within : turns = 0 ∨ c.toInt ≤ b.toInt

theorem settled_start (a b : Int64) : Settled a b 0 a :=
  ⟨(Int.add_zero _).symm, .inl rfl⟩

/-- Below the bound there is a next number. -/
theorem Settled.next (hsettled : Settled a b turns c) (hbelow : c < b) : Settled a b (turns + 1) (c + 1) := by
  have hvalue := hsettled.value
  have hlow := c.le_toInt
  have hhigh := b.toInt_lt
  have hless := Int64.lt_iff_toInt_lt.mp hbelow
  have hsum : (c + 1).toInt = c.toInt + 1 := by
    rw [Int64.toInt_add]
    have hone : (1 : Int64).toInt = 1 := rfl
    rw [hone]
    exact Int.bmod_eq_of_le (by omega) (by omega)
  refine ⟨?_, .inr ?_⟩
  · rw [hsum, hvalue]
    push_cast
    omega
  · omega

theorem Settled.le (hsettled : Settled a b turns c) : turns ≤ (b.toInt - a.toInt).toNat := by
  have hvalue := hsettled.value
  rcases hsettled.within with rfl | hwithin
  · exact Nat.zero_le _
  · omega

theorem Settled.eq_of_not_lt (hsettled : Settled a b turns c) (hnot : ¬ c < b) :
    turns = (b.toInt - a.toInt).toNat := by
  have hvalue := hsettled.value
  have hle := hsettled.le
  have hless := mt Int64.lt_iff_toInt_lt.mpr hnot
  omega

end Numbers

/-- From a slot on these values are on a stack, the topmost last. -/
def EndsWith (stack : Array Value) (low : Nat) (held : List Value) : Prop :=
  low ≤ stack.size ∧ stack.toList.drop low = held

section Stacks

variable {stack : Array Value} {low i : Nat} {held : List Value} {value other : Value}

theorem EndsWith.size (hends : EndsWith stack low held) : stack.size = low + held.length := by
  have hlow := hends.1
  rw [← hends.2, List.length_drop, Array.length_toList]
  omega

theorem EndsWith.getElem? (hends : EndsWith stack low held) (i : Nat) : stack[low + i]? = held[i]? := by
  rw [← hends.2, List.getElem?_drop, Array.getElem?_toList]

theorem EndsWith.push (hends : EndsWith stack low held) (value : Value) :
    EndsWith (stack.push value) low (held ++ [value]) := by
  refine ⟨hends.1.trans (by rw [Array.size_push]; omega), ?_⟩
  rw [Array.toList_push, List.drop_append_of_le_length (by rw [Array.length_toList]; exact hends.1), hends.2]

/-- The values on top are dropped. -/
theorem EndsWith.shrink {tops : List Value} {count : Nat} (hends : EndsWith stack low (held ++ tops))
    (hcount : tops.length = count) : EndsWith (stack.shrink (stack.size - count)) low held := by
  have hsize := hends.size
  rw [List.length_append] at hsize
  refine ⟨by rw [Array.size_shrink]; omega, ?_⟩
  rw [Array.toList_shrink, List.drop_take, hends.2]
  exact List.take_left' (by omega)

theorem EndsWith.pop (hends : EndsWith stack low (held ++ [value])) : EndsWith stack.pop low held := by
  have hshrunk := hends.shrink rfl
  have hsame : stack.pop.toList = (stack.shrink (stack.size - [value].length)).toList := by
    rw [Array.toList_pop, Array.toList_shrink, List.dropLast_eq_take, Array.length_toList]
    rfl
  refine ⟨?_, hsame ▸ hshrunk.2⟩
  have hsize := hends.size
  rw [List.length_append, List.length_singleton] at hsize
  rw [Array.size_pop]
  omega

theorem EndsWith.set (hends : EndsWith stack low held) (i : Nat) (value : Value) :
    EndsWith (stack.setIfInBounds (low + i) value) low (held.set i value) := by
  refine ⟨by rw [Array.size_setIfInBounds]; exact hends.1, ?_⟩
  rw [Array.toList_setIfInBounds, List.drop_set, if_neg (by omega), Nat.add_sub_cancel_left, hends.2]

/-- A stack that reaches two slots from there on. -/
theorem endsWith_pair (hsize : stack.size = low + 2) (hfirst : stack[low]? = some value)
    (hsecond : stack[low + 1]? = some other) : EndsWith stack low [value, other] := by
  refine ⟨by omega, List.ext_getElem? fun i => ?_⟩
  rw [List.getElem?_drop, Array.getElem?_toList]
  match i with
  | 0 => exact hfirst
  | 1 => exact hsecond
  | i + 2 => exact Array.getElem?_eq_none (by omega)

end Stacks

/-- An instruction changes the stack, control goes on at an offset, and below the top that is all. It fails only
for want of room. -/
def Machine.Restacks (m : Machine) (ip : Nat) (stack : Array Value) (outcome : EStateM.Result Fault Machine Unit) :
    Prop :=
  (∃ leftovers, outcome = .ok () { m with stack, leftovers, ip }) ∨
    m.config.maxStackSize.toNat ≤ m.stack.size ∧ ∃ last, outcome = .error Exec.overflowFault last

namespace Exec

variable {m : Machine} {ip low height a b : Nat} {stack : Array Value} {held : List Value} {value first second : Value}
  {frame : Frame}

theorem restacks_push (hsize : stack.size ≤ m.stack.size) {leftovers : Leftovers} (value : Value) :
    m.Restacks ip (stack.push value) (push value { m with stack, leftovers, ip }) := by
  unfold push
  rw [get_bind_apply]
  split
  · rename_i hfull
    exact .inr ⟨hfull.trans hsize, _, rfl⟩
  · exact .inl ⟨_, rfl⟩

/-- The topmost values are found from the top. -/
theorem peek_endsWith (hends : EndsWith m.stack low held) {distance : Nat} (hdistance : distance < held.length)
    (hvalue : held[held.length - 1 - distance]? = some value) :
    peek distance { m with ip } = .ok value { m with ip } := by
  have hsize := hends.size
  have hindex : m.stack.size - 1 - distance = low + (held.length - 1 - distance) := by omega
  rw [peek_eq]
  dsimp only
  rw [hindex, hends.getElem?, hvalue]
  exact if_pos (by omega)

theorem peek_top (hends : EndsWith m.stack low (held ++ [value])) : peek 0 { m with ip } = .ok value { m with ip } := by
  refine peek_endsWith hends (by rw [List.length_append]; exact Nat.succ_pos _) ?_
  rw [List.length_append]
  exact List.getElem?_concat_length

theorem localIndex_inFrame (hframe : m.frames.back? = some frame) (hslot : frame.base + a < m.stack.size) :
    localIndex a { m with ip } = .ok (frame.base + a) { m with ip } := by
  have hown : Exec.frame { m with ip } = .ok frame { m with ip } := by
    unfold Exec.frame
    rw [get_bind_apply]
    change expect m.frames.back? _ = _
    rw [hframe]
    rfl
  simp only [localIndex]
  rw [bind_apply, hown]
  dsimp only
  rw [get_bind_apply, if_pos hslot]
  rfl

/-- A variable is read and comes on top. -/
theorem restacks_getLocal (i : Nat) (hframe : m.frames.back? = some frame)
    (hends : EndsWith m.stack (frame.base + height) held) (hvalue : held[i]? = some value) :
    m.Restacks ip (m.stack.push value) (execute .getLocal (height + i) b { m with ip }) := by
  have hread : m.stack[frame.base + (height + i)]? = some value := by
    rw [← Nat.add_assoc, hends.getElem?]
    exact hvalue
  obtain ⟨hslot, -⟩ := Array.getElem?_eq_some_iff.mp hread
  change m.Restacks ip _ ((localIndex (height + i) >>= fun index => readSlot index >>= push) { m with ip })
  rw [bind_apply, localIndex_inFrame hframe hslot]
  dsimp only
  unfold readSlot
  rw [bind_apply, get_bind_apply, slot?, hread]
  exact restacks_push le_rfl value

/-- The value on top is stored in a variable and stays on top. -/
theorem restacks_setLocal (hframe : m.frames.back? = some frame)
    (hends : EndsWith m.stack (frame.base + height) (held ++ [value])) :
    m.Restacks ip (m.stack.setIfInBounds (frame.base + height) value) (execute .setLocal height b { m with ip }) := by
  have hslot : frame.base + height < m.stack.size := by
    rw [hends.size, List.length_append]
    exact Nat.lt_add_of_pos_right (Nat.succ_pos _)
  change m.Restacks ip _
    ((peek 0 >>= fun value => localIndex height >>= fun index => writeSlot index value) { m with ip })
  rw [bind_apply, peek_top hends]
  dsimp only
  rw [bind_apply, localIndex_inFrame hframe hslot]
  dsimp only
  unfold writeSlot
  rw [get_bind_apply]
  dsimp only
  rw [if_pos hslot]
  exact .inl ⟨_, rfl⟩

theorem restacks_pop (hends : EndsWith m.stack low (held ++ [value])) :
    m.Restacks ip m.stack.pop (execute .pop a b { m with ip }) := by
  have htop : m.stack.back? = some value := by
    have hsize := hends.size
    rw [List.length_append, List.length_singleton] at hsize
    rw [Array.back?_eq_getElem?, show m.stack.size - 1 = low + held.length by omega, hends.getElem?,
      List.getElem?_concat_length]
  change m.Restacks ip _ ((pop >>= fun _ => pure ()) { m with ip })
  rw [bind_apply, pop_eq]
  dsimp only
  rw [htop, ← shrink_pred]
  exact .inl ⟨_, rfl⟩

theorem restacks_constant {chunk : Chunk} {scalar : Scalar} (hchunk : m.chunk = some chunk)
    (hvalue : chunk.constants[a]? = some (.scalar scalar)) :
    m.Restacks ip (m.stack.push (.scalar scalar)) (execute .constant a b { m with ip }) := by
  have hown : Exec.chunk { m with ip } = .ok chunk { m with ip } := by
    unfold Exec.chunk
    rw [get_bind_apply]
    change expect m.chunk _ = _
    rw [hchunk]
    rfl
  simp only [execute]
  rw [bind_apply, hown]
  dsimp only
  rw [bind_apply, hvalue]
  exact restacks_push le_rfl _

/-- An operator takes two values from the top and leaves its result there. -/
theorem restacks_binary (operator : Heap → Value → Value → Except Diagnostic Value)
    (hends : EndsWith m.stack low (held ++ [first, second])) (hvalue : operator m.heap first second = .ok value) :
    m.Restacks ip ((m.stack.shrink (m.stack.size - 2)).push value) (binary operator { m with ip }) := by
  have hlength : (held ++ [first, second]).length = held.length + 2 := by
    rw [List.length_append]
    rfl
  have hvalues (i : Nat) : (held ++ [first, second])[held.length + i]? = [first, second][i]? := by
    rw [List.getElem?_append_right (Nat.le_add_right ..), Nat.add_sub_cancel_left]
  have hright : peek 0 { m with ip } = .ok second { m with ip } :=
    peek_endsWith hends (by omega) (by rw [hlength]; exact hvalues 1)
  have hleft : peek 1 { m with ip } = .ok first { m with ip } :=
    peek_endsWith hends (by omega) (by rw [hlength]; exact hvalues 0)
  simp only [binary]
  rw [bind_apply, hright]
  dsimp only
  rw [bind_apply, hleft]
  dsimp only
  rw [get_bind_apply, bind_apply]
  dsimp only
  rw [hvalue]
  refine restacks_push ?_ value
  rw [Array.size_shrink]
  omega

/-- A conditional jump goes to its target if the value on top is false. -/
theorem restacks_jumpIfFalse (ip a b : Nat) (hends : EndsWith m.stack low (held ++ [value])) :
    m.Restacks (if value.truthy then ip else ip + a) m.stack (execute .jumpIfFalse a b { m with ip }) := by
  change m.Restacks _ _ ((peek 0 >>= fun value => unless value.truthy do skip a) { m with ip })
  rw [bind_apply, peek_top hends]
  dsimp only
  cases value.truthy <;> exact .inl ⟨_, rfl⟩

theorem dispatch_of_has {F : Listing True} {place : Location} {offset : Nat} {height : Option Nat} {op : Opcode}
    (hchunk : m.chunk = some F.chunk) (hip : m.ip = offset) (hhas : F.Has offset height op a b place) :
    dispatch m = execute op a b { m with ip := offset + op.size } := by
  have hnext : m.instruction? = some (op, a, b) := by
    rw [instruction?, hchunk, hip]
    exact hhas.instruction
  rw [dispatch_eq, hnext, hip]

end Exec

/-- The value of an integer. -/
abbrev Value.ofInt (number : Int64) : Value :=
  .scalar (.int number)

/-- A for loop outside its body: where control is, how many runs of the body have started, and what is on the stack
from the counter on. -/
inductive Station (a b : Int64) (test step : Nat) : Nat → Nat → List Value → Prop where
  | test {turns : Nat} {c : Int64} : Settled a b turns c → Station a b test step test turns [.ofInt c, .ofInt b]
  | counter {turns : Nat} {c : Int64} : Settled a b turns c →
      Station a b test step (test + 3) turns [.ofInt c, .ofInt b, .ofInt c]
  | bound {turns : Nat} {c : Int64} : Settled a b turns c →
      Station a b test step (test + 6) turns [.ofInt c, .ofInt b, .ofInt c, .ofInt b]
  | answer {turns : Nat} {c : Int64} : Settled a b turns c →
      Station a b test step (test + 7) turns [.ofInt c, .ofInt b, .ofBool (c < b)]
  | pass {turns : Nat} {c : Int64} : Settled a b turns c → c < b →
      Station a b test step (test + 10) turns [.ofInt c, .ofInt b, .ofBool true]
  | fresh {turns : Nat} {c : Int64} : Settled a b turns c → c < b →
      Station a b test step (test + 11) turns [.ofInt c, .ofInt b]
  | hold {turns : Nat} {c : Int64} : Settled a b turns c → c < b →
      Station a b test step step (turns + 1) [.ofInt c, .ofInt b]
  | one {turns : Nat} {c : Int64} : Settled a b turns c → c < b →
      Station a b test step (step + 3) (turns + 1) [.ofInt c, .ofInt b, .ofInt c]
  | add {turns : Nat} {c : Int64} : Settled a b turns c → c < b →
      Station a b test step (step + 6) (turns + 1) [.ofInt c, .ofInt b, .ofInt c, .ofInt 1]
  | store {turns : Nat} {c : Int64} : Settled a b turns c → c < b →
      Station a b test step (step + 7) (turns + 1) [.ofInt c, .ofInt b, .ofInt (c + 1)]
  | spare {turns : Nat} {c : Int64} : Settled a b turns c →
      Station a b test step (step + 10) turns [.ofInt c, .ofInt b, .ofInt c]
  | again {turns : Nat} {c : Int64} : Settled a b turns c →
      Station a b test step (step + 11) turns [.ofInt c, .ofInt b]
  | fail {turns : Nat} {c : Int64} : Settled a b turns c → ¬ c < b →
      Station a b test step (step + 14) turns [.ofInt c, .ofInt b, .ofBool false]
  | dropBound {turns : Nat} {c : Int64} : Settled a b turns c → ¬ c < b →
      Station a b test step (step + 15) turns [.ofInt c, .ofInt b]
  | dropCounter {turns : Nat} {c : Int64} : Settled a b turns c → ¬ c < b →
      Station a b test step (step + 16) turns [.ofInt c]
  | finished {turns : Nat} : turns = (b.toInt - a.toInt).toNat → Station a b test step (step + 17) turns []

namespace Station

open Exec

variable {F : Listing True} {place : Location} {a b : Int64} {height test step turns : Nat} {held : List Value}
  {m : Machine} {frame : Frame} {offset : Nat}

/-- One instruction leads from station to station, unless a run of the body starts or the loop is over. -/
theorem next (hcounts : F.Counts place height test step) (hchunk : m.chunk = some F.chunk)
    (hframe : m.frames.back? = some frame) (hstation : Station a b test step m.ip turns held)
    (hends : EndsWith m.stack (frame.base + height) held) (houtside : m.ip ≠ test + 11) (hgoing : m.ip ≠ step + 17) :
    ∃ ip stack more, m.Restacks ip stack (dispatch m) ∧ EndsWith stack (frame.base + height) more ∧
      Station a b test step ip turns more := by
  generalize hip : m.ip = ip at hstation
  cases hstation with
  | @test _ c hsettled =>
    rw [dispatch_of_has hchunk hip hcounts.counter]
    exact ⟨_, _, _, restacks_getLocal 0 hframe hends rfl, hends.push _, .counter hsettled⟩
  | @counter _ c hsettled =>
    rw [dispatch_of_has hchunk hip hcounts.bound]
    exact ⟨_, _, _, restacks_getLocal 1 hframe hends rfl, hends.push _, .bound hsettled⟩
  | @bound _ c hsettled =>
    have hpair : EndsWith m.stack _ ([Value.ofInt c, .ofInt b] ++ [Value.ofInt c, .ofInt b]) := hends
    rw [dispatch_of_has hchunk hip hcounts.less]
    exact ⟨_, _, _, restacks_binary (·.comparison .less) hpair rfl, (hpair.shrink rfl).push _, .answer hsettled⟩
  | @answer _ c hsettled =>
    obtain ⟨distance, hhas, htarget⟩ := hcounts.branch
    have htop : EndsWith m.stack _ ([Value.ofInt c, .ofInt b] ++ [Value.ofBool (c < b)]) := hends
    have hjump := restacks_jumpIfFalse (test + 7 + Opcode.jumpIfFalse.size) distance 0 htop
    rw [dispatch_of_has hchunk hip hhas]
    refine ⟨_, _, _, hjump, htop, ?_⟩
    by_cases hbelow : c < b
    · rw [decide_eq_true hbelow]
      exact .pass hsettled hbelow
    · rw [decide_eq_false hbelow]
      change Station a b test step (test + 7 + 3 + distance) turns _
      rw [htarget]
      exact .fail hsettled hbelow
  | @pass _ c hsettled hbelow =>
    have htop : EndsWith m.stack _ ([Value.ofInt c, .ofInt b] ++ [Value.ofBool true]) := hends
    rw [dispatch_of_has hchunk hip hcounts.pass]
    exact ⟨_, _, _, restacks_pop htop, htop.pop, .fresh hsettled hbelow⟩
  | fresh => exact absurd hip houtside
  | @hold _ c hsettled hbelow =>
    rw [dispatch_of_has hchunk hip hcounts.hold]
    exact ⟨_, _, _, restacks_getLocal 0 hframe hends rfl, hends.push _, .one hsettled hbelow⟩
  | @one _ c hsettled hbelow =>
    obtain ⟨index, hhas, hone⟩ := hcounts.one
    rw [dispatch_of_has hchunk hip hhas]
    exact ⟨_, _, _, restacks_constant hchunk hone, hends.push _, .add hsettled hbelow⟩
  | @add _ c hsettled hbelow =>
    have hpair : EndsWith m.stack _ ([Value.ofInt c, .ofInt b] ++ [Value.ofInt c, .ofInt 1]) := hends
    rw [dispatch_of_has hchunk hip hcounts.add]
    exact ⟨_, _, _, restacks_binary (·.arithmetic .add) hpair rfl, (hpair.shrink rfl).push _, .store hsettled hbelow⟩
  | @store _ c hsettled hbelow =>
    have htop : EndsWith m.stack _ ([Value.ofInt c, .ofInt b] ++ [Value.ofInt (c + 1)]) := hends
    rw [dispatch_of_has hchunk hip hcounts.store]
    exact ⟨_, _, _, restacks_setLocal hframe htop, htop.set 0 _, .spare (hsettled.next hbelow)⟩
  | @spare _ c hsettled =>
    have htop : EndsWith m.stack _ ([Value.ofInt c, .ofInt b] ++ [Value.ofInt c]) := hends
    rw [dispatch_of_has hchunk hip hcounts.spare]
    exact ⟨_, _, _, restacks_pop htop, htop.pop, .again hsettled⟩
  | @again _ c hsettled =>
    obtain ⟨distance, hhas, htarget⟩ := hcounts.again
    have hstart : step + 11 + Opcode.loopBack.size - distance = test := by
      change step + 11 + 3 - distance = test
      omega
    rw [dispatch_of_has hchunk hip hhas]
    refine ⟨_, _, _, .inl ⟨_, rfl⟩, hends, ?_⟩
    dsimp only
    rw [hstart]
    exact .test hsettled
  | @fail _ c hsettled hnot =>
    have htop : EndsWith m.stack _ ([Value.ofInt c, .ofInt b] ++ [Value.ofBool false]) := hends
    rw [dispatch_of_has hchunk hip hcounts.fail]
    exact ⟨_, _, _, restacks_pop htop, htop.pop, .dropBound hsettled hnot⟩
  | @dropBound _ c hsettled hnot =>
    have htop : EndsWith m.stack _ ([Value.ofInt c] ++ [Value.ofInt b]) := hends
    rw [dispatch_of_has hchunk hip hcounts.dropBound]
    exact ⟨_, _, _, restacks_pop htop, htop.pop, .dropCounter hsettled hnot⟩
  | @dropCounter _ c hsettled hnot =>
    have htop : EndsWith m.stack _ ([] ++ [Value.ofInt c]) := hends
    rw [dispatch_of_has hchunk hip hcounts.dropCounter]
    exact ⟨_, _, _, restacks_pop htop, htop.pop, .finished (hsettled.eq_of_not_lt hnot)⟩
  | finished => exact absurd hip hgoing

/-- A run of the body starts with a copy of the counter on top, which is the variable of the loop. -/
theorem enters (hcounts : F.Counts place height test step) (hchunk : m.chunk = some F.chunk)
    (hframe : m.frames.back? = some frame) (hstation : Station a b test step m.ip turns held)
    (hends : EndsWith m.stack (frame.base + height) held) (hfresh : m.ip = test + 11) :
    ∃ stack c, m.Restacks (test + 14) stack (dispatch m) ∧ Settled a b turns c ∧ c < b ∧
      EndsWith stack (frame.base + height) [.ofInt c, .ofInt b, .ofInt c] := by
  have hforward := hcounts.forward
  generalize hip : m.ip = ip at hstation
  cases hstation with
  | @fresh _ c hsettled hbelow =>
    rw [dispatch_of_has hchunk hip hcounts.fresh]
    exact ⟨_, c, restacks_getLocal 0 hframe hends rfl, hsettled, hbelow, hends.push _⟩
  | _ => omega

theorem turns_le (hstation : Station a b test step offset turns held) : turns ≤ (b.toInt - a.toInt).toNat := by
  cases hstation with
  | finished heq => exact heq.le
  | hold hsettled hbelow | one hsettled hbelow | add hsettled hbelow | store hsettled hbelow =>
    exact (hsettled.next hbelow).le
  | test hsettled | counter hsettled | bound hsettled | answer hsettled | pass hsettled | fresh hsettled
  | spare hsettled | again hsettled | fail hsettled | dropBound hsettled | dropCounter hsettled => exact hsettled.le

/-- Up to the end of the loop the counter is there: the start and as many more as there are runs of the body that are
done. One more may have ended, but is not counted yet. -/
theorem settled (hstation : Station a b test step offset turns held) (hgoing : offset ≠ step + 17) :
    ∃ c ended, held[0]? = some (.ofInt c) ∧ Settled a b ended c ∧ ended ≤ turns ∧ turns ≤ ended + 1 := by
  cases hstation with
  | finished heq => exact absurd rfl hgoing
  | hold hsettled hbelow | one hsettled hbelow | add hsettled hbelow | store hsettled hbelow =>
    exact ⟨_, _, rfl, hsettled, Nat.le_succ _, le_rfl⟩
  | test hsettled | counter hsettled | bound hsettled | answer hsettled | pass hsettled | fresh hsettled
  | spare hsettled | again hsettled | fail hsettled | dropBound hsettled | dropCounter hsettled =>
    exact ⟨_, _, rfl, hsettled, le_rfl, Nat.le_succ _⟩

theorem finished_of_ip (hstation : Station a b test step (step + 17) turns held) (hforward : test + 14 < step) :
    held = [] ∧ turns = (b.toInt - a.toInt).toNat := by
  generalize hip : step + 17 = ip at hstation
  cases hstation with
  | finished heq => exact ⟨rfl, heq⟩
  | _ => omega

end Station

end OwnScript
