import OwnScript.Proofs.Loops.Captures
import OwnScript.Proofs.Loops.Stretches

/-!
A for loop of an active call, turn by turn. From where the start and the bound have been computed, control is outside of
the body, at one of the stations of the loop, or in a run of the body. Either is kept by one turn, and which run of the
body it is decides on the counter.
-/

namespace OwnScript

open Stateful Machine

namespace Exec

/-- A call runs on up to where control is at an offset of its own code for the first time. Other calls may be made and
left on the way, but the call itself is not left. -/
inductive Reaches (depth stop : Nat) (start : Machine) : Bool → Machine → Prop where
  | start {retried : Bool} : Reaches depth stop start retried start
  | turn {retried again : Bool} {m after : Machine} : Reaches depth stop start retried m → m.halted = false →
      (m.frames.size = depth → m.ip ≠ stop) → turn retried m = .ok again after → depth ≤ after.frames.size →
      Reaches depth stop start again after

/-- An expression whose code ends at an offset is evaluated: the call has got there, and the value is on top. -/
structure Evaluates (stop : Nat) (value : Value) (start m : Machine) : Prop where
  reached : ∃ retried, Reaches start.frames.size stop start retried m
  returned : m.frames.size = start.frames.size
  ip : m.ip = stop
  value : m.stack.back? = some value

/-- A for loop runs from where it starts to count: the machines at which runs of its body have started so far, and
whether control is in the body. A run of the body starts with a copy of the counter on top, which is the variable of the
loop, and ends where the counter is stepped. It is left in no other way: the call goes on, and control does not get to
the end of the loop from inside. -/
inductive Rounds (depth test step : Nat) (start : Machine) : List Machine → Bool → Bool → Machine → Prop where
  | start {retried : Bool} : Rounds depth test step start [] false retried start
  | counts {bodies : List Machine} {retried again : Bool} {m after : Machine} :
      Rounds depth test step start bodies false retried m → m.halted = false → m.ip ≠ step + 17 →
      (m.ip = test + 11 → again = true) → turn retried m = .ok again after →
      Rounds depth test step start bodies false again after
  | begins {bodies : List Machine} {retried : Bool} {m after : Machine} :
      Rounds depth test step start bodies false retried m → m.halted = false → m.ip = test + 11 →
      turn retried m = .ok false after → Rounds depth test step start (bodies ++ [after]) true false after
  | inside {bodies : List Machine} {retried again : Bool} {m after : Machine} :
      Rounds depth test step start bodies true retried m → m.halted = false → turn retried m = .ok again after →
      depth ≤ after.frames.size → (after.frames.size = depth → after.ip ≠ step ∧ after.ip ≠ step + 15) →
      Rounds depth test step start bodies true again after
  | ends {bodies : List Machine} {retried again : Bool} {m after : Machine} :
      Rounds depth test step start bodies true retried m → m.halted = false → turn retried m = .ok again after →
      after.frames.size = depth → after.ip = step → Rounds depth test step start bodies false again after

/-- What a for loop from `a` up to `b` does, seen from a machine in front of it: the slots of the counter, of the bound
and of the variable of the loop are the next ones on the stack. -/
structure Tally (a b : Int64) (test step : Nat) (before : Machine) (bodies : List Machine) (inBody : Bool)
    (m : Machine) : Prop where
  /-- A run of the body starts with the next number as the variable of the loop. -/
  begins : ∀ (i : Nat) body, bodies[i]? = some body → body.frames = before.frames ∧ body.ip = test + 14 ∧
    body.stack.size = before.stack.size + 3 ∧
    ∃ c : Int64, c.toInt = a.toInt + i ∧ body.stack.back? = some (.ofInt c)
  within : bodies.length ≤ (b.toInt - a.toInt).toNat
  /-- The counter counts the runs of the body that are done, as an unbounded number. -/
  counter : inBody = true ∨ m.ip ≠ step + 17 → ∃ (c : Int64) (ended : Nat),
    m.stack[before.stack.size]? = some (.ofInt c) ∧ c.toInt = a.toInt + ended ∧
      ended ≤ bodies.length ∧ bodies.length ≤ ended + 1
  /-- Outside of its body the loop goes on, unless the stack is full. -/
  goesOn : inBody = false → m.ip ≠ step + 17 → m.stack.size < m.config.maxStackSize.toNat → ∀ retried,
    ∃ after, turn retried m = .ok false after
  finished : inBody = false → m.ip = step + 17 → bodies.length = (b.toInt - a.toInt).toNat ∧
    m.frames = before.frames ∧ m.stack.size = before.stack.size

end Exec

namespace Machine

variable {m after : Machine} {ip slot : Nat} {stack : Array Value} {retried again : Bool} {frame : Frame}

/-- A turn with such an instruction is completed if it ends normally at all. -/
theorem Restacks.of_turn (hrestacks : m.safepoint.Restacks ip stack (Exec.dispatch m.safepoint))
    (hturn : Exec.turn retried m = .ok again after) :
    again = false ∧ ∃ leftovers, after = { m.safepoint with stack, leftovers, ip } := by
  unfold Exec.turn at hturn
  rcases hrestacks with ⟨leftovers, hdone⟩ | ⟨-, last, hfull⟩
  · rw [hdone] at hturn
    cases hturn
    exact ⟨rfl, leftovers, rfl⟩
  · rw [hfull] at hturn
    cases hturn

/-- With room on the stack such a turn is completed. -/
theorem Restacks.completes (hrestacks : m.safepoint.Restacks ip stack (Exec.dispatch m.safepoint))
    (hroom : m.stack.size < m.config.maxStackSize.toNat) (retried : Bool) :
    ∃ leftovers, Exec.turn retried m = .ok false { m.safepoint with stack, leftovers, ip } := by
  obtain ⟨hconfig, -, -, -, -, -, hstack⟩ := Exec.safepoint_same m
  rcases hrestacks with ⟨leftovers, hdone⟩ | ⟨hfull, -⟩
  · refine ⟨leftovers, ?_⟩
    unfold Exec.turn
    rw [hdone]
  · rw [hconfig, hstack] at hfull
    omega

/-- An instruction wants a slot only to make a closure that captures it. -/
theorem exists_capture_of_wanted (hframe : m.frames.back? = some frame) (hslot : slot ∈ m.wanted) :
    ∃ a b chunk prototype, m.instruction? = some (.closure, a, b) ∧ m.chunk = some chunk ∧
      chunk.functions[a]? = some (some prototype) ∧
      ∃ capture ∈ prototype.captures, capture.isLocal = true ∧ slot = frame.base + capture.index := by
  unfold wanted at hslot
  split at hslot
  · rename_i a b hnext
    split at hslot
    · rename_i prototype hfound
      obtain ⟨chunk, hchunk, hfound⟩ := Option.bind_eq_some_iff.mp hfound
      simp only [closureSlots, hframe] at hslot
      split at hslot
      · obtain ⟨capture, hmem, hlocal, heq⟩ := Exec.mem_capturedSlots hslot
        exact ⟨a, b, chunk, prototype, hnext, hchunk, hfound, capture, Array.mem_toList_iff.mp hmem, hlocal, heq⟩
      · cases hslot
    · cases hslot
  · cases hslot

end Machine

namespace ActiveCall

open Exec

variable {globals : GlobalTable} {statements : List Stmt} {call : ActiveCall globals statements} {m start : Machine}
  {retried : Bool} {stop slot : Nat} {value : Value}

/-- Good profiles of the code of the call. -/
def Good (call : ActiveCall globals statements) : Profile → Prop :=
  Sure globals statements call.asScript call.function call.frame.argumentCount

theorem flawless (call : ActiveCall globals statements) :
    Flawless globals call.code call.frame.argumentCount call.Good :=
  flawless_sure call.laid _

/-- A slot that has no cell by the code has none, if the next instruction does not capture it. -/
theorem Lives.free (hlives : call.Lives m) (hframes : m.frames = call.calls)
    (hclean : ∀ top, ¬ MayHold call.Good slot top m.ip)
    (huncaptured : ∀ a b prototype, call.code.chunk.instructionAt? m.ip = some (.closure, a, b) →
      call.code.chunk.functions[a]? = some (some prototype) →
      ∀ capture ∈ prototype.captures, capture.isLocal = true → capture.index ≠ slot) :
    call.frame.base + slot ∉ m.openSlots := by
  intro hopen
  obtain ⟨known, top, cells, op, a, b, hfacing⟩ := hlives.facing hframes
  rcases hfacing.line.cells _ hopen with hknown | hwanted
  · exact hclean top ⟨_, _, ⟨(hfacing.line.inside _ hknown).2, hknown⟩, hfacing.current.sure⟩
  · obtain ⟨a', b', chunk, prototype, hnext, hchunk, hfound, capture, hmem, hlocal, heq⟩ :=
      exists_capture_of_wanted (hframes ▸ call.innermost) hwanted
    cases (hlives.chunk_eq hframes).symm.trans hchunk
    rw [instruction?, hchunk] at hnext
    exact huncaptured a' b' prototype hnext hfound capture hmem hlocal (by omega)

theorem Lives.reaches (hlives : call.Lives start) (hreaches : Exec.Reaches call.calls.size stop start retried m) :
    call.Lives m := by
  induction hreaches with
  | start => exact hlives
  | turn _ hrunning _ hturn hdeep ih => exact ih.turn hrunning hturn hdeep

/-- The value of an expression is on top of all that the frame held before. -/
theorem Lives.evaluates (hlives : call.Lives start) (hframes : start.frames = call.calls)
    (hevaluates : Evaluates stop value start m) {height : Nat} (hholds : call.code.Holds stop (height + 1)) :
    call.Lives m ∧ m.frames = call.calls ∧ m.stack.size = call.frame.base + height + 1 ∧
      m.stack[call.frame.base + height]? = some value := by
  obtain ⟨retried, hreaches⟩ := hevaluates.reached
  rw [hframes] at hreaches
  have hthere := hlives.reaches hreaches
  have hcalls := hthere.frames_eq (hframes ▸ hevaluates.returned)
  have hsize : m.stack.size = call.frame.base + (height + 1) := hthere.size hcalls (hevaluates.ip ▸ hholds)
  have htop := hevaluates.value
  rw [Array.back?_eq_getElem?, hsize] at htop
  exact ⟨hthere, hcalls, hsize, htop⟩

end ActiveCall

namespace Stretch

open Exec

variable {globals : GlobalTable} {statements : List Stmt} {stretch : Stretch globals statements} {m start : Machine}
  {retried : Bool} {inner : List Frame} {back stop : Nat}

/-- All the way through a stretch the slots keep their values. -/
theorem Inside.reaches (hinside : stretch.Inside back inner start) (hout : ∀ offset, stretch.Out offset → offset = stop)
    (hreaches : Exec.Reaches stretch.calls.size stop start retried m) : stretch.Proceeds start m := by
  induction hreaches with
  | start => exact ⟨⟨back, inner, hinside⟩, fun _ _ => rfl⟩
  | turn _ hrunning hbefore hturn hdeep ih =>
    obtain ⟨back, inner, hmiddle⟩ := ih.inside
    have hproceeds := hmiddle.turn (fun hsize hleft => hbefore hsize (hout _ hleft)) hrunning hturn hdeep
    exact ⟨hproceeds.inside, fun slot hslot => (hproceeds.kept slot hslot).trans (ih.kept slot hslot)⟩

end Stretch

/-- A for loop of an active call. -/
structure ForSite (globals : GlobalTable) (statements : List Stmt) extends ActiveCall globals statements where
  place : Location
  height : Nat
  test : Nat
  step : Nat
  counts : code.Counts place height test step

namespace ForSite

open Exec ActiveCall

variable {globals : GlobalTable} {statements : List Stmt} {site : ForSite globals statements} {m after start : Machine}
  {retried again inBody : Bool} {a b : Int64} {turns : Nat} {bodies : List Machine}

/-- The slot of the counter. The bound and, in the body, the variable of the loop are in the next ones. -/
def low (site : ForSite globals statements) : Nat :=
  site.frame.base + site.height

/-- The body, which leaves the counter and the bound alone. -/
def stretch (site : ForSite globals statements) : Stretch globals statements where
  toActiveCall := site.toActiveCall
  first := site.height
  last := site.height + 1
  Out offset := offset = site.step ∨ offset = site.step + 15
  ordered := Nat.le_succ _

/-- Control is outside of the body, after so many runs of the body have started. -/
structure Counting (site : ForSite globals statements) (a b : Int64) (turns : Nat) (m : Machine) : Prop where
  lives : site.Lives m
  frames : m.frames = site.calls
  free : ∀ slot, site.stretch.Covers slot → slot ∉ m.openSlots
  station : ∃ held, Station a b site.test site.step m.ip turns held ∧ EndsWith m.stack site.low held

/-- Control is in the body, after so many runs of the body have ended. -/
structure Looping (site : ForSite globals statements) (a b : Int64) (turns : Nat) (m : Machine) : Prop where
  inside : ∃ back inner, site.stretch.Inside back inner m
  counter : ∃ c, Settled a b turns c ∧ c < b ∧ m.stack[site.low]? = some (.ofInt c)
  bound : m.stack[site.low + 1]? = some (.ofInt b)

theorem covers_counter (site : ForSite globals statements) : site.stretch.Covers site.low :=
  ⟨site.height, le_rfl, Nat.le_succ _, rfl⟩

theorem covers_bound (site : ForSite globals statements) : site.stretch.Covers (site.low + 1) :=
  ⟨site.height + 1, Nat.le_succ _, le_rfl, rfl⟩

theorem Counting.safepoint (hcounting : site.Counting a b turns m) : site.Counting a b turns m.safepoint := by
  obtain ⟨-, hframes, -, hip, -, -, hstack⟩ := safepoint_same m
  refine ⟨hcounting.lives.safepoint, hframes.trans hcounting.frames, fun slot hslot hopen => ?_, ?_⟩
  · exact hcounting.free slot hslot ((untouched_safepoint hcounting.lives.underway.sound).cell hopen)
  · rw [hip, hstack]
    exact hcounting.station

/-- Outside of the body one instruction leads from station to station. -/
theorem Counting.next (hcounting : site.Counting a b turns m) (houtside : m.ip ≠ site.test + 11)
    (hgoing : m.ip ≠ site.step + 17) :
    ∃ ip stack, m.Restacks ip stack (dispatch m) ∧
      ∃ held, Station a b site.test site.step ip turns held ∧ EndsWith stack site.low held := by
  obtain ⟨held, hstation, hends⟩ := hcounting.station
  obtain ⟨ip, stack, more, hrestacks, hheld, hnext⟩ := hstation.next site.counts
    (hcounting.lives.chunk_eq hcounting.frames) (hcounting.frames ▸ site.innermost) hends houtside hgoing
  exact ⟨ip, stack, hrestacks, more, hnext, hheld⟩

/-- What a turn outside of the body leaves as it was. -/
theorem Counting.kept (hcounting : site.Counting a b turns m) (hrunning : m.halted = false)
    (hturn : turn retried m = .ok again after) {ip : Nat} {stack : Array Value} {leftovers : Leftovers}
    (hafter : after = { m.safepoint with stack, leftovers, ip }) :
    site.Lives after ∧ after.frames = site.calls ∧ ∀ slot, site.stretch.Covers slot → slot ∉ after.openSlots := by
  have hframes : after.frames = site.calls := by
    rw [hafter]
    exact hcounting.safepoint.frames
  refine ⟨hcounting.lives.turn hrunning hturn (le_of_eq (congrArg Array.size hframes.symm)), hframes, ?_⟩
  rw [hafter]
  exact hcounting.safepoint.free

theorem Counting.turn (hcounting : site.Counting a b turns m) (houtside : m.ip ≠ site.test + 11)
    (hgoing : m.ip ≠ site.step + 17) (hrunning : m.halted = false) (hturn : turn retried m = .ok again after) :
    site.Counting a b turns after := by
  obtain ⟨-, -, -, hip, -⟩ := safepoint_same m
  obtain ⟨ip, stack, hrestacks, hstation⟩ := hcounting.safepoint.next (hip ▸ houtside) (hip ▸ hgoing)
  obtain ⟨-, leftovers, hafter⟩ := hrestacks.of_turn hturn
  obtain ⟨hlives, hframes, hfree⟩ := hcounting.kept hrunning hturn hafter
  refine ⟨hlives, hframes, hfree, ?_⟩
  rw [hafter]
  exact hstation

/-- A copy of the counter is pushed, and the body starts. -/
theorem Counting.enters (hcounting : site.Counting a b turns m) (hfresh : m.ip = site.test + 11) :
    ∃ stack c, m.Restacks (site.test + 14) stack (dispatch m) ∧ Settled a b turns c ∧ c < b ∧
      EndsWith stack site.low [.ofInt c, .ofInt b, .ofInt c] := by
  obtain ⟨held, hstation, hends⟩ := hcounting.station
  exact hstation.enters site.counts (hcounting.lives.chunk_eq hcounting.frames) (hcounting.frames ▸ site.innermost)
    hends hfresh

/-- Outside of the body a turn is completed, unless the stack is full. -/
theorem Counting.completes (hcounting : site.Counting a b turns m) (hgoing : m.ip ≠ site.step + 17)
    (hroom : m.stack.size < m.config.maxStackSize.toNat) (retried : Bool) :
    ∃ after, Exec.turn retried m = .ok false after := by
  obtain ⟨-, -, -, hip, -⟩ := safepoint_same m
  by_cases hfresh : m.ip = site.test + 11
  · obtain ⟨stack, c, hrestacks, -⟩ := hcounting.safepoint.enters (hip.trans hfresh)
    obtain ⟨leftovers, hturn⟩ := hrestacks.completes hroom retried
    exact ⟨_, hturn⟩
  · obtain ⟨ip, stack, hrestacks, -⟩ := hcounting.safepoint.next (hip ▸ hfresh) (hip ▸ hgoing)
    obtain ⟨leftovers, hturn⟩ := hrestacks.completes hroom retried
    exact ⟨_, hturn⟩

/-- What holds where a run of the body starts: the variable of the loop is on top. -/
structure Begins (site : ForSite globals statements) (a : Int64) (turns : Nat) (m : Machine) : Prop where
  frames : m.frames = site.calls
  ip : m.ip = site.test + 14
  size : m.stack.size = site.low + 3
  item : ∃ c : Int64, c.toInt = a.toInt + turns ∧ m.stack.back? = some (.ofInt c)

theorem Counting.begins (hcounting : site.Counting a b turns m) (hfresh : m.ip = site.test + 11)
    (hrunning : m.halted = false) (hturn : Exec.turn retried m = .ok again after) :
    again = false ∧ site.Begins a turns after ∧ site.Looping a b turns after := by
  obtain ⟨-, -, -, hip, -⟩ := safepoint_same m
  obtain ⟨stack, c, hrestacks, hsettled, hbelow, hends⟩ := hcounting.safepoint.enters (hip.trans hfresh)
  obtain ⟨hagain, leftovers, hafter⟩ := hrestacks.of_turn hturn
  obtain ⟨hlives, hframes, hfree⟩ := hcounting.kept hrunning hturn hafter
  have hstack : after.stack = stack := by rw [hafter]
  have hstart : after.ip = site.test + 14 := by rw [hafter]
  have hsize : after.stack.size = site.low + 3 := by
    rw [hstack]
    exact hends.size
  have hvalue (i : Nat) : after.stack[site.low + i]? = [Value.ofInt c, .ofInt b, .ofInt c][i]? := by
    rw [hstack]
    exact hends.getElem? i
  have hinside : site.stretch.Inside (site.test + 14) [] after :=
    { lives := hlives
      free := hfree
      frames := (congrArg Array.toList hframes).trans (List.append_nil _).symm
      above := fun _ h => (List.not_mem_nil h).elim
      lands := hstart
      reached := by
        change site.low + 1 < after.stack.size
        omega
      heeds := fun slot hfirst hlast => site.counts.body slot (by
        change site.height ≤ slot at hfirst
        change slot ≤ site.height + 1 at hlast
        omega) }
  have htop : after.stack.back? = some (.ofInt c) := by
    rw [Array.back?_eq_getElem?, hsize]
    exact hvalue 2
  exact ⟨hagain, ⟨hframes, hstart, hsize, c, hsettled.value, htop⟩,
    ⟨⟨_, [], hinside⟩, ⟨c, hsettled, hbelow, hvalue 0⟩, hvalue 1⟩⟩

theorem Looping.turn (hlooping : site.Looping a b turns m)
    (hbody : m.frames.size = site.calls.size → ¬ site.stretch.Out m.ip) (hrunning : m.halted = false)
    (hturn : Exec.turn retried m = .ok again after) (hdeep : site.calls.size ≤ after.frames.size) :
    site.Looping a b turns after := by
  obtain ⟨back, inner, hinside⟩ := hlooping.inside
  obtain ⟨c, hsettled, hbelow, hcounter⟩ := hlooping.counter
  have hproceeds := hinside.turn hbody hrunning hturn hdeep
  exact ⟨hproceeds.inside, ⟨c, hsettled, hbelow, (hproceeds.kept _ site.covers_counter).trans hcounter⟩,
    (hproceeds.kept _ site.covers_bound).trans hlooping.bound⟩

/-- A run of the body ends with the counter and the bound on top. -/
theorem Looping.ends (hlooping : site.Looping a b turns m) (hreturned : m.frames.size = site.calls.size)
    (hstep : m.ip = site.step) : site.Counting a b (turns + 1) m := by
  obtain ⟨back, inner, hinside⟩ := hlooping.inside
  obtain ⟨c, hsettled, hbelow, hcounter⟩ := hlooping.counter
  have hlives : site.Lives m := hinside.lives
  have hframes := hlives.frames_eq hreturned
  have hsize : m.stack.size = site.low + 2 := by
    rw [hlives.size hframes (hstep ▸ site.counts.hold.height), low]
    omega
  refine ⟨hlives, hframes, hinside.free, _, ?_, endsWith_pair hsize hcounter hlooping.bound⟩
  rw [hstep]
  exact .hold hsettled hbelow

/-- What holds all through the runs of the body. -/
structure Counted (site : ForSite globals statements) (a b : Int64) (bodies : List Machine) (inBody : Bool)
    (m : Machine) : Prop where
  begun : ∀ i body, bodies[i]? = some body → site.Begins a i body
  outside : inBody = false → site.Counting a b bodies.length m
  inside : inBody = true → ∃ turns, bodies.length = turns + 1 ∧ site.Looping a b turns m ∧
    (m.frames.size = site.calls.size → ¬ site.stretch.Out m.ip)

theorem Counting.rounds (hcounting : site.Counting a b 0 start)
    (hrounds : Rounds site.calls.size site.test site.step start bodies inBody retried m) :
    site.Counted a b bodies inBody m := by
  have hforward := site.counts.forward
  induction hrounds with
  | start => exact ⟨fun i body hbody => (by cases hbody), fun _ => hcounting, fun h => by cases h⟩
  | counts _ hrunning hgoing hfresh hturn ih =>
    have hcounting := ih.outside rfl
    -- Nothing is given up outside of the body.
    have houtside : _ ≠ site.test + 11 := fun h => by
      cases (hcounting.begins h hrunning hturn).1.symm.trans (hfresh h)
    exact ⟨ih.begun, fun _ => hcounting.turn houtside hgoing hrunning hturn, fun h => by cases h⟩
  | @begins bodies retried m after _ hrunning hfresh hturn ih =>
    obtain ⟨-, hbegins, hlooping⟩ := (ih.outside rfl).begins hfresh hrunning hturn
    refine ⟨fun i body hbody => ?_, fun h => (by cases h), fun _ => ⟨_, List.length_append, hlooping, fun _ hout => ?_⟩⟩
    · rcases Nat.lt_trichotomy i bodies.length with hold | rfl | hnone
      · rw [List.getElem?_append_left hold] at hbody
        exact ih.begun i body hbody
      · rw [List.getElem?_concat_length] at hbody
        cases hbody
        exact hbegins
      · rw [List.getElem?_eq_none (by rw [List.length_append]; exact hnone)] at hbody
        cases hbody
    · rw [hbegins.ip] at hout
      rcases hout with h | h <;> omega
  | inside _ hrunning hturn hdeep hstays ih =>
    obtain ⟨turns, hlength, hlooping, hbody⟩ := ih.inside rfl
    refine ⟨ih.begun, fun h => (by cases h), fun _ => ⟨turns, hlength, hlooping.turn hbody hrunning hturn hdeep, ?_⟩⟩
    exact fun hsize hout => hout.elim (hstays hsize).1 (hstays hsize).2
  | ends _ hrunning hturn hreturned hstep ih =>
    obtain ⟨turns, hlength, hlooping, hbody⟩ := ih.inside rfl
    refine ⟨ih.begun, fun _ => ?_, fun h => by cases h⟩
    rw [hlength]
    exact (hlooping.turn hbody hrunning hturn hreturned.ge).ends hreturned hstep

theorem Counted.tally (hcounted : site.Counted a b bodies inBody m) {before : Machine}
    (hframes : before.frames = site.calls) (hsize : before.stack.size = site.low) :
    Tally a b site.test site.step before bodies inBody m where
  begins i body hbody := by
    obtain ⟨hcalls, hip, hheight, hitem⟩ := hcounted.begun i body hbody
    exact ⟨hcalls.trans hframes.symm, hip, hsize ▸ hheight, hitem⟩
  within := by
    cases inBody with
    | false =>
      obtain ⟨held, hstation, -⟩ := (hcounted.outside rfl).station
      exact hstation.turns_le
    | true =>
      obtain ⟨turns, hlength, hlooping, -⟩ := hcounted.inside rfl
      obtain ⟨c, hsettled, hbelow, -⟩ := hlooping.counter
      exact hlength ▸ (hsettled.next hbelow).le
  counter hgoing := by
    rw [hsize]
    cases inBody with
    | false =>
      obtain ⟨held, hstation, hends⟩ := (hcounted.outside rfl).station
      obtain ⟨c, ended, hheld, hsettled, hle, hlast⟩ := hstation.settled (hgoing.resolve_left Bool.false_ne_true)
      exact ⟨c, ended, (hends.getElem? 0).trans hheld, hsettled.value, hle, hlast⟩
    | true =>
      obtain ⟨turns, hlength, hlooping, -⟩ := hcounted.inside rfl
      obtain ⟨c, hsettled, -, hcounter⟩ := hlooping.counter
      exact ⟨c, turns, hcounter, hsettled.value, by omega, by omega⟩
  goesOn houtside hgoing hroom := (hcounted.outside houtside).completes hgoing hroom
  finished houtside hdone := by
    have hcounting := hcounted.outside houtside
    obtain ⟨held, hstation, hends⟩ := hcounting.station
    rw [hdone] at hstation
    obtain ⟨rfl, hturns⟩ := hstation.finished_of_ip site.counts.forward
    exact ⟨hturns, hcounting.frames.trans hframes.symm, hends.size.trans hsize.symm⟩

/-- The code of the bound, which leaves the counter alone. -/
def bounding (site : ForSite globals statements) : Stretch globals statements where
  toActiveCall := site.toActiveCall
  first := site.height
  last := site.height
  Out offset := offset = site.test
  ordered := le_rfl

theorem not_closure_test (site : ForSite globals statements) (a b : Nat) :
    site.code.chunk.instructionAt? site.test ≠ some (.closure, a, b) := by
  rw [site.counts.counter.instruction]
  rintro ⟨⟩

section Start

variable {scope second : FrameScope} {bound : Expr} {q : Nat}

theorem inside_bounding (hlives : site.Lives m) (hframes : m.frames = site.calls) (hip : m.ip = q)
    (hsize : site.low < m.stack.size) (hlength : scope.length = site.height)
    (hbound : ExprCode globals site.code (site.height + 1) (⟨none, false⟩ :: scope) q bound second site.test) :
    site.bounding.Inside q [] m := by
  have hheeds (n : Nat) : site.code.Heeds site.height (fun offset => offset = site.test) n q :=
    ExprCode.heeds bound hbound (.inl ⟨hlength.symm, rfl, rfl⟩) (Nat.lt_succ_self _) (heeds_out rfl)
  have hfree : site.low ∉ m.openSlots := by
    refine hlives.free hframes (fun top hmay => ?_) fun a b prototype hnext hfound => ?_
    · rw [hip] at hmay
      exact site.counts.free site.flawless (.inl rfl) (ExprCode.mayHold bound hbound site.flawless hmay)
    · rw [hip] at hnext
      rcases hheeds 1 with hout | ⟨op, a', b', height, place, hhas, hharmless, -⟩
      · exact absurd (hout ▸ hnext) (site.not_closure_test a b)
      · cases hnext.symm.trans hhas.instruction
        exact hharmless.uncaptured rfl prototype hfound
  refine ⟨hlives, ?_, (congrArg Array.toList hframes).trans (List.append_nil _).symm,
    fun _ h => (List.not_mem_nil h).elim, hip, hsize, fun offset hlow hhigh n => ?_⟩
  · rintro _ ⟨offset, hlow, hhigh, rfl⟩
    obtain rfl : offset = site.height := le_antisymm hhigh hlow
    exact hfree
  · obtain rfl : offset = site.height := le_antisymm hhigh hlow
    exact hheeds n

/-- Where the start and the bound have been evaluated, the loop starts to count. -/
theorem counting_start (site : ForSite globals statements) {before middle : Machine} (hlives : site.Lives before)
    (hframes : before.frames = site.calls) (hlength : scope.length = site.height)
    (hbound : ExprCode globals site.code (site.height + 1) (⟨none, false⟩ :: scope) q bound second site.test)
    (hfirst : Evaluates q (.ofInt a) before middle) (hsecond : Evaluates site.test (.ofInt b) middle start) :
    site.Counting a b 0 start := by
  obtain ⟨hmiddle, hcalls, hsize, hcounter⟩ := hlives.evaluates hframes hfirst hbound.holds
  obtain ⟨hstart, hback, hheight, hlimit⟩ := hmiddle.evaluates hcalls hsecond site.counts.counter.height
  have hinside := inside_bounding hmiddle hcalls hfirst.ip (hsize ▸ Nat.lt_succ_self _) hlength hbound
  obtain ⟨retried, hreaches⟩ := hsecond.reached
  rw [hcalls] at hreaches
  have hproceeds := hinside.reaches (fun _ => id) hreaches
  have hkept : start.stack[site.low]? = some (.ofInt a) :=
    (hproceeds.kept _ ⟨site.height, le_rfl, le_rfl, rfl⟩).trans hcounter
  refine ⟨hstart, hback, ?_, [.ofInt a, .ofInt b], ?_, endsWith_pair hheight hkept hlimit⟩
  · rintro _ ⟨offset, hlow, hhigh, rfl⟩
    have hslot : offset = site.height ∨ offset = site.height + 1 := by
      change site.height ≤ offset at hlow
      change offset ≤ site.height + 1 at hhigh
      omega
    refine hstart.free hback (fun top => ?_) fun a b prototype hnext => ?_
    · rw [hsecond.ip]
      exact site.counts.free site.flawless hslot
    · rw [hsecond.ip] at hnext
      exact absurd hnext (site.not_closure_test a b)
  · rw [hsecond.ip]
    exact .test (settled_start a b)

end Start

end ForSite

end OwnScript
