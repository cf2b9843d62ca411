import OwnScript.Proofs.Machine.Patterns
import OwnScript.Proofs.Stack.Runs

/-!
The start of a call. A function tries its clauses in order; each costs three instructions, whether it accepts the
arguments or passes on to the next. Until a body starts nothing happens but that: a clause that does not accept
the arguments leaves nothing behind, and one that does leaves the values that it has found inside them.
-/

namespace OwnScript

open Stateful

/-- A machine on its way through the clauses of a function that was called: it has got to an offset and values
were pushed. Garbage may have been collected and something left above the top, and nothing else has happened. -/
structure Prologue (start : Machine) (offset : Nat) (pushed : List Value) (m : Machine) : Prop where
  same : m = { start with
    ip := offset, stack := start.stack ++ pushed.toArray, leftovers := m.leftovers, heap := m.heap,
    trace := m.trace, instructionStart := m.instructionStart }
  idle : m.heap.Idle
  keeps : start.heap.Keeps m.heap start.roots

namespace Prologue

variable {start m : Machine} {offset : Nat} {pushed : List Value}

theorem begins (hidle : start.heap.Idle) : Prologue start start.ip [] start :=
  ⟨by simp, hidle, fun _ _ => rfl⟩

section Fields

variable (h : Prologue start offset pushed m)

include h

theorem ip : m.ip = offset := by rw [h.same]

theorem stack : m.stack = start.stack ++ pushed.toArray := by rw [h.same]

theorem frames : m.frames = start.frames := by rw [h.same]

theorem chunk : m.chunk = start.chunk := by rw [h.same]

theorem config : m.config = start.config := by rw [h.same]

theorem halted : m.halted = start.halted := by rw [h.same]

theorem roots_subset : start.roots ⊆ m.roots := by
  intro value hvalue
  rw [Machine.mem_roots_iff] at hvalue ⊢
  rw [h.same]
  simp only [Array.toList_append, List.mem_append]
  exact hvalue.imp_left .inl

/-- What was at hand at the start is still at hand. -/
theorem reachable {ref : Ref} (hreach : start.heap.Reachable start.roots ref) : m.heap.Reachable m.roots ref := by
  induction hreach with
  | root hvalue href => exact .root (h.roots_subset hvalue) href
  | step hreach hfound htarget ih => exact .step ih ((h.keeps _ hreach).trans hfound) htarget

/-- A machine that has gone on to another offset with other values pushed, and is the same otherwise. -/
theorem move {heap : Heap} (hidle : heap.Idle) (hkeeps : start.heap.Keeps heap start.roots) (next : Nat)
    {stack : Array Value} {leftovers : Leftovers} {values : List Value}
    (hstack : stack = start.stack ++ values.toArray) (instructionStart : Nat) (trace : String) :
    Prologue start next values { m with heap, ip := next, stack, leftovers, instructionStart, trace } := by
  refine ⟨?_, hidle, hkeeps⟩
  have hsame := h.same
  generalize m.heap = old, m.trace = told, m.instructionStart = noted, m.leftovers = behind at hsame
  subst hsame hstack
  rfl

theorem collectGarbage : Prologue start offset pushed m.collectGarbage := by
  have hspec := Heap.collect_spec h.idle m.roots
  have hkeeps : start.heap.Keeps m.collectGarbage.heap start.roots := fun ref hreach =>
    (hspec.reached ref (h.reachable hreach)).trans (h.keeps ref hreach)
  obtain rfl := h.ip
  exact h.move hspec.idle hkeeps m.ip h.stack m.instructionStart m.trace

theorem safepoint : Prologue start offset pushed m.safepoint := by
  obtain ⟨trace, hcollected | hsame⟩ := m.safepoint_cases
  · have hafter := h.collectGarbage
    rw [hcollected]
    obtain rfl := h.ip
    exact hafter.move hafter.idle hafter.keeps m.ip hafter.stack m.ip trace
  · rw [hsame]
    obtain rfl := h.ip
    exact h.move h.idle h.keeps m.ip h.stack m.ip trace

/-- Control goes on elsewhere. -/
theorem goto (next : Nat) : Prologue start next pushed { m with ip := next } :=
  h.move h.idle h.keeps next h.stack m.instructionStart m.trace

/-- The values pushed are others. -/
theorem restack {stack : Array Value} {leftovers : Leftovers} {values : List Value}
    (hstack : stack = start.stack ++ values.toArray) : Prologue start offset values { m with stack, leftovers } := by
  obtain rfl := h.ip
  exact h.move h.idle h.keeps m.ip hstack m.instructionStart m.trace

end Fields

section Steps

variable {tracked : Prop} {F : Listing tracked} {height : Option Nat} {op : Opcode} {a b : Nat} {location : Location}
  {value : Value} {values : List Value}

/-- The machine reads the instruction at its offset. -/
theorem fetch (h : Prologue start offset pushed m) (hrunning : start.chunk = some F.chunk)
    (hhas : F.Has offset height op a b location) :
    ∃ s, Prologue start (offset + op.size) pushed s ∧ Exec.dispatch m.safepoint = Exec.execute op a b s := by
  have hsafe := h.safepoint
  refine ⟨_, hsafe.goto (offset + op.size), ?_⟩
  have hnext : m.safepoint.instruction? = some (op, a, b) := by
    rw [Machine.instruction?, hsafe.chunk, hrunning, hsafe.ip]
    exact hhas.instruction
  rw [Exec.dispatch_eq, hnext]
  dsimp only
  rw [hsafe.ip]

/-- A step goes on with the values pushed, unless the stack has no room for them. -/
def Pushes (start : Machine) (offset : Nat) (pushed : List Value) (result : EStateM.Result Fault Machine Unit) : Prop :=
  (∃ after, result = .ok () after ∧ Prologue start offset pushed after) ∨
    (∃ after, result = .error Exec.overflowFault after) ∧
      start.config.maxStackSize.toNat < start.stack.size + pushed.length

theorem push (h : Prologue start offset pushed m) (value : Value) :
    Pushes start offset (pushed ++ [value]) (Exec.push value m) := by
  unfold Exec.push
  rw [get_bind_apply]
  split
  · rename_i hfull
    refine .inr ⟨⟨m, rfl⟩, ?_⟩
    rw [h.config, h.stack, Array.size_append] at hfull
    change _ ≤ start.stack.size + pushed.length at hfull
    rw [List.length_append, List.length_singleton]
    omega
  · exact .inl ⟨{ m with stack := m.stack.push value }, rfl, h.restack (by simp [h.stack])⟩

theorem pushAll (h : Prologue start offset pushed m) (values : List Value) :
    Pushes start offset (pushed ++ values) (Exec.pushAll values m) := by
  induction values generalizing pushed m with
  | nil =>
    rw [List.append_nil]
    exact .inl ⟨m, rfl, h⟩
  | cons value rest ih =>
    simp only [Exec.pushAll]
    rw [bind_apply]
    rcases h.push value with ⟨after, hpush, hafter⟩ | ⟨⟨after, hpush⟩, hfull⟩
    · rw [hpush, List.append_cons]
      exact ih hafter
    · rw [hpush]
      refine .inr ⟨⟨after, rfl⟩, ?_⟩
      simp only [List.length_append, List.length_cons, List.length_nil] at hfull ⊢
      omega

/-- What a match leaves on the stack. -/
def answer : Option (List Value) → List Value
  | none => [.ofBool false]
  | some values => values ++ [.ofBool true]

theorem pushMatch (h : Prologue start offset [] m) (bound : Option (List Value)) :
    Pushes start offset (answer bound) (Exec.pushMatch bound m) := by
  cases bound with
  | none => exact h.push _
  | some values =>
    simp only [Exec.pushMatch]
    rw [bind_apply]
    rcases h.pushAll values with ⟨after, hpush, hafter⟩ | ⟨⟨after, hpush⟩, hfull⟩
    · rw [hpush]
      exact hafter.push _
    · rw [hpush]
      refine .inr ⟨⟨after, rfl⟩, ?_⟩
      simp only [answer, List.length_append, List.nil_append, List.length_singleton] at hfull ⊢
      omega

end Steps

end Prologue

namespace Exec

variable {m : Machine} {matchers : List Matcher} {patterns : List Pattern} {pattern : Pattern} {arguments : List Value}
  {value : Value} {slot : Nat}

/-- A parameter that asks nothing is passed over. -/
theorem matchSlots_any (found : List Value) :
    matchSlots (.any :: matchers) slot found m = matchSlots matchers (slot + 1) found m := by
  have htest : Matcher.any.test = .wildcard := rfl
  rw [matchSlots, if_pos htest]

/-- Any other parameter is matched against the value of its slot. -/
theorem matchSlots_pattern (htest : pattern.toMatcher.test ≠ .wildcard) (hvalue : m.stack[slot]? = some value)
    (found : List Value) :
    matchSlots (pattern.toMatcher :: matchers) slot found m =
      match pattern.bindings? m.heap value with
      | none => .ok none m
      | some bound => matchSlots matchers (slot + 1) (found ++ bound.map (·.2)) m := by
  have hread : readSlot slot m = .ok value m := by
    unfold readSlot
    rw [get_bind_apply, Machine.slot?, hvalue]
    rfl
  rw [matchSlots, if_neg htest, bind_apply, hread]
  dsimp only
  rw [get_bind_apply, Pattern.matchValue_toMatcher]
  cases pattern.bindings? m.heap value <;> rfl

/-- Matching goes through the slots of the arguments and finds the values of the variables inside them. -/
theorem matchSlots_eq (hlength : patterns.length = arguments.length)
    (hslots : ∀ (i : Nat) value, arguments[i]? = some value → m.stack[slot + i]? = some value) (found : List Value) :
    matchSlots (patterns.map parameterMatcher) slot found m =
      .ok ((parameterBindings? m.heap patterns arguments).map fun _ =>
        found ++ (innerBindings m.heap patterns arguments).map (·.2)) m := by
  induction patterns generalizing arguments slot found with
  | nil =>
    obtain rfl := List.eq_nil_of_length_eq_zero hlength.symm
    simp [matchSlots, parameterBindings?, innerBindings]
  | cons pattern rest ih =>
    cases arguments with
    | nil => cases hlength
    | cons value others =>
      have hnext (i : Nat) (value : Value) (hvalue : others[i]? = some value) :
        m.stack[slot + 1 + i]? = some value := by
        rw [Nat.add_assoc, Nat.add_comm 1 i]
        exact hslots (i + 1) value hvalue
      have hothers := ih (Nat.succ.inj hlength) hnext
      have htested (htest : pattern.toMatcher.test ≠ .wildcard)
          (hinner : innerBindings m.heap (pattern :: rest) (value :: others) =
            (pattern.bindings? m.heap value).getD [] ++ innerBindings m.heap rest others) :
          matchSlots (pattern.toMatcher :: rest.map parameterMatcher) slot found m =
            .ok ((parameterBindings? m.heap (pattern :: rest) (value :: others)).map fun _ =>
              found ++ (innerBindings m.heap (pattern :: rest) (value :: others)).map (·.2)) m := by
        have hvalue : m.stack[slot]? = some value := hslots 0 value rfl
        rw [matchSlots_pattern htest hvalue, parameterBindings?_cons, hinner]
        cases pattern.bindings? m.heap value with
        | none => rfl
        | some bound =>
          dsimp only [Option.bind_some, Option.getD_some]
          rw [hothers, Option.map_map, List.map_append, List.append_assoc]
          rfl
      rw [List.map_cons]
      cases pattern with
      | wildcard | bind =>
        rw [parameterBindings?_cons]
        refine (matchSlots_any found).trans ((hothers found).trans ?_)
        cases parameterBindings? m.heap rest others <;> rfl
      | literal location literal => exact htested (by cases literal <;> simp [Pattern.toMatcher, Matcher.test]) rfl
      | destructure => exact htested (by simp [Pattern.toMatcher, Matcher.test]) rfl

end Exec

/-- A function was called with arguments: they are all that its frame holds. -/
structure Machine.Called (start : Machine) (frame : Frame) (arguments : List Value) : Prop where
  innermost : start.frames.back? = some frame
  inside : frame.base ≤ start.stack.size
  count : frame.argumentCount = arguments.length
  window : start.stack.toList.drop frame.base = arguments

theorem Machine.Called.slot {start : Machine} {frame : Frame} {arguments : List Value}
    (hcalled : start.Called frame arguments) {i : Nat} {value : Value} (hvalue : arguments[i]? = some value) :
    start.stack[frame.base + i]? = some value := by
  rw [← hcalled.window, List.getElem?_drop] at hvalue
  rw [← Array.getElem?_toList]
  exact hvalue

theorem Machine.Called.reaches {start : Machine} {frame : Frame} {arguments : List Value}
    (hcalled : start.Called frame arguments) : ∀ value ∈ arguments, start.heap.Reaches start.roots value := by
  intro value hvalue
  rw [← hcalled.window] at hvalue
  exact Heap.reaches_of_mem (Machine.stack_mem_roots (List.mem_of_mem_drop hvalue))

namespace Prologue

variable {start m : Machine} {frame : Frame} {arguments : List Value} {offset a : Nat} {pushed : List Value}
  {patterns : List Pattern} {tracked : Prop} {F : Listing tracked} {height : Option Nat} {location : Location}
  {value : Value}

/-- What a clause finds inside the arguments if it accepts them. -/
def findings (heap : Heap) (patterns : List Pattern) (arguments : List Value) : Option (List Value) :=
  (parameterBindings? heap patterns arguments).map fun _ => (innerBindings heap patterns arguments).map (·.2)

theorem matchArguments (h : Prologue start offset [] m) (hcalled : start.Called frame arguments)
    (patterns : List Pattern) :
    Pushes start offset (answer (findings start.heap patterns arguments))
      (Exec.matchArguments (patterns.map parameterMatcher) m) := by
  have hframe : Exec.frame m = .ok frame m := by
    unfold Exec.frame
    rw [get_bind_apply, h.frames, hcalled.innermost]
    rfl
  unfold Exec.matchArguments
  rw [bind_apply, hframe]
  dsimp only
  rw [hcalled.count, List.length_map]
  split
  · rename_i hlength
    have hslots (i : Nat) (value : Value) (hvalue : arguments[i]? = some value) :
      m.stack[frame.base + i]? = some value := by
      rw [h.stack, Array.append_empty]
      exact hcalled.slot hvalue
    rw [bind_apply, Exec.matchSlots_eq hlength.symm hslots, parameterBindings?_kept h.keeps _ hcalled.reaches,
      innerBindings_kept h.keeps _ hcalled.reaches]
    exact h.pushMatch _
  · rename_i hlength
    have hnone : parameterBindings? start.heap patterns arguments = none := by
      by_contra hsome
      obtain ⟨bound, hbound⟩ := Option.ne_none_iff_exists'.mp hsome
      exact hlength (length_of_parameterBindings? hbound)
    rw [findings, hnone]
    exact h.pushMatch none

/-- The machine stops because the stack has no room for so many values more. -/
def Overflows (start : Machine) (count : Nat) (m : Machine) : Prop :=
  start.config.maxStackSize.toNat < start.stack.size + count ∧
    ∃ diagnostic after, Exec.turn false m = .error (.failure diagnostic) after ∧ diagnostic.kind = .stackOverflow

/-- A turn of the machine goes on with the values pushed. -/
def Turns (start : Machine) (offset : Nat) (pushed : List Value) (m : Machine) : Prop :=
  ∃ after, Exec.turn false m = .ok false after ∧ Prologue start offset pushed after

theorem turns_of_dispatch {after : Machine} (hdispatch : Exec.dispatch m.safepoint = .ok () after)
    (hafter : Prologue start offset pushed after) : Turns start offset pushed m := by
  refine ⟨after, ?_, hafter⟩
  unfold Exec.turn
  rw [hdispatch]

theorem turn_failure {after : Machine} {diagnostic : Diagnostic}
    (hdispatch : Exec.dispatch m.safepoint = .error (.failure diagnostic) after) :
    Exec.turn false m = .error (.failure (after.locate diagnostic)) after.reset := by
  unfold Exec.turn
  rw [hdispatch]
  rfl

theorem turn_matchArgs (h : Prologue start offset [] m) (hrunning : start.chunk = some F.chunk)
    (hcalled : start.Called frame arguments) (hhas : F.Has offset height .matchArgs a 0 location)
    (hclause : F.chunk.clauses[a]? = some (patterns.map parameterMatcher)) :
    Turns start (offset + 3) (answer (findings start.heap patterns arguments)) m ∨
      Overflows start (answer (findings start.heap patterns arguments)).length m := by
  obtain ⟨s, hs, hdispatch⟩ := h.fetch hrunning hhas
  have hexecute : Exec.execute .matchArgs a 0 s = Exec.matchArguments (patterns.map parameterMatcher) s := by
    have hchunk : Exec.chunk s = .ok F.chunk s := by
      unfold Exec.chunk
      rw [get_bind_apply, hs.chunk, hrunning]
      rfl
    simp only [Exec.execute]
    rw [bind_apply, hchunk]
    dsimp only
    rw [bind_apply, hclause]
    rfl
  rw [hexecute] at hdispatch
  rcases hs.matchArguments hcalled patterns with ⟨after, hok, hafter⟩ | ⟨⟨after, herror⟩, hfull⟩
  · exact .inl (turns_of_dispatch (hdispatch.trans hok) hafter)
  · exact .inr ⟨hfull, _, _, turn_failure (hdispatch.trans herror), rfl⟩

/-- The branch goes on here if the top of the stack is true and elsewhere if it is false. -/
theorem turn_jumpIfFalse (h : Prologue start offset (pushed ++ [value]) m) (hrunning : start.chunk = some F.chunk)
    {target : Nat} (hjumps : F.Jumps offset height .jumpIfFalse location target) :
    Turns start (if value.truthy then offset + 3 else target) (pushed ++ [value]) m := by
  obtain ⟨distance, hhas, rfl⟩ := hjumps
  obtain ⟨s, hs, hdispatch⟩ := h.fetch hrunning hhas
  have hpeek : Exec.peek 0 s = .ok value s := by
    rw [Exec.peek_eq, hs.stack]
    simp
  have hjump : Exec.execute .jumpIfFalse distance 0 s =
      .ok () { s with ip := if value.truthy then offset + 3 else offset + 3 + distance } := by
    have hip : s.ip = offset + 3 := hs.ip
    simp only [Exec.execute]
    rw [bind_apply, hpeek]
    dsimp only
    split
    · rw [← hip]
      rfl
    · rw [← hip]
      rfl
  exact turns_of_dispatch (hdispatch.trans hjump) (hs.goto _)

theorem turn_pop (h : Prologue start offset (pushed ++ [value]) m) (hrunning : start.chunk = some F.chunk)
    (hhas : F.Has offset height .pop 0 0 location) : Turns start (offset + 1) pushed m := by
  obtain ⟨s, hs, hdispatch⟩ := h.fetch hrunning hhas
  have hpop : Exec.execute .pop 0 0 s = .ok () (s.cut (s.stack.size - 1)) := by
    have hback : s.stack.back? = some value := by
      rw [hs.stack]
      simp
    simp only [Exec.execute]
    rw [bind_apply, Exec.pop_eq, hback]
    rfl
  have hrest : (s.cut (s.stack.size - 1)).stack = start.stack ++ pushed.toArray := by
    rw [Machine.stack_cut, Machine.shrink_pred, hs.stack]
    simp
  exact turns_of_dispatch (hdispatch.trans hpop) (hs.restack hrest)

theorem turn_noMatchingOverload (h : Prologue start offset [] m) (hrunning : start.chunk = some F.chunk)
    (hcalled : start.Called frame arguments) (hhas : F.Has offset height .noMatchingOverload 0 0 location)
    {function : Prototype} {cells : Array (Option Ref)}
    (hclosure : start.heap.get? frame.closure = some (.closure (some function) cells))
    (hname : function.name.isEmpty = false) :
    ∃ diagnostic after, Exec.turn false m = .error (.failure diagnostic) after ∧
      diagnostic.kind = .noMatchingOverload ∧ diagnostic.context = function.name ∧
      diagnostic.message = s!"no clause of '{function.name}' accepts {arguments.length} argument(s)" := by
  obtain ⟨s, hs, hdispatch⟩ := h.fetch hrunning hhas
  have hframe : Exec.frame s = .ok frame s := by
    unfold Exec.frame
    rw [get_bind_apply, hs.frames, hcalled.innermost]
    rfl
  have hroot : start.heap.Reachable start.roots frame.closure :=
    .root (Machine.closure_mem_roots (Array.mem_toList_iff.mpr (Array.mem_of_back? hcalled.innermost))) rfl
  have hfunction : s.functionName frame.closure = function.name := by
    rw [Machine.functionName, hs.keeps _ hroot, hclosure]
    rfl
  have hexecute : Exec.execute .noMatchingOverload 0 0 s = .error (.failure (.about .noMatchingOverload function.name
      s!"no clause of '{function.name}' accepts {arguments.length} argument(s)")) s := by
    simp only [Exec.execute, Exec.noMatchingOverload]
    rw [bind_apply, hframe]
    dsimp only
    rw [get_bind_apply, hfunction, hcalled.count]
    rfl
  refine ⟨_, _, turn_failure (hdispatch.trans hexecute), rfl, ?_, rfl⟩
  change (if function.name.isEmpty = true then _ else function.name) = _
  rw [hname]
  rfl

/-- Three turns after one another. -/
theorem advance_three {first second third : Machine} (hhalted : start.halted = false) {next : Nat}
    (h : Prologue start offset pushed m) (hfirst : Exec.turn false m = .ok false first)
    {values : List Value} (hfirst' : Prologue start next values first)
    (hsecond : Exec.turn false first = .ok false second) {later : Nat} {others : List Value}
    (hsecond' : Prologue start later others second) (hthird : Exec.turn false second = .ok false third) (turns : Nat) :
    Exec.advance (turns + 3) false m = Exec.advance turns false third := by
  have hgo {m after : Machine} {offset : Nat} {pushed : List Value} (h : Prologue start offset pushed m)
      (hturn : Exec.turn false m = .ok false after) (turns : Nat) :
      Exec.advance (turns + 1) false m = Exec.advance turns false after := by
    rw [Exec.advance, h.halted, hhalted, hturn]
    rfl
  rw [hgo h hfirst (turns + 2), hgo hfirst' hsecond (turns + 1), hgo hsecond' hthird turns]

section Clauses

variable {globals : GlobalTable} {clause : Clause} {clauses : List Clause} {p : Nat}

/-- Whether a clause takes the arguments of a call: it has as many parameters, and all of them accept. -/
def Takes (start : Machine) (arguments : List Value) (clause : Clause) : Prop :=
  ∃ bound, parameterBindings? start.heap clause.parameters arguments = some bound

theorem not_takes {start : Machine} {arguments : List Value} {clause : Clause} :
    ¬ Takes start arguments clause ↔ parameterBindings? start.heap clause.parameters arguments = none := by
  rw [Takes, ← Option.isSome_iff_exists, Option.not_isSome_iff_eq_none]

/-- From a machine in front of clauses, control gets to the body of the first that takes the arguments, and the
frame then holds the arguments and the values inside them. -/
def Chooses (globals : GlobalTable) (F : Listing tracked) (location : Location) (start : Machine)
    (arguments : List Value) (p : Nat) (clauses : List Clause) (m : Machine) : Prop :=
  ∃ (before : List Clause) (clause : Clause) (rest : List Clause) (q ended : Nat) (last : FrameScope) (after : Machine),
    clauses = before ++ clause :: rest ∧ (∀ earlier ∈ before, ¬ Takes start arguments earlier) ∧
    Takes start arguments clause ∧ ClausesCode globals F location p before q ∧
    StmtsCode globals F none (clauseScope clause.parameters) (q + 7) clause.body last ended ∧
    Exec.advance (3 * (before.length + 1)) false m = some after ∧
    Prologue start (q + 7) ((innerBindings start.heap clause.parameters arguments).map (·.2)) after

/-- From a machine in front of clauses, control gets behind the last because none takes the arguments. -/
def Passes (start : Machine) (arguments : List Value) (clauses : List Clause) (ended : Nat) (m : Machine) : Prop :=
  (∀ clause ∈ clauses, ¬ Takes start arguments clause) ∧
    ∃ after, Exec.advance (3 * clauses.length) false m = some after ∧ Prologue start ended [] after

/-- From a machine in front of clauses, control gets to one whose variables the stack has no room for. -/
def Stops (start : Machine) (clauses : List Clause) (m : Machine) : Prop :=
  ∃ turns < 3 * clauses.length, ∃ after clause, clause ∈ clauses ∧ Exec.advance turns false m = some after ∧
    Overflows start ((parameterVariables clause.parameters).length + 1) after

theorem length_answer (heap : Heap) (patterns : List Pattern) (arguments : List Value) :
    (answer (findings heap patterns arguments)).length ≤ (parameterVariables patterns).length + 1 := by
  unfold findings
  cases hbound : parameterBindings? heap patterns arguments with
  | none => exact Nat.succ_le_succ (Nat.zero_le _)
  | some bound =>
    have hlength := congrArg List.length (declarations_innerBindings hbound)
    simp only [List.length_map] at hlength
    simp [answer, hlength]

/-- A clause chooses its body, passes on to the next one, or has no room. -/
theorem run_clause (hrunning : start.chunk = some F.chunk) (hcalled : start.Called frame arguments)
    (hhalted : start.halted = false) (h : Prologue start p [] m) {q : Nat}
    (htest : F.Has p none .matchArgs a 0 location)
    (hclause : F.chunk.clauses[a]? = some (patterns.map parameterMatcher))
    (hjump : F.Jumps (p + 3) none .jumpIfFalse location q) (htaken : F.Has (p + 6) height .pop 0 0 location)
    {height' : Option Nat} (hpassed : F.Has q height' .pop 0 0 location) :
    (∃ after, (∀ turns, Exec.advance (turns + 3) false m = Exec.advance turns false after) ∧
      match findings start.heap patterns arguments with
      | some values => Prologue start (p + 7) values after
      | none => Prologue start (q + 1) [] after) ∨
    Overflows start ((parameterVariables patterns).length + 1) m := by
  rcases h.turn_matchArgs hrunning hcalled htest hclause with ⟨first, hfirst, hanswer⟩ | ⟨hfull, herror⟩
  · refine .inl ?_
    cases hfound : findings start.heap patterns arguments with
    | none =>
      rw [hfound] at hanswer
      have hrefused : Prologue start (p + 3) ([] ++ [.ofBool false]) first := hanswer
      obtain ⟨second, hsecond, hbranch⟩ := turn_jumpIfFalse hrefused hrunning hjump
      obtain ⟨third, hthird, hdone⟩ := turn_pop hbranch hrunning hpassed
      exact ⟨third, advance_three hhalted h hfirst hanswer hsecond hbranch hthird, hdone⟩
    | some values =>
      rw [hfound] at hanswer
      obtain ⟨second, hsecond, hbranch⟩ := turn_jumpIfFalse hanswer hrunning hjump
      obtain ⟨third, hthird, hdone⟩ := turn_pop hbranch hrunning htaken
      exact ⟨third, advance_three hhalted h hfirst hanswer hsecond hbranch hthird, hdone⟩
  · have := length_answer start.heap patterns arguments
    exact .inr ⟨by omega, herror⟩

/-- The clauses are tried in order. -/
theorem run_clauses (hrunning : start.chunk = some F.chunk) (hcalled : start.Called frame arguments)
    (hhalted : start.halted = false) {ended : Nat} (hcode : ClausesCode globals F location p clauses ended)
    (h : Prologue start p [] m) :
    Chooses globals F location start arguments p clauses m ∨ Passes start arguments clauses ended m ∨
      Stops start clauses m := by
  induction clauses generalizing p m with
  | nil =>
    cases hcode
    exact .inr (.inl ⟨by simp, m, rfl, h⟩)
  | cons clause rest ih =>
    cases hcode with
    | @cons _ _ place given _ q a' _ scope last parameters body _ hplace htest hclause hjump hscope htaken hbody hnil
        hret hpassed hrest =>
      subst hscope
      rcases run_clause hrunning hcalled hhalted h htest hclause hjump htaken hpassed with
        ⟨after, hadvance, hafter⟩ | hoverflow
      · cases hbound : parameterBindings? start.heap parameters arguments with
        | some bound =>
          simp only [findings, hbound, Option.map_some] at hafter
          refine .inl ⟨[], _, rest, p, q, last, after, rfl, by simp, ⟨bound, hbound⟩, .nil, hbody, ?_, hafter⟩
          exact hadvance 0
        | none =>
          simp only [findings, hbound, Option.map_none] at hafter
          have hrefused : ¬ Takes start arguments ⟨given, parameters, body⟩ := not_takes.mpr hbound
          rcases ih hrest hafter with hchooses | ⟨hnone, last', hlast, hdone⟩
            | ⟨turns, hturns, last', found, hfound, hlast, hfull⟩
          · obtain ⟨before, chosen, others, r, ended', last', final, rfl, hbefore, htakes, hcode', hbody', hturns,
              hfinal⟩ := hchooses
            refine .inl ⟨⟨given, parameters, body⟩ :: before, chosen, others, r, ended', last', final, rfl,
              List.forall_mem_cons.mpr ⟨hrefused, hbefore⟩, htakes,
              .cons hplace htest hclause hjump rfl htaken hbody hnil hret hpassed hcode', hbody', ?_, hfinal⟩
            rw [List.length_cons, Nat.mul_add, hadvance]
            exact hturns
          · refine .inr (.inl ⟨List.forall_mem_cons.mpr ⟨hrefused, hnone⟩, last', ?_, hdone⟩)
            rw [List.length_cons, Nat.mul_add, hadvance]
            exact hlast
          · refine .inr
              (.inr ⟨turns + 3, ?_, last', found, List.mem_cons_of_mem _ hfound, (hadvance turns).trans hlast, hfull⟩)
            rw [List.length_cons]
            omega
      · refine .inr (.inr ⟨0, ?_, m, _, List.mem_cons_self, rfl, hoverflow⟩)
        rw [List.length_cons]
        omega

end Clauses

end Prologue

end OwnScript
