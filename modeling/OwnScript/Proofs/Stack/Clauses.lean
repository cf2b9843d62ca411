import OwnScript.Proofs.Analysis.Resolution
import OwnScript.Proofs.Lowering.Inventory
import OwnScript.Proofs.Stack.Prologues

/-!
Calls of the functions of a program. Main statement: a call tries the clauses of its function in the order of the
source and starts the body of the first that takes the arguments, with every variable of the clause in its slot;
if there is none, the call fails and names the function.
-/

namespace OwnScript

open Stateful

/-- A machine enters a function with arguments, which are the topmost values on its stack. -/
structure Machine.Enters (m : Machine) (function : Prototype) (arguments : List Value) (start : Machine) : Prop where
  idle : m.heap.Idle
  running : m.halted = false
  above : ∃ below, m.stack.toList = below ++ arguments
  call : ∃ closure cells, m.heap.get? closure = some (.closure (some function) cells) ∧
    Exec.callValue (.ofRef closure) arguments.length m = .ok () start

/-- The code of the body of a clause starts at an offset, behind the code of the clauses before it and the three
instructions that chose the clause. Its variables are in scope. -/
def Prototype.HasBody (globals : GlobalTable) (location : Location) (prototype : Prototype) (before : List Clause)
    (clause : Clause) (offset : Nat) : Prop :=
  ∃ (F : Listing False) (p ended : Nat) (last : FrameScope), prototype.chunk = some F.chunk ∧
    ClausesCode globals F location 0 before p ∧ offset = p + 7 ∧
    StmtsCode globals F none (clauseScope clause.parameters) offset clause.body last ended

namespace Machine

/-- The frame of a machine holds the arguments of a clause and then the values inside them, each variable of the
clause in the slot in which the code of the body looks for it. -/
def Holds (m : Machine) (heap : Heap) (clause : Clause) (arguments : List Value) (bound : List Binding) : Prop :=
  ∃ frame, m.frames.back? = some frame ∧
    m.stack.toList.drop frame.base = arguments ++ (innerBindings heap clause.parameters arguments).map (·.2) ∧
    ∀ id value, (some id, value) ∈ bound → ∃ slot, (clauseScope clause.parameters).slotOf? id = some slot ∧
      m.stack[frame.base + slot]? = some value

/-- A call gets to the body of the first clause that takes its arguments, in three turns for each clause up to
that one. Nothing has happened on the way but that the values inside the arguments were pushed, and perhaps
collections. -/
def StartsBody (start : Machine) (globals : GlobalTable) (location : Location) (prototype : Prototype)
    (clauses : List Clause) (arguments : List Value) : Prop :=
  ∃ (before rest : List Clause) (clause : Clause) (bound : List Binding) (after : Machine),
    clauses = before ++ clause :: rest ∧
    (∀ earlier ∈ before, parameterBindings? start.heap earlier.parameters arguments = none) ∧
    parameterBindings? start.heap clause.parameters arguments = some bound ∧
    Exec.advance (3 * (before.length + 1)) false start = some after ∧
    prototype.HasBody globals location before clause after.ip ∧
    after.Holds start.heap clause arguments bound ∧
    Prologue start after.ip ((innerBindings start.heap clause.parameters arguments).map (·.2)) after

/-- A call fails because no clause takes its arguments. The failure names the function and says how many
arguments there are. -/
def RefusesCall (start : Machine) (name : String) (clauses : List Clause) (arguments : List Value) : Prop :=
  (∀ clause ∈ clauses, parameterBindings? start.heap clause.parameters arguments = none) ∧
    ∃ last diagnostic after, Exec.advance (3 * clauses.length) false start = some last ∧
      Exec.turn false last = .error (.failure diagnostic) after ∧ diagnostic.kind = .noMatchingOverload ∧
      diagnostic.context = name ∧
      diagnostic.message = s!"no clause of '{name}' accepts {arguments.length} argument(s)"

/-- A call fails while it tries its clauses, because the stack has no room for the variables of one and for the
answer whether it matches. -/
def OverflowsTrying (start : Machine) (clauses : List Clause) : Prop :=
  ∃ turns < 3 * clauses.length, ∃ last diagnostic after, ∃ clause ∈ clauses,
    start.config.maxStackSize.toNat < start.stack.size + ((parameterVariables clause.parameters).length + 1) ∧
    Exec.advance turns false start = some last ∧
    Exec.turn false last = .error (.failure diagnostic) after ∧ diagnostic.kind = .stackOverflow

/-- What can become of a call before a body starts. -/
def TriesClauses (start : Machine) (globals : GlobalTable) (location : Location) (prototype : Prototype)
    (clauses : List Clause) (arguments : List Value) : Prop :=
  start.StartsBody globals location prototype clauses arguments ∨
    start.RefusesCall prototype.name clauses arguments ∨ start.OverflowsTrying clauses

variable {m start : Machine} {function : Prototype} {arguments : List Value}

/-- A call that was entered stands in front of its code, and its frame holds the arguments. -/
theorem Enters.called (henters : m.Enters function arguments start) :
    ∃ frame cells, start.Called frame arguments ∧
      start.heap.get? frame.closure = some (.closure (some function) cells) ∧ start.chunk = function.chunk ∧
      start.ip = 0 ∧ start.heap.Idle ∧ start.halted = false := by
  obtain ⟨below, hbelow⟩ := henters.above
  obtain ⟨closure, cells, hclosure, hcall⟩ := henters.call
  have hentered : start = Exec.entered m closure (some function) arguments.length := by
    replace hcall := (Exec.callValue_closure hclosure _).symm.trans hcall
    split at hcall
    · cases hcall
    · split at hcall
      · cases hcall
      · exact (EStateM.Result.ok.inj hcall).2.symm
  subst hentered
  have hsize : m.stack.size - arguments.length = below.length := by
    rw [← Array.length_toList, hbelow, List.length_append, Nat.add_sub_cancel]
  refine ⟨_, cells, ⟨Array.back?_push, Nat.sub_le .., rfl, ?_⟩, hclosure, rfl, rfl, henters.idle, henters.running⟩
  change m.stack.toList.drop (m.stack.size - arguments.length) = arguments
  rw [hsize, hbelow, List.drop_left]

end Machine

variable {globals : GlobalTable} {location : Location} {clauses : List Clause}

/-- In a frame that holds the arguments and the values inside them every variable of a clause is in its slot. -/
theorem Prologue.holds {start after : Machine} {frame : Frame} {arguments : List Value} {offset : Nat} {clause : Clause}
    {bound : List Binding}
    (h : Prologue start offset ((innerBindings start.heap clause.parameters arguments).map (·.2)) after)
    (hcalled : start.Called frame arguments) {ids : List BindingId} (hvars : clause.vars.map (·.binding) = ids.map some)
    (hdistinct : ids.Nodup) (hbound : parameterBindings? start.heap clause.parameters arguments = some bound) :
    after.Holds start.heap clause arguments bound := by
  have hwindow : after.stack.toList.drop frame.base =
      arguments ++ (innerBindings start.heap clause.parameters arguments).map (·.2) := by
    rw [h.stack, Array.toList_append, List.drop_append_of_le_length (by simpa using hcalled.inside), hcalled.window]
  refine ⟨frame, by rw [h.frames, hcalled.innermost], hwindow, fun id value hmem => ?_⟩
  obtain ⟨slot, hslot, hvalue⟩ := slot_of_parameter hvars hdistinct hbound hmem
  refine ⟨slot, hslot, ?_⟩
  rw [← hwindow, List.getElem?_drop, Array.getElem?_toList] at hvalue
  exact hvalue

/-- A call of a function tries its clauses in order. -/
theorem PrototypeCode.triesClauses {F : Listing False} {function : Function} {prototype : Prototype}
    (hcode : PrototypeCode globals F location prototype function) (hname : prototype.name.isEmpty = false)
    (hdistinct : ∀ clause ∈ function.clauses, ∃ ids : List BindingId,
      clause.vars.map (·.binding) = ids.map some ∧ ids.Nodup)
    {m start : Machine} {arguments : List Value} (henters : m.Enters prototype arguments start) :
    start.TriesClauses globals location prototype function.clauses arguments := by
  obtain ⟨frame, cells, hcalled, hclosure, hchunk, hip, hidle, hhalted⟩ := henters.called
  cases hcode with
  | @intro _ _ _ name isProc clauses ended hown hclauses hnone =>
    have hrunning : start.chunk = some F.chunk := hchunk.trans hown
    have hbegins : Prologue start 0 [] start := hip ▸ Prologue.begins hidle
    rcases Prologue.run_clauses hrunning hcalled hhalted hclauses hbegins with
      ⟨before, clause, rest, p, ended, last, after, hsplit, hbefore, ⟨bound, hbound⟩, hfront, hbody, hturns, hafter⟩ |
      ⟨hrefused, last, hturns, hlast⟩
        | ⟨turns, hfew, last, clause, hclause, hturns, hfull, diagnostic, after, hturn, hkind⟩
    · obtain ⟨ids, hvars, hnodup⟩ := hdistinct clause (by simp [hsplit])
      refine .inl ⟨before, rest, clause, bound, after, hsplit,
        fun earlier h => Prologue.not_takes.mp (hbefore earlier h),
        hbound, hturns, ⟨F, p, ended, last, hown, hfront, hafter.ip, ?_⟩, hafter.holds hcalled hvars hnodup hbound, ?_⟩
      · rw [hafter.ip]
        exact hbody
      · rw [hafter.ip]
        exact hafter
    · obtain ⟨diagnostic, after, hturn, hkind, hcontext, hmessage⟩ :=
        hlast.turn_noMatchingOverload hrunning hcalled hnone hclosure hname
      exact .inr
        (.inl ⟨fun clause h => Prologue.not_takes.mp (hrefused clause h), last, diagnostic, after, hturns, hturn,
        hkind, hcontext, hmessage⟩)
    · exact .inr (.inr ⟨turns, hfew, last, diagnostic, after, clause, hclause, hfull, hturns, hturn, hkind⟩)

/-- The name of a function in messages is never empty. -/
theorem Function.isEmpty_displayName (function : Function) : function.displayName.isEmpty = false := by
  unfold Function.displayName
  split
  · rfl
  · exact Bool.eq_false_iff.mpr ‹_›

/-- In an accepted program every function that has code dispatches its calls in the order of the source. The unit
has a prototype for it, under its name. Whenever a machine enters a closure of that prototype with arguments, the
body of the first clause starts that has as many parameters as there are arguments and whose parameters all accept
theirs; the frame then holds the arguments and the values inside them, and every variable of the clause is in the
slot that belongs to it. If no clause takes the arguments, the call fails, and the failure names the function and
the number of arguments. All of this unless the stack is too small. -/
theorem Program.calls_tryClauses {program : Program} (hfresh : program.IsFresh)
    (haccepted : program.analyze.diagnostics = []) {unit : CodeUnit}
    (hcompile : program.analyze.program.compile = .ok unit) {location : Location} {function : Function}
    (hfunction : (location, function) ∈ program.analyze.program.functions) :
    ∃ (table : GlobalTable) (script : Prototype) (chunk : Chunk) (prototype : Prototype),
      GlobalTable.ofStatements {} program.analyze.program.statements = .ok table ∧ unit.script = some script ∧
      script.chunk = some chunk ∧ chunk.Nests prototype ∧ prototype.name = function.displayName ∧
      ∀ (m start : Machine) (arguments : List Value), m.Enters prototype arguments start →
        start.TriesClauses table location prototype function.clauses arguments := by
  obtain ⟨table, script, chunk, htable, hscript, hchunk, hprovides⟩ := Program.compile_provides hcompile
  obtain ⟨prototype, hnests, hname, F, hcode⟩ := hprovides _ hfunction
  refine ⟨table, script, chunk, prototype, htable, hscript, hchunk, hnests, hname, fun m start arguments henters => ?_⟩
  refine PrototypeCode.triesClauses hcode ?_ (fun clause hclause => ?_) henters
  · rw [hname]
    exact function.isEmpty_displayName
  · exact (lexicallyResolved_analyze (.inl hfresh) haccepted).vars_distinct hfunction hclause

/-- A function with a clause for zero and one for a record and a summand. -/
def pickFunction : Function :=
  ⟨"pick", false,
    [⟨{}, [.literal {} (.scalar (.int 0))], [.giveBack {} (.literal {} (.scalar (.int 1)))]⟩,
      ⟨{}, [.destructure {} [("x", .bind {} "a" none)], .bind {} "b" none],
        [.giveBack {} (.binary {} .add (.name ⟨{}, "a", {}⟩) (.name ⟨{}, "b", {}⟩))]⟩]⟩

def pickProgram : Program := { statements := [.function {} pickFunction {}] }

/-- The unit of the program, and the functions in its script. -/
def pickUnit : CodeUnit :=
  pickProgram.analyze.program.compile.toOption.getD {}

def pickTable : List (Option Prototype) :=
  (pickUnit.script.bind (·.chunk)).elim [] (·.functions.toList)

/-- A machine with a closure of the function, a record and a number on its stack. -/
def aboutToPick : Machine :=
  { config := {}
    heap := ((Heap.ofConfig {}).link (.closure (pickTable.head?.join) #[])).link
      (.record { entries := [("x", .scalar (.int 7))] })
    stack := #[.ofRef 0, .ofRef 1, .scalar (.int 3)] }

/-- The second clause takes a record and a number. -/
theorem Program.calls_tryClauses_pickProgram : ∃ (made : Location × Function) (table : GlobalTable)
    (prototype : Prototype) (start : Machine),
    pickProgram.analyze.program.compile = .ok pickUnit ∧ made ∈ pickProgram.analyze.program.functions ∧
    aboutToPick.Enters prototype [.ofRef 1, .scalar (.int 3)] start ∧ prototype.name = "pick" ∧
    start.StartsBody table made.1 prototype made.2.clauses [.ofRef 1, .scalar (.int 3)] := by
  have hfresh : pickProgram.IsFresh := by
    unfold IsFresh Unresolved
    decide +kernel
  have haccepted : pickProgram.analyze.diagnostics = [] := by decide +kernel
  have hcompile : pickProgram.analyze.program.compile = .ok pickUnit := by
    have hsome : pickProgram.analyze.program.compile.toOption.isSome = true := by decide +kernel
    obtain ⟨unit, hunit⟩ := Option.isSome_iff_exists.mp hsome
    rw [pickUnit, hunit]
    exact except_of_toOption hunit
  have hfacts : pickProgram.analyze.program.functions.all (fun made => made.2.displayName == "pick" &&
      made.2.clauses.all fun clause => (parameterVariables clause.parameters).length ≤ 1) ∧
    pickProgram.analyze.program.functions.any (fun made => made.2.clauses.any fun clause =>
      (parameterBindings? aboutToPick.heap clause.parameters [.ofRef 1, .scalar (.int 3)]).isSome) := by decide +kernel
  have htable : pickTable.length = 1 ∧ pickTable.all (fun function => function.any fun prototype =>
      prototype.chunk.all (·.functions.isEmpty)) := by decide +kernel
  have hroom : ¬ aboutToPick.config.maxCallDepth.toNat ≤ aboutToPick.frames.size ∧
      ¬ aboutToPick.config.maxStackSize.toNat < (aboutToPick.stack.size - 2 +
        max 2 ((pickTable.head?.join.map (·.maxSlots)).getD 0)) % UInt64.size := by decide +kernel
  obtain ⟨hall, hany⟩ := hfacts
  obtain ⟨made, hmade, hany⟩ := List.any_eq_true.mp hany
  obtain ⟨hname, hsmall⟩ := Bool.and_eq_true_iff.mp (List.all_eq_true.mp hall made hmade)
  obtain ⟨table, script, chunk, prototype, -, hscript, hchunk, hnests, hprototype, hcalls⟩ :=
    @Program.calls_tryClauses _ hfresh haccepted _ hcompile made.1 made.2 hmade
  have hfunctions : chunk.functions.toList = pickTable := by
    simp only [pickTable, hscript, Option.bind_some, hchunk, Option.elim_some]
  have hown : pickTable.head?.join = some prototype := by
    obtain ⟨function, hsingle⟩ := List.length_eq_one_iff.mp htable.1
    cases hnests with
    | here hmem =>
      rw [← Array.mem_toList_iff, hfunctions, hsingle, List.mem_singleton] at hmem
      rw [hsingle, ← hmem]
      rfl
    | inside hmem hinner hdeeper =>
      rw [← Array.mem_toList_iff, hfunctions] at hmem
      have hempty := List.all_eq_true.mp htable.2 _ hmem
      rw [Option.any_some, hinner, Option.all_some] at hempty
      have hempty := Array.isEmpty_iff.mp hempty
      cases hdeeper <;> simp_all
  let start := Exec.entered aboutToPick 0 (some prototype) 2
  have hclosure : aboutToPick.heap.get? 0 = some (.closure (some prototype) #[]) := by
    rw [← hown]
    rfl
  have henters : aboutToPick.Enters prototype [.ofRef 1, .scalar (.int 3)] start := by
    refine ⟨((Heap.sound_ofConfig {}).idle.link _).link _, rfl, ⟨[.ofRef 0], rfl⟩, 0, #[], hclosure, ?_⟩
    rw [hown] at hroom
    exact (Exec.callValue_closure hclosure 2).trans ((if_neg hroom.1).trans (if_neg hroom.2))
  refine ⟨made, table, prototype, start, hcompile, hmade, henters, hprototype.trans (by simpa using hname), ?_⟩
  rcases hcalls _ _ _ henters with hstarts | ⟨hrefused, -⟩ | ⟨-, -, -, -, -, clause, hclause, hfull, -⟩
  · exact hstarts
  · obtain ⟨clause, hclause, htakes⟩ := List.any_eq_true.mp hany
    have hnone := hrefused clause hclause
    rw [show start.heap = aboutToPick.heap from rfl] at hnone
    rw [hnone] at htakes
    cases htakes
  · have hfew := List.all_eq_true.mp hsmall clause hclause
    have hfew : (parameterVariables clause.parameters).length ≤ 1 := by simpa using hfew
    change 65536 < 3 + _ at hfull
    omega

end OwnScript
