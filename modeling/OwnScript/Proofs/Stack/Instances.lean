import OwnScript.Proofs.Host.Accounting
import OwnScript.Proofs.Machine.Cells
import OwnScript.Proofs.Stack.Programs

/-!
Variables and their cells. Whatever comes onto the stack is an instance of its own, which lasts until it
leaves the stack again; a slot that is used once more holds another one. While a cell is open, the instance
that it was made for is in its slot, and a cell is closed before its instance leaves.
-/

namespace OwnScript

open Stateful

/-- The instances on the stack, one for each slot, and those that cells belong to. -/
structure Instances where
  onStack : List Nat
  /-- The next instance that comes onto the stack. -/
  next : Nat
  /-- The instance that a cell was made for. -/
  owner : Ref → Option Nat

namespace Instances

/-- The instances on a stack of which nothing is captured. -/
def ofHeight (height : Nat) : Instances :=
  { onStack := List.range height, next := height, owner := fun _ => none }

/-- The instances that an instruction leaves alone. -/
def kept (instances : Instances) (m after : Machine) : List Nat :=
  instances.onStack.take (min m.lowWater after.stack.size)

/-- The instances on the stack once an instruction is completed: what it has put there is new. -/
def stackAfter (instances : Instances) (m after : Machine) : List Nat :=
  instances.kept m after ++
    List.range' instances.next (after.stack.size - (instances.kept m after).length)

/-- The instances once an instruction is completed. A cell that it has opened belongs for good to the
instance in its slot. -/
def completed (instances : Instances) (m after : Machine) : Instances where
  onStack := instances.stackAfter m after
  next := instances.next + (after.stack.size - (instances.kept m after).length)
  owner cell := (instances.owner cell).or
    ((after.openCells.find? (·.cell == cell)).bind fun entry => (instances.stackAfter m after)[entry.slot]?)

variable {instances : Instances} {m after : Machine}

theorem length_stackAfter : (instances.stackAfter m after).length = after.stack.size := by
  have hkept : (instances.kept m after).length ≤ after.stack.size := by
    simp only [kept, List.length_take]
    omega
  simp only [stackAfter, List.length_append, List.length_range']
  omega

/-- Slots below the low water of an instruction keep their instances. -/
theorem stackAfter_of_lt {slot : Nat} (hlow : slot < m.lowWater) (hinside : slot < after.stack.size)
    (hslot : slot < instances.onStack.length) :
    (instances.stackAfter m after)[slot]? = instances.onStack[slot]? := by
  have hkept : slot < (instances.kept m after).length := by
    simp only [kept, List.length_take]
    omega
  rw [stackAfter, List.getElem?_append_left hkept, kept, List.getElem?_take_of_lt (by omega)]

theorem mem_stackAfter {occupant : Nat} (hmem : occupant ∈ instances.stackAfter m after) :
    occupant ∈ instances.onStack ∨ instances.next ≤ occupant ∧
      occupant < instances.next + (after.stack.size - (instances.kept m after).length) := by
  rcases List.mem_append.mp hmem with hkept | hnew
  · exact .inl (List.mem_of_mem_take hkept)
  · exact .inr (List.mem_range'_1.mp hnew)

theorem nodup_stackAfter (hnodup : instances.onStack.Nodup)
    (hold : ∀ occupant ∈ instances.onStack, occupant < instances.next) :
    (instances.stackAfter m after).Nodup := by
  refine List.nodup_append.mpr ⟨hnodup.sublist (List.take_sublist _ _), List.nodup_range', ?_⟩
  rintro first hfirst second hsecond rfl
  have hbelow := hold first (List.mem_of_mem_take hfirst)
  have habove := (List.mem_range'_1.mp hsecond).1
  omega

/-- A cell that is open when an instruction is completed belongs to the instance that it belonged to before, or
else to the one in its slot. -/
theorem owner_completed (hopen : Machine.OpenCellsSound after.heap after.openCells) {entry : OpenCell}
    (hentry : entry ∈ after.openCells) :
    (instances.completed m after).owner entry.cell =
      (instances.owner entry.cell).or (instances.stackAfter m after)[entry.slot]? := by
  obtain ⟨found, hfound⟩ : ∃ found, after.openCells.find? (·.cell == entry.cell) = some found :=
    Option.isSome_iff_exists.mp (List.find?_isSome.mpr ⟨entry, hentry, by simp⟩)
  have hcell : found.cell = entry.cell := by simpa using List.find?_some hfound
  have hslot : found.slot = entry.slot := by
    have hfirst := hopen.opened found (List.mem_of_find?_eq_some hfound)
    rw [hcell, hopen.opened entry hentry] at hfirst
    simpa using hfirst.symm
  simp only [completed, hfound, Option.bind_some, hslot]

theorem owner_cases {cell : Ref} {occupant : Nat}
    (howner : (instances.completed m after).owner cell = some occupant) :
    instances.owner cell = some occupant ∨ ∃ entry ∈ after.openCells, entry.cell = cell := by
  rcases Option.or_eq_some_iff.mp howner with hold | ⟨-, hnew⟩
  · exact .inl hold
  · obtain ⟨entry, hfound, -⟩ := Option.bind_eq_some_iff.mp hnew
    exact .inr ⟨entry, List.mem_of_find?_eq_some hfound, by simpa using List.find?_some hfound⟩

end Instances

/-- A machine at an instruction boundary, with the instances on its stack. -/
structure Watched where
  machine : Machine
  /-- Whether the last instruction gave up and will be tried again. -/
  retried : Bool
  instances : Instances

namespace Watched

open Machine Exec

/-- A machine whose run starts. -/
def ofStart (start : Machine) : Watched :=
  ⟨start, false, .ofHeight start.stack.size⟩

/-- One turn of a run: an instruction gives up and leaves the stack as it is, or it is completed. -/
inductive Step (w : Watched) : Watched → Prop where
  | gaveUp {after : Machine} : w.machine.halted = false → turn w.retried w.machine = .ok true after →
      Step w ⟨after, true, w.instances⟩
  | completed {after : Machine} : w.machine.halted = false → turn w.retried w.machine = .ok false after →
      Step w ⟨after, false, w.instances.completed w.machine.safepoint after⟩

/-- Any number of turns. -/
abbrev Runs : Watched → Watched → Prop :=
  Relation.ReflTransGen Step

/-- The instances are those on the stack, and every open cell stands for the one that it was made for. -/
structure CellsInPlace (w : Watched) : Prop where
  onStack : w.instances.onStack.length = w.machine.stack.size
  distinct : w.instances.onStack.Nodup
  owned : w.retried = false → ∀ entry ∈ w.machine.openCells, entry.slot < w.machine.stack.size ∧
    ∃ occupant, w.instances.onStack[entry.slot]? = some occupant ∧ w.instances.owner entry.cell = some occupant

/-- What holds at every boundary, also in front of an instruction that has given up: then its new cells
belong to no instance yet. -/
structure Consistent (globals : GlobalTable) (statements : List Stmt) (w : Watched) : Prop where
  underway : w.machine.Underway globals statements
  orderly : w.machine.Orderly
  length : w.instances.onStack.length = w.machine.stack.size
  nodup : w.instances.onStack.Nodup
  fresh : ∀ occupant ∈ w.instances.onStack, occupant < w.instances.next
  made : ∀ cell occupant, w.instances.owner cell = some occupant → cell < w.machine.heap.nextRef
  owned : ∀ entry ∈ w.machine.openCells, ∀ occupant, w.instances.owner entry.cell = some occupant →
    w.instances.onStack[entry.slot]? = some occupant
  complete : w.retried = false → ∀ entry ∈ w.machine.openCells,
    ∃ occupant, w.instances.owner entry.cell = some occupant

variable {globals : GlobalTable} {statements : List Stmt} {w later : Watched}

theorem Consistent.cellsInPlace (hconsistent : w.Consistent globals statements) : w.CellsInPlace := by
  refine ⟨hconsistent.length, hconsistent.nodup, fun hdone entry hentry => ?_⟩
  obtain ⟨occupant, howner⟩ := hconsistent.complete hdone entry hentry
  have hslot := hconsistent.owned entry hentry occupant howner
  have hinside := (List.getElem?_eq_some_iff.mp hslot).1
  exact ⟨hconsistent.length ▸ hinside, occupant, hslot, howner⟩

theorem consistent_ofStart {start : Machine} (hunderway : start.Underway globals statements)
    (horderly : start.Orderly) (hcells : start.openCells = []) :
    (ofStart start).Consistent globals statements where
  underway := hunderway
  orderly := horderly
  length := List.length_range
  nodup := List.nodup_range
  fresh _ hmem := List.mem_range.mp hmem
  made _ _ howner := by cases howner
  owned _ _ _ howner := by cases howner
  complete _ entry hentry := by
    change entry ∈ start.openCells at hentry
    rw [hcells] at hentry
    cases hentry

theorem made_of_relists {m after : Machine} (hrelists : Relists m after) {entry : OpenCell}
    (hentry : entry ∈ after.openCells) (hmade : entry.cell < m.heap.nextRef) : entry ∈ m.openCells :=
  (hrelists.entered entry hentry).resolve_right (Nat.not_le.mpr hmade)

/-- A collection changes neither the stack nor the list of open cells nor what the next reference is. -/
theorem relists_safepoint {m : Machine} (horderly : m.Orderly) :
    m.safepoint.stack = m.stack ∧ m.safepoint.openCells = m.openCells ∧
      m.safepoint.heap.nextRef = m.heap.nextRef := by
  obtain ⟨trace, hcollected | hsame⟩ := m.safepoint_cases
  · rw [hcollected]
    exact ⟨rfl, rfl, (Heap.collect_spec horderly.heap.idle m.roots).nextRef⟩
  · rw [hsame]
    exact ⟨rfl, rfl, rfl⟩

/-- An instruction that gives up leaves the stack as it was. It may have made cells. -/
theorem gaveUp_cases {m after : Machine} {retried : Bool} (hsound : m.Sound) (horderly : m.Orderly)
    (hturn : turn retried m = .ok true after) :
    after.stack = m.stack ∧ after.openCells = (stateAfter (dispatch m.safepoint)).openCells ∧
      after.heap.nextRef = (stateAfter (dispatch m.safepoint)).heap.nextRef := by
  have hlasts := enduring_orderly {}
  have hdispatched := hlasts.good_dispatch ⟨horderly, trivial⟩ (furnished_anything m)
  unfold turn at hturn
  cases hresult : dispatch m.safepoint with
  | ok value last =>
    rw [hresult] at hturn
    cases hturn
  | error fault last =>
    rw [hresult] at hturn hdispatched
    cases fault with
    | exhausted request =>
      obtain ⟨need, hresidue⟩ := residue_of_full hsound.safepoint hresult
      have hstack := congrArg Machine.stack hresidue.rest
      dsimp only at hstack hturn
      split at hturn
      · cases hturn
      · cases hturn
        have hidle : last.heap.Idle := hdispatched.orderly.heap.idle
        have hcollected := Heap.collect_spec hidle (Machine.roots { last with ip := last.instructionStart })
        exact ⟨hstack.trans (relists_safepoint horderly).1, rfl, hcollected.nextRef⟩
    | failure diagnostic => cases hturn
    | stray => cases hturn
    | outOfFuel => cases hturn

/-- Where an instruction wants slots to be captured, it takes nothing from the stack. -/
theorem lowWater_of_wanted {m : Machine} {slot : Nat} (hwanted : slot ∈ m.wanted) :
    m.stack.size ≤ m.lowWater := by
  unfold wanted at hwanted
  split at hwanted
  · rename_i a b hinstruction
    unfold lowWater
    rw [hinstruction]
    cases m.chunk with
    | none => exact le_rfl
    | some chunk => exact le_rfl
  · cases hwanted

/-- The instances after a turn. -/
theorem Consistent.step (hconsistent : w.Consistent globals statements) (hstep : w.Step later) :
    later.Consistent globals statements := by
  obtain ⟨m, retried, instances⟩ := w
  obtain ⟨hunderway, horderly, hlength, hnodup, hfresh, hmade, howned, -⟩ := hconsistent
  obtain ⟨hstack, hcells, hnext⟩ := relists_safepoint horderly
  have hlasts := enduring_orderly {}
  have hready : m.safepoint.Orderly := (hlasts.good_safepoint ⟨horderly, trivial⟩).orderly
  have hturned := (hlasts.good_turn ⟨horderly, trivial⟩ (furnished_anything m) retried).orderly
  have hrelists := relists_dispatch hready
  dsimp only at *
  cases hstep with
  | @gaveUp after hrunning hturn =>
    obtain ⟨hunder, -⟩ := (underway_turn hunderway hrunning retried).1 _ _ hturn
    obtain ⟨hsame, hlisted, hlast⟩ := gaveUp_cases hunderway.sound horderly hturn
    rw [hturn] at hturned
    refine ⟨hunder, hturned, ?_, hnodup, hfresh, fun cell occupant howner => ?_,
      fun entry hentry occupant howner => ?_, fun h => by cases h⟩
    · exact hlength.trans (congrArg Array.size hsame.symm)
    · have hbefore := hmade cell occupant howner
      have hgrows := hrelists.nextRef
      rw [← hlast, hnext] at hgrows
      exact hbefore.trans_le hgrows
    · -- A cell that belongs to an instance is older than the attempt.
      refine howned entry ?_ occupant howner
      rw [← hcells]
      refine made_of_relists hrelists (hlisted ▸ hentry) ?_
      rw [hnext]
      exact hmade _ _ howner
  | @completed after hrunning hturn =>
    obtain ⟨hunder, hadvances⟩ := (underway_turn hunderway hrunning retried).1 _ _ hturn
    have hdispatch := dispatch_of_completed hturn
    have hadvances := hadvances rfl
    rw [hdispatch] at hrelists
    rw [hturn] at hturned
    have hopen : OpenCellsSound after.heap after.openCells := by
      obtain ⟨ρ, hcorr⟩ := hunder.sound
      exact hcorr.leftOpen
    have hinside (entry : OpenCell) (hentry : entry ∈ after.openCells) : entry.slot < after.stack.size :=
      hadvances.inside _ (mem_openSlots.mpr ⟨entry, hentry, rfl⟩)
    refine ⟨hunder, hturned, Instances.length_stackAfter, Instances.nodup_stackAfter hnodup hfresh,
      fun occupant hmem => ?_, fun cell occupant howner => ?_, fun entry hentry occupant howner => ?_,
      fun _ entry hentry => ?_⟩
    · change occupant < instances.next + _
      rcases Instances.mem_stackAfter hmem with hold | hnew
      · exact (hfresh occupant hold).trans_le (Nat.le_add_right _ _)
      · exact hnew.2
    · rcases Instances.owner_cases howner with hold | ⟨entry, hentry, rfl⟩
      · have hgrows : m.safepoint.heap.nextRef ≤ after.heap.nextRef := hrelists.nextRef
        exact (hmade cell occupant hold).trans_le (hnext ▸ hgrows)
      · exact hturned.heap.bounded _ _ (hopen.opened entry hentry)
    · rw [Instances.owner_completed hopen hentry] at howner
      cases hold : instances.owner entry.cell with
      | none =>
        rw [hold] at howner
        exact howner
      | some owner =>
        rw [hold] at howner
        obtain rfl : owner = occupant := by simpa using howner
        -- The cell was there before, and the instruction has not touched its slot.
        have hbefore : entry ∈ m.safepoint.openCells :=
          made_of_relists hrelists hentry (hnext ▸ hmade _ _ hold)
        have hslot := howned entry (hcells ▸ hbefore) owner hold
        have hheight : entry.slot < instances.onStack.length := (List.getElem?_eq_some_iff.mp hslot).1
        have hlow : entry.slot < m.safepoint.lowWater := by
          rcases hadvances.kept entry.slot (mem_openSlots.mpr ⟨entry, hentry, rfl⟩)
            (mem_openSlots.mpr ⟨entry, hbefore, rfl⟩) with hlow | hwanted
          · exact hlow
          · have hall := lowWater_of_wanted hwanted
            rw [hstack] at hall
            omega
        exact (Instances.stackAfter_of_lt hlow (hinside entry hentry) hheight).trans hslot
    · change ∃ occupant, (instances.completed m.safepoint after).owner entry.cell = some occupant
      rw [Instances.owner_completed hopen hentry]
      cases instances.owner entry.cell with
      | some owner => exact ⟨owner, rfl⟩
      | none =>
        have hheight : entry.slot < (instances.stackAfter m.safepoint after).length := by
          rw [Instances.length_stackAfter]
          exact hinside entry hentry
        exact ⟨_, List.getElem?_eq_getElem hheight⟩

theorem Consistent.runs (hconsistent : w.Consistent globals statements) (hruns : w.Runs later) :
    later.Consistent globals statements := by
  induction hruns with
  | refl => exact hconsistent
  | tail _ hstep ih => exact ih.step hstep

/-- An instance owns its cells for good. -/
theorem owner_of_runs (hruns : w.Runs later) {cell : Ref} {occupant : Nat}
    (howner : w.instances.owner cell = some occupant) : later.instances.owner cell = some occupant := by
  induction hruns with
  | refl => exact howner
  | tail _ hstep ih =>
    cases hstep with
    | gaveUp => exact ih
    | completed => exact Option.or_eq_some_iff.mpr (.inl ih)

/-- A cell whose slot an instruction takes from the stack is closed when the instruction is completed. -/
theorem Consistent.closed (hconsistent : w.Consistent globals statements) (hstep : w.Step later)
    (hdone : later.retried = false) {entry : OpenCell} (hentry : entry ∈ w.machine.openCells)
    (hgoes : w.machine.safepoint.lowWater ≤ entry.slot) (hinside : entry.slot < w.machine.stack.size) :
    later.machine.IsClosed entry.cell := by
  have horderly := hconsistent.orderly
  obtain ⟨hstack, hcells, -⟩ := relists_safepoint horderly
  have hready : w.machine.safepoint.Orderly :=
    ((enduring_orderly {}).good_safepoint ⟨horderly, trivial⟩).orderly
  have hrelists := relists_dispatch hready
  cases hstep with
  | gaveUp => cases hdone
  | @completed after hrunning hturn =>
    have hadvances := ((underway_turn hconsistent.underway hrunning w.retried).1 _ _ hturn).2 rfl
    rw [dispatch_of_completed hturn] at hrelists
    have hbefore : entry ∈ w.machine.safepoint.openCells := hcells ▸ hentry
    refine (hrelists.taken entry hbefore).resolve_left fun hstays => ?_
    rcases hadvances.kept entry.slot (mem_openSlots.mpr ⟨entry, hstays, rfl⟩)
      (mem_openSlots.mpr ⟨entry, hbefore, rfl⟩) with hlow | hwanted
    · omega
    · have hall := lowWater_of_wanted hwanted
      rw [hstack] at hall
      omega

/-- The machine after so many more turns, if the run goes on for as long. -/
def watch : Nat → Watched → Option Watched
  | 0, w => some w
  | turns + 1, w =>
    if w.machine.halted then none
    else
      match turn w.retried w.machine with
      | .ok true after => watch turns ⟨after, true, w.instances⟩
      | .ok false after => watch turns ⟨after, false, w.instances.completed w.machine.safepoint after⟩
      | .error _ _ => none

theorem runs_watch {turns : Nat} (hwatch : w.watch turns = some later) : w.Runs later := by
  induction turns generalizing w with
  | zero =>
    cases hwatch
    exact .refl
  | succ turns ih =>
    simp only [watch] at hwatch
    split at hwatch
    · cases hwatch
    · rename_i hrunning
      have hrunning : w.machine.halted = false := by simpa using hrunning
      split at hwatch
      · exact .head (.gaveUp hrunning (by assumption)) (ih hwatch)
      · exact .head (.completed hrunning (by assumption)) (ih hwatch)
      · cases hwatch

/-- The machine after so many turns of a script, if the script is entered and runs for as long. -/
def watchScript (unit : CodeUnit) (turns : Nat) (m : Machine) : Option Watched :=
  match enterScript unit m with
  | .ok () start => (ofStart start).watch turns
  | .error _ _ => none

theorem runs_watchScript {unit : CodeUnit} {turns : Nat} {m : Machine}
    (hwatch : watchScript unit turns m = some w) :
    ∃ start, enterScript unit m = .ok () start ∧ (ofStart start).Runs w := by
  unfold watchScript at hwatch
  split at hwatch
  · rename_i start hstart
    exact ⟨start, hstart, runs_watch hwatch⟩
  · cases hwatch

end Watched

namespace Exec

open Machine

variable {m start : Machine}

theorem openCells_enterScript {unit : CodeUnit} (hstart : enterScript unit m = .ok () start) :
    start.openCells = [] := by
  rw [enterScript_eq] at hstart
  cases hverified : unit.verify with
  | error diagnostic =>
    rw [hverified] at hstart
    cases hstart
  | ok value =>
    obtain ⟨heap, hrest⟩ := rest_allocateForHost (.unboundClosure unit.script) (m.prepared unit)
    rw [hverified] at hstart
    dsimp only at hstart
    rw [bind_apply] at hstart
    cases hresult : allocateForHost (.unboundClosure unit.script) (m.prepared unit) with
    | error fault after =>
      rw [hresult] at hstart
      cases hstart
    | ok script after =>
      rw [hresult] at hstart hrest
      have hcells : after.openCells = [] := by
        have hsame : after = { m.prepared unit with heap } := hrest
        rw [hsame]
        exact openCells_reset m
      dsimp only at hstart
      rcases startScript_cases unit script after with hstarted | hrefused
      · rw [hstarted] at hstart
        cases hstart
        exact hcells
      · rw [hrefused] at hstart
        cases hstart

/-- Pushing values and entering a closure makes no cells. -/
theorem openCells_beginCall {function : String} {callee : Value} {arguments : List Value}
    (horderly : m.Orderly) (hcells : m.openCells = [])
    (hstart : beginCall function callee arguments m = .ok () start) : start.openCells = [] := by
  have hheap := heap_callFromHost callee arguments m
  have hchanges : Changes (fun _ => True) m (stateAfter ((push callee >>= fun _ => pushAll arguments >>= fun _ =>
      callValue callee arguments.length) m)) := changes_callFromHost callee arguments
  simp only [beginCall] at hstart
  cases hresult : (push callee >>= fun _ => pushAll arguments >>= fun _ =>
      callValue callee arguments.length) m with
  | ok value after =>
    rw [hresult] at hstart hheap hchanges
    cases hstart
    have hrelists := hchanges.relists horderly
    refine List.eq_nil_iff_forall_not_mem.mpr fun entry hentry => ?_
    rcases hrelists.entered entry hentry with hold | hnew
    · rw [hcells] at hold
      cases hold
    · obtain ⟨state, hstate⟩ := (hchanges.tended horderly).orderly.cells entry hentry
      have hbound := (hchanges.tended horderly).orderly.heap.bounded _ _ hstate
      change entry.cell < start.heap.nextRef at hbound
      have hsame : start.heap = m.heap := hheap
      rw [hsame] at hbound
      exact absurd hbound (Nat.not_lt.mpr hnew)
  | error fault after =>
    rw [hresult] at hstart
    cases fault with
    | failure diagnostic => cases hstart
    | exhausted request => cases hstart
    | stray => cases hstart
    | outOfFuel => cases hstart

theorem openCells_enterFunction {function : String} {arguments : List Value} (horderly : m.Orderly)
    (hstart : enterFunction function arguments m = .ok () start) : start.openCells = [] := by
  simp only [enterFunction] at hstart
  rw [get_bind_apply] at hstart
  cases hentry : m.unit.entryPoints[function]? with
  | none =>
    rw [hentry] at hstart
    cases hstart
  | some slot =>
    rw [hentry] at hstart
    dsimp only at hstart
    cases hglobal : (m.globals[slot]?).join with
    | none =>
      rw [hglobal] at hstart
      cases hstart
    | some callee =>
      rw [hglobal] at hstart
      dsimp only at hstart
      split at hstart
      · cases hstart
      · have hreset : m.reset.Orderly := ((enduring_orderly {}).good_reset ⟨horderly, trivial⟩).orderly
        have hcleared : Orderly { m.reset with hostValues := [] } := hreset.of_eq rfl rfl
        exact openCells_beginCall hcleared (openCells_reset m) hstart

/-- Nothing is captured when a run starts. -/
theorem Begins.openCells {request : HostRequest} (hbegins : Begins request m start) (horderly : m.Orderly) :
    start.openCells = [] := by
  induction hbegins with
  | script hstart => exact openCells_enterScript hstart
  | @function _ arguments m start hstart =>
    have hpinned : Orderly { m with pinned := m.pinned ++ arguments } := horderly.of_eq rfl rfl
    exact openCells_enterFunction hpinned hstart
  | runScript _ ih => exact ih (horderly.of_eq rfl rfl)
  | @runFunction unit entry arguments m loaded start fuel value hload _ _ ih =>
    have hpinned : Orderly { m with pinned := m.pinned ++ arguments } := horderly.of_eq rfl rfl
    have hloaded : Good (fun _ => True) (stateAfter (load fuel unit { m with pinned := m.pinned ++ arguments })) :=
      (enduring_orderly {}).good_load ⟨hpinned, trivial⟩ (fun after _ => furnished_anything after)
        (fun _ _ _ => trivial) fuel
    rw [hload] at hloaded
    exact ih hloaded.orderly

end Exec

namespace Program

open Machine Watched

variable {program : Program} {unit : CodeUnit}

/-- No captured variable leaves the stack without its cell being closed. Whatever the settings, the entry
function and its arguments, in a run of a well-shaped program that was accepted and compiled, the instance
that an open cell was made for is in the slot of the cell whenever an instruction is completed. A cell is
closed by the instruction that takes its instance from the stack, and belongs to one instance for good. -/
theorem run_cellsInPlace (hshape : program.wellShaped = true)
    (hcompile : program.analyze.program.compile = .ok unit) (hverified : unit.verify = .ok ()) (config : Config)
    (entry : String) (arguments : List Scalar) {start : Machine}
    (hbegins : Exec.Begins (.run unit entry (arguments.map .scalar)) (.ofConfig config) start) {w : Watched}
    (hruns : (ofStart start).Runs w) :
    w.CellsInPlace ∧
      (∀ later, w.Step later → later.retried = false → ∀ cell ∈ w.machine.openCells,
        w.machine.safepoint.lowWater ≤ cell.slot → cell.slot < w.machine.stack.size →
        later.machine.IsClosed cell.cell) ∧
      ∀ later, w.Runs later → ∀ cell occupant, w.instances.owner cell = some occupant →
        later.instances.owner cell = some occupant := by
  rw [← wellShaped_analyze] at hshape
  obtain ⟨table, script, F, htable, hscript, -, -, hcode⟩ := compile_layout (fun _ : True => hshape) hcompile
  have hscalars (value : Value) (hvalue : value ∈ arguments.map Value.scalar) : ∃ scalar, value = .scalar scalar := by
    obtain ⟨scalar, -, rfl⟩ := List.mem_map.mp hvalue
    exact ⟨scalar, rfl⟩
  have hsound := (sound_ofConfig config).pin (Exec.accepts_scalars (.ofConfig config) arguments)
  have hunderway := Exec.passes_underway hverified hscript hcode hscalars hsound
    ((Exec.lasting_onCourse hverified).fresh config) (Exec.supplies_ofConfig config) hbegins.passes
  have horderly := orderly_ofConfig config
  have hstart := consistent_ofStart hunderway (hbegins.passes.orderly horderly) (hbegins.openCells horderly)
  have hconsistent := hstart.runs hruns
  exact ⟨hconsistent.cellsInPlace, fun later hstep hdone cell hcell => hconsistent.closed hstep hdone hcell,
    fun later hlater cell occupant => owner_of_runs hlater⟩

/-- Two blocks one after the other, each with a variable that a function inside reads. -/
def twoCounters : Program :=
  { statements := counterInBlock.statements ++ counterInBlock.statements }

/-- The variables of the two blocks use one slot. They are different instances, with a cell each. -/
theorem run_cellsInPlace_twoCounters : twoCounters.wellShaped = true ∧
    ∃ unit start first second, twoCounters.analyze.program.compile = .ok unit ∧
      Exec.Begins (.run unit "" []) (.ofConfig {}) start ∧ (ofStart start).Runs first ∧ first.Runs second ∧
      first.machine.openCells = [⟨1, 2⟩] ∧ first.instances.onStack = [0, 1] ∧ first.CellsInPlace ∧
      second.machine.openCells = [⟨1, 4⟩] ∧ second.instances.onStack = [0, 7, 8] ∧ second.CellsInPlace ∧
      second.instances.owner 2 = some 1 := by
  have hshape : twoCounters.wellShaped = true := by decide +kernel
  have hrun : (twoCounters.analyze.program.compile.toOption.bind fun unit =>
      if unit.verify.toOption = some () then
        (watchScript unit 11 { Machine.ofConfig {} with pinned := [] ++ [] }).bind fun first =>
          (first.watch 3).map fun second =>
            (first.machine.openCells, first.instances.onStack, first.instances.owner 2,
              second.machine.openCells, second.instances.onStack)
      else none) = some ([⟨1, 2⟩], [0, 1], some 1, [⟨1, 4⟩], [0, 7, 8]) := by decide +kernel
  obtain ⟨unit, hunit, hrun⟩ := Option.bind_eq_some_iff.mp hrun
  split at hrun
  · rename_i hok
    obtain ⟨first, hfirst, hrun⟩ := Option.bind_eq_some_iff.mp hrun
    obtain ⟨second, hsecond, hfacts⟩ := Option.map_eq_some_iff.mp hrun
    simp only [Prod.mk.injEq] at hfacts
    obtain ⟨hcells, hstack, howner, hlaterCells, hlaterStack⟩ := hfacts
    obtain ⟨start, hstart, hruns⟩ := runs_watchScript hfirst
    have hon := runs_watch hsecond
    have hcompile := except_of_toOption hunit
    have hbegins : Exec.Begins (.run unit "" (List.map Value.scalar [])) (.ofConfig {}) start :=
      .runScript (.script hstart)
    have hplace := @run_cellsInPlace twoCounters unit hshape hcompile (except_of_toOption hok) {} "" [] start hbegins
    obtain ⟨hinPlace, -, hfor⟩ := hplace hruns
    exact ⟨hshape, unit, start, first, second, hcompile, hbegins, hruns, hon, hcells, hstack, hinPlace, hlaterCells,
      hlaterStack, (hplace (hruns.trans hon)).1, hfor second hon 2 1 howner⟩
  · cases hrun

end Program

end OwnScript
