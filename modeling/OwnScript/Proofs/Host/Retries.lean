import OwnScript.Proofs.Heap.Survival
import OwnScript.Proofs.Host.Schedules

/-!
Instructions that run twice. One that finds the heap full has changed nothing that the program can see: it
leaves garbage, and cells for some of the slots that it was about to capture. After a collection it runs again
from where it stood, and if the heap is full once more the program is out of memory. Main statement: this holds
at every instruction boundary that a machine passes while it serves a host.
-/

namespace OwnScript

open Stateful

theorem sublist_insertCell (new : OpenCell) (cells : List OpenCell) :
    cells.Sublist (Exec.insertCell new cells) := by
  induction cells with
  | nil => exact List.nil_sublist _
  | cons first rest ih =>
    simp only [Exec.insertCell]
    split
    · exact ih.cons_cons first
    · exact List.sublist_cons_self new _

namespace Machine

/-- A machine to which only garbage was added, and cells for slots among some: all else is as it was, the
objects on the heap with what is accounted for them included. -/
structure Littered (slots : List Nat) (m after : Machine) : Prop where
  rest : after = { m with heap := after.heap, openCells := after.openCells }
  config : after.heap.config = m.heap.config
  kept : ∀ (ref : Ref) (cell : Cell), m.heap.cells[ref]? = some cell → after.heap.cells[ref]? = some cell
  new : ∀ ref object, ref ∉ m.heap.refs → after.heap.get? ref = some object → object.references = []
  listed : m.openCells.Sublist after.openCells
  opened : ∀ entry ∈ after.openCells, entry ∉ m.openCells →
    entry.slot ∈ slots ∧ entry.cell ∉ m.heap.refs ∧
      after.heap.get? entry.cell = some (.upvalue (.opened entry.slot))

/-- A machine that gave up an instruction for want of storage. Apart from the offset that it has read to, it
is littered: the instruction wanted to capture the slots of the new cells, the open cells are still listed from
the highest slot down and each slot once, and nothing that was there before refers to a new object. -/
structure Aborted (m after : Machine) : Prop
    extends Littered m.wanted m { after with ip := m.ip } where
  descending : after.openCells.Pairwise fun first second => second.slot < first.slot
  unreferenced : ∀ ref ∈ after.heap.refs, ref ∉ m.heap.refs →
    (∀ value ∈ m.roots, value.ref? ≠ some ref) ∧
      ∀ other object, m.heap.get? other = some object → ref ∉ object.references

/-- A machine that stands before an instruction for the second time, after a collection: it differs from the
first time in garbage and in cells that the instruction wanted and made. -/
structure StandsAgain (m next : Machine) : Prop where
  rest : next = { m with heap := next.heap, openCells := next.openCells }
  reached : ∀ ref : Ref, m.heap.Reachable m.roots ref → next.heap.cells[ref]? = m.heap.cells[ref]?
  listed : m.openCells.Sublist next.openCells
  opened : ∀ entry ∈ next.openCells, entry ∉ m.openCells →
    entry.slot ∈ m.wanted ∧ entry.cell ∉ m.heap.refs ∧
      next.heap.get? entry.cell = some (.upvalue (.opened entry.slot))
  descending : next.openCells.Pairwise fun first second => second.slot < first.slot

namespace Littered

variable {slots more : List Nat} {m middle after : Machine}

theorem refs_subset (hlitter : Littered slots m after) {ref : Ref} (href : ref ∈ m.heap.refs) :
    ref ∈ after.heap.refs := by
  obtain ⟨object, hobject⟩ := Heap.mem_refs.mp href
  obtain ⟨cell, hcell, -⟩ := Option.map_eq_some_iff.mp hobject
  exact Heap.mem_refs_of_cell (hlitter.kept ref cell hcell)

theorem get? (hlitter : Littered slots m after) {ref : Ref} {object : Object}
    (hobject : m.heap.get? ref = some object) : after.heap.get? ref = some object := by
  obtain ⟨cell, hcell, rfl⟩ := Option.map_eq_some_iff.mp hobject
  rw [Heap.get?, hlitter.kept ref cell hcell, Option.map_some]

theorem trans (hfirst : Littered slots m middle) (hsecond : Littered slots middle after) :
    Littered slots m after where
  rest := by
    rw [hsecond.rest, hfirst.rest]
  config := hsecond.config.trans hfirst.config
  kept ref cell hcell := hsecond.kept ref cell (hfirst.kept ref cell hcell)
  new ref object hnew hobject := by
    by_cases hmiddle : ref ∈ middle.heap.refs
    · obtain ⟨earlier, hearlier⟩ := Heap.mem_refs.mp hmiddle
      obtain rfl := Option.some.inj ((hsecond.get? hearlier).symm.trans hobject)
      exact hfirst.new ref earlier hnew hearlier
    · exact hsecond.new ref object hmiddle hobject
  listed := hfirst.listed.trans hsecond.listed
  opened entry hentry hnew := by
    by_cases hmiddle : entry ∈ middle.openCells
    · obtain ⟨hslot, hcell, hobject⟩ := hfirst.opened entry hmiddle hnew
      exact ⟨hslot, hcell, hsecond.get? hobject⟩
    · obtain ⟨hslot, hcell, hobject⟩ := hsecond.opened entry hentry hmiddle
      exact ⟨hslot, mt hfirst.refs_subset hcell, hobject⟩

theorem of_gaveUp (hgave : m.GaveUp after) : Littered slots m after where
  rest := by
    rw [hgave.rest]
  config := hgave.heap.config
  kept ref cell hcell := by rwa [hgave.heap.cells]
  new ref object hnew hobject := by
    rw [hgave.heap.get?] at hobject
    exact absurd (Heap.mem_refs.mpr ⟨object, hobject⟩) hnew
  listed := by
    rw [hgave.rest]
  opened entry hentry hnew := by
    rw [hgave.rest] at hentry
    exact absurd hentry hnew

theorem withIp (hlitter : Littered slots m after) (ip : Nat) :
    Littered slots { m with ip } { after with ip } where
  rest := congrArg (fun state : Machine => { state with ip }) hlitter.rest
  config := hlitter.config
  kept := hlitter.kept
  new := hlitter.new
  listed := hlitter.listed
  opened := hlitter.opened

/-- A new object that refers to nothing, with an entry for it if it is a cell. -/
theorem of_link {parked : Heap} (hbounded : m.heap.Bounded) (halike : Heap.Alike m.heap parked)
    {object : Object} (hrefs : object.references = []) {openCells : List OpenCell}
    (hlisted : m.openCells.Sublist openCells)
    (hopened : ∀ entry ∈ openCells, entry ∉ m.openCells →
      entry.slot ∈ slots ∧ entry.cell = m.heap.nextRef ∧ object = .upvalue (.opened entry.slot)) :
    Littered slots m { m with heap := parked.link object, openCells } where
  rest := rfl
  config := halike.config
  kept ref cell hcell := by
    have hne : ref ≠ m.heap.nextRef := by
      refine Nat.ne_of_lt (hbounded ref cell.object ?_)
      rw [Heap.get?, hcell, Option.map_some]
    simp only [Heap.link, Heap.getElem?_insert_ref, halike.nextRef, if_neg hne, halike.cells, hcell]
  new ref found hnew hfound := by
    simp only [Heap.get?_link, halike.nextRef, halike.get?] at hfound
    split at hfound
    · exact Option.some.inj hfound ▸ hrefs
    · exact absurd (Heap.mem_refs.mpr ⟨found, hfound⟩) hnew
  listed := hlisted
  opened entry hentry hnew := by
    obtain ⟨hslot, hcell, rfl⟩ := hopened entry hentry hnew
    refine ⟨hslot, fun hold => ?_, ?_⟩
    · obtain ⟨object, hobject⟩ := Heap.mem_refs.mp hold
      exact absurd (hcell ▸ hbounded _ _ hobject) (lt_irrefl _)
    · simp only [Heap.get?_link, halike.nextRef, hcell, if_true]

theorem of_captures (hcaptures : Captures m slots after) (hsound : m.heap.Sound)
    (hwithin : ∀ slot ∈ slots, slot ∈ more) : Littered more m after := by
  induction hcaptures with
  | done m => exact of_gaveUp ⟨rfl, .refl _⟩
  | shared _ _ ih => exact ih hsound fun slot hslot => hwithin slot (List.mem_cons_of_mem _ hslot)
  | @opened m after slot rest parked _ halike _ _ ih =>
    have hfirst : Littered more m (m.capturing parked slot) := by
      refine of_link hsound.bounded halike rfl (sublist_insertCell _ _) fun entry hentry hnew => ?_
      obtain rfl := (mem_insertCell.mp hentry).resolve_right hnew
      exact ⟨hwithin slot (List.mem_cons_self ..), rfl, rfl⟩
    have hlinked : (m.capturing parked slot).heap.Sound :=
      (hsound.of_alike halike).link (by simp [Object.references])
    exact hfirst.trans (ih hlinked fun slot hslot => hwithin slot (List.mem_cons_of_mem _ hslot))

/-- What the roots led to they still lead to. -/
theorem reachable (hlitter : Littered slots m after) {ref : Ref}
    (hreach : m.heap.Reachable m.roots ref) : after.heap.Reachable after.roots ref := by
  induction hreach with
  | @root value ref hvalue href =>
    refine .root ?_ href
    rw [hlitter.rest]
    rw [mem_roots_iff] at hvalue ⊢
    -- only the open cells are listed anew
    exact hvalue.imp_right (.imp_right (.imp_right (.imp_left fun ⟨entry, hentry, heq⟩ =>
      ⟨entry, hlitter.listed.subset hentry, heq⟩)))
  | step _ hobject htarget ih => exact .step ih (hlitter.get? hobject) htarget

end Littered

/-- The cells after a collection are those that the roots led to. -/
theorem getElem?_collectGarbage {m : Machine} (hidle : m.heap.Idle) {ref : Ref}
    (hreach : m.heap.Reachable m.roots ref) :
    m.collectGarbage.heap.cells[ref]? = m.heap.cells[ref]? := by
  rw [collectGarbage, Heap.cells_collect hidle, Heap.getElem?_collected hidle]
  cases m.heap.cells[ref]? with
  | none => rfl
  | some cell => simp [Option.filter, hreach]

theorem NoDangling.mem_refs_of_root {m : Machine} (hnone : m.NoDangling) {value : Value} {ref : Ref}
    (hvalue : value ∈ m.roots) (href : value.ref? = some ref) : ref ∈ m.heap.refs := by
  rcases (m.mem_roots_iff value).mp hvalue with h | h | ⟨frame, h, rfl⟩ | ⟨entry, h, rfl⟩ | h | h | rfl
  · exact hnone.stack value (Array.mem_toList_iff.mp h) ref href
  · exact hnone.globals value (Array.mem_toList_iff.mp h) ref href
  · exact Option.some.inj href ▸ hnone.closures frame (Array.mem_toList_iff.mp h)
  · exact Option.some.inj href ▸ hnone.openCells entry h
  · exact hnone.pinned value h ref href
  · exact hnone.hostValues value h ref href
  · exact hnone.result ref href

theorem NoDangling.mem_refs_of_reachable {m : Machine} (hnone : m.NoDangling) {ref : Ref}
    (hreach : m.heap.Reachable m.roots ref) : ref ∈ m.heap.refs := by
  induction hreach with
  | root hvalue href => exact hnone.mem_refs_of_root hvalue href
  | step _ hobject htarget _ => exact hnone.objects _ _ hobject _ htarget

namespace Aborted

variable {m after : Machine}

theorem of_littered (hsound : m.Sound) (hlitter : Littered m.wanted m { after with ip := m.ip })
    (hdescending : after.openCells.Pairwise fun first second => second.slot < first.slot) : Aborted m after where
  toLittered := hlitter
  descending := hdescending
  unreferenced _ _ hnew :=
    ⟨fun _ hvalue href => hnew (hsound.noDangling.mem_refs_of_root hvalue href),
      fun other object hobject htarget => hnew (hsound.noDangling.objects other object hobject _ htarget)⟩

/-- The machine that collects garbage after it gave up stands before the instruction again. -/
theorem standsAgain (haborted : Aborted m after) (hsound : m.Sound) (hpoised : m.Poised)
    (hidle : after.heap.Idle) : StandsAgain m (Exec.again after) := by
  have hstart : after.instructionStart = m.ip := by
    have hsame := congrArg instructionStart haborted.rest
    exact hsame.trans hpoised
  have hagain : Exec.again after = { after with ip := m.ip }.collectGarbage := by
    rw [Exec.again, hstart]
  have hcells {ref : Ref} (hreach : ({ after with ip := m.ip } : Machine).heap.Reachable
      ({ after with ip := m.ip } : Machine).roots ref) :
      (Exec.again after).heap.cells[ref]? = after.heap.cells[ref]? := by
    rw [hagain]
    exact getElem?_collectGarbage hidle hreach
  have hlisted : (Exec.again after).openCells = after.openCells := rfl
  refine ⟨?_, fun ref hreach => ?_, haborted.listed, fun entry hentry hnew => ?_, haborted.descending⟩
  · have hrest := congrArg (fun state : Machine => { state with heap := (Exec.again after).heap }) haborted.rest
    rw [hagain] at hrest ⊢
    exact hrest
  · rw [hcells (haborted.reachable hreach)]
    obtain ⟨object, hobject⟩ := Heap.mem_refs.mp (hsound.noDangling.mem_refs_of_reachable hreach)
    obtain ⟨cell, hcell, -⟩ := Option.map_eq_some_iff.mp hobject
    exact (haborted.kept ref cell hcell).trans hcell.symm
  · obtain ⟨hslot, hcell, hobject⟩ := haborted.opened entry hentry hnew
    refine ⟨hslot, hcell, ?_⟩
    rw [Heap.get?, hcells (.root (cell_mem_roots hentry) rfl)]
    exact hobject

end Aborted

end Machine

namespace Exec

open Machine

variable {m : Machine}

/-- The making of a closure that finds the heap full leaves garbage and cells for slots that it captures. -/
theorem littered_pushClosure (hsound : m.heap.Sound) (hopen : OpenCellsSound m.heap m.openCells)
    (hframes : ∀ frame ∈ m.frames.toList, frame.closure ∈ m.heap.refs) {prototype : Prototype}
    {asked : HeapExhausted} {after : Machine} (hfull : pushClosure prototype m = .error (.exhausted asked) after) :
    Littered (m.closureSlots prototype) m after ∧
      after.openCells.Pairwise fun first second => second.slot < first.slot := by
  rw [pushClosure_eq, bind_apply] at hfull
  rcases onHeap_allocate_cases (.unboundClosure (some prototype)) hsound with
    ⟨parked, halike, hresult, -⟩ | ⟨aborted, hgave, hresult, -⟩
  · rw [hresult] at hfull
    let linked : Machine := { m with heap := parked.link (.unboundClosure (some prototype)) }
    have hrefs : (Object.unboundClosure (some prototype)).references = [] := by
      simp [Object.unboundClosure, Object.references]
    have hlinked : linked.heap.Sound := (hsound.of_alike halike).link (by simp [hrefs])
    have hlitter : Littered (m.closureSlots prototype) m linked :=
      .of_link hsound.bounded halike hrefs (.refl _) fun _ hentry hnew => absurd hentry hnew
    have hclosure : linked.heap.get? m.heap.nextRef = some (.unboundClosure (some prototype)) := by
      simp [linked, Heap.get?_link, halike.nextRef]
    rcases bindClosure_outcome hlinked prototype hclosure with
      ⟨_, -, hplain, -⟩ | ⟨captured, rest, slot, middle, aborted, hsplit, hcaptures, -, -, hgave, hfound⟩
    · exact absurd ⟨_, _, hfull⟩ hplain
    · obtain ⟨-, rfl⟩ := EStateM.Result.error.inj (hfound.symm.trans hfull)
      rw [closureSlots_link hsound hframes halike] at hsplit
      have hcells : Littered (m.closureSlots prototype) linked middle :=
        .of_captures hcaptures hlinked fun slot hslot => hsplit ▸ List.mem_append_left _ hslot
      have hparked : OpenCellsSound linked.heap linked.openCells :=
        ⟨hopen.descending, fun entry hentry => hlitter.get? (hopen.opened entry hentry)⟩
      refine ⟨(hlitter.trans hcells).trans (.of_gaveUp hgave), ?_⟩
      rw [hgave.rest]
      exact (hcaptures.openCellsSound hlinked hparked).descending
  · rw [hresult] at hfull
    obtain ⟨-, rfl⟩ := EStateM.Result.error.inj hfull
    refine ⟨.of_gaveUp hgave, ?_⟩
    rw [hgave.rest]
    exact hopen.descending

/-- An instruction that finds the heap full has not changed anything that was there. -/
theorem aborted_of_dispatch (hsound : m.Sound) {asked : HeapExhausted} {after : Machine}
    (hfull : dispatch m = .error (.exhausted asked) after) : Aborted m after := by
  obtain ⟨ρ, hcorr⟩ := hsound
  rw [dispatch_eq] at hfull
  cases hinstruction : m.instruction? with
  | none =>
    rw [hinstruction] at hfull
    have hfault := (EStateM.Result.error.inj hfull).1
    exact absurd hfault (fetchFault_plain m.chunk m.ip asked)
  | some instruction =>
    obtain ⟨op, a, b⟩ := instruction
    rw [hinstruction] at hfull
    have hmoved := hcorr.withIp (show m.ip + op.size = m.ip + op.size from rfl)
    by_cases hop : op = .closure
    · subst hop
      obtain ⟨chunk, hchunk, -⟩ := Option.bind_eq_some_iff.mp hinstruction
      dsimp only at hfull
      rw [execute_closure a b (m := { m with ip := m.ip + Opcode.closure.size }) hchunk] at hfull
      have hwanted (prototype : Prototype) (hfunction : chunk.functions[a]? = some (some prototype)) :
          m.wanted = m.closureSlots prototype := by
        simp [wanted, hinstruction, hchunk, hfunction]
      generalize chunk.functions[a]? = function at hfull hwanted
      rcases function with _ | _ | prototype
      · cases hfull
      · cases hfull
      · obtain ⟨hlitter, hdescending⟩ := littered_pushClosure hmoved.heap.leftSound hmoved.leftOpen
          (closure_mem_refs hmoved.toSimilar) hfull
        refine .of_littered ⟨ρ, hcorr⟩ ?_ hdescending
        rw [hwanted prototype rfl]
        exact hlitter.withIp m.ip
    · cases attempt_execute hmoved hop a b fun slot _ => seenAlike_self _ slot with
      | calm hcalm => exact absurd ⟨_, _, hfull⟩ hcalm.not_full.1
      | needs hneeds _ _ =>
        obtain ⟨-, -, hgave⟩ := hneeds.full asked after hfull
        refine .of_littered ⟨ρ, hcorr⟩ (Littered.withIp (.of_gaveUp hgave) m.ip) ?_
        rw [hgave.rest]
        exact hcorr.leftOpen.descending

/-- What becomes of an instruction for which the heap may be full: given up, it has had no effect and runs again
from where it stood; given up a second time, it ends the run; and only a turn in which it is carried out to its
end counts as done. -/
structure RetriesSafely (m : Machine) : Prop where
  aborted : ∀ asked after, dispatch m.safepoint = .error (.exhausted asked) after → Aborted m.safepoint after
  first : ∀ asked after, dispatch m.safepoint = .error (.exhausted asked) after →
    ∃ next, turn false m = .ok true next ∧ StandsAgain m.safepoint next
  second : ∀ asked after, dispatch m.safepoint = .error (.exhausted asked) after →
    turn true m = .error (.failure (after.locate (outOfMemory asked))) after.reset
  once : ∀ retried next, turn retried m = .ok true next → retried = false ∧ Full (dispatch m.safepoint)
  effect : ∀ retried next, turn retried m = .ok false next → dispatch m.safepoint = .ok () next

/-- A turn that goes on has either carried out its instruction or given it up for the first time. -/
theorem turn_eq_ok {retried again : Bool} {next : Machine} (hturn : turn retried m = .ok again next) :
    (again = false ∧ dispatch m.safepoint = .ok () next) ∨
      (again = true ∧ retried = false ∧ Full (dispatch m.safepoint)) := by
  by_cases hfull : Full (dispatch m.safepoint)
  · obtain ⟨asked, after, hresult⟩ := hfull
    cases retried with
    | false =>
      rw [turn_of_full hresult] at hturn
      cases hturn
      exact .inr ⟨rfl, rfl, asked, after, hresult⟩
    | true =>
      rw [turn_of_full_again hresult] at hturn
      cases hturn
  · rw [turn_of_not_full retried hfull] at hturn
    generalize dispatch m.safepoint = result at hturn
    cases result with
    | ok value after =>
      cases hturn
      exact .inl ⟨rfl, rfl⟩
    | error fault after => cases fault <;> cases hturn

theorem retriesSafely_of_sound (hsound : m.Sound) : RetriesSafely m where
  aborted _ _ hfull := aborted_of_dispatch hsound.safepoint hfull
  first asked after hfull := by
    have hafter : after.Sound := by
      have hdispatched := sound_dispatch hsound.safepoint
      rwa [hfull] at hdispatched
    obtain ⟨ρ, hcorr⟩ := hafter
    exact ⟨again after, turn_of_full hfull, (aborted_of_dispatch hsound.safepoint hfull).standsAgain
      hsound.safepoint (poised_safepoint m) hcorr.heap.leftSound.idle⟩
  second _ _ hfull := turn_of_full_again hfull
  once retried next hturn := by
    rcases turn_eq_ok hturn with ⟨hagain, -⟩ | ⟨-, hfirst⟩
    · cases hagain
    · exact hfirst
  effect retried next hturn := by
    rcases turn_eq_ok hturn with ⟨-, hdone⟩ | ⟨hagain, -⟩
    · exact hdone
    · cases hagain

end Exec

end OwnScript
