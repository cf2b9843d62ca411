import OwnScript.Proofs.Machine.Accounts

/-!
The list of open cells. Whatever an instruction does, it takes a cell from the list only to close it, and
enters only cells that it has just made.
-/

namespace OwnScript

open Stateful

namespace Machine

/-- A reference leads to a cell that holds its value itself. -/
def IsClosed (m : Machine) (ref : Ref) : Prop :=
  ∃ held, m.heap.get? ref = some (.upvalue (.closed held))

/-- What becomes of the open cells of a machine. -/
structure Relists (m after : Machine) : Prop where
  entered : ∀ entry ∈ after.openCells, entry ∈ m.openCells ∨ m.heap.nextRef ≤ entry.cell
  taken : ∀ entry ∈ m.openCells, entry ∈ after.openCells ∨ after.IsClosed entry.cell
  closed : ∀ ref, m.IsClosed ref → after.IsClosed ref
  nextRef : m.heap.nextRef ≤ after.heap.nextRef

variable {asked : Nat → Prop} {m after : Machine}

theorem Relists.trans {middle : Machine} (hfirst : Relists m middle) (hsecond : Relists middle after) :
    Relists m after where
  entered entry hentry := by
    rcases hsecond.entered entry hentry with hmiddle | hnew
    · exact hfirst.entered entry hmiddle
    · exact .inr (hfirst.nextRef.trans hnew)
  taken entry hentry := by
    rcases hfirst.taken entry hentry with hmiddle | hclosed
    · exact hsecond.taken entry hmiddle
    · exact .inr (hsecond.closed _ hclosed)
  closed ref hclosed := hsecond.closed ref (hfirst.closed ref hclosed)
  nextRef := hfirst.nextRef.trans hsecond.nextRef

/-- The list stays as it is, and closed cells stay closed. -/
theorem Relists.of_same (hcells : after.openCells = m.openCells)
    (hclosed : ∀ ref, m.IsClosed ref → after.IsClosed ref) (hnext : m.heap.nextRef ≤ after.heap.nextRef) :
    Relists m after where
  entered _ hentry := .inl (hcells ▸ hentry)
  taken _ hentry := .inl (hcells ▸ hentry)
  closed := hclosed
  nextRef := hnext

theorem Relists.of_eq (hheap : after.heap = m.heap) (hcells : after.openCells = m.openCells) :
    Relists m after :=
  .of_same hcells (fun ref hclosed => by rwa [IsClosed, hheap]) (by rw [hheap])

theorem isClosed_link (hbounded : m.heap.Bounded) (object : Object) {ref : Ref} (hclosed : m.IsClosed ref) :
    IsClosed { m with heap := m.heap.link object } ref := by
  obtain ⟨held, hheld⟩ := hclosed
  have hold : ref ≠ m.heap.nextRef := Nat.ne_of_lt (hbounded ref _ hheld)
  exact ⟨held, by rw [Heap.get?_link, if_neg hold]; exact hheld⟩

/-- A closed cell stays one when another object, or what it holds, is replaced. -/
theorem isClosed_replace {heap : Heap} {target ref : Ref} {new : Object}
    (hget : ∀ ref, heap.get? ref =
      if ref = target then (m.heap.get? ref).map (fun _ => new) else m.heap.get? ref)
    (hnew : m.IsClosed target → ∃ held, new = .upvalue (.closed held)) (hclosed : m.IsClosed ref) :
    IsClosed { m with heap } ref := by
  obtain ⟨held, hheld⟩ := hclosed
  by_cases href : ref = target
  · subst href
    obtain ⟨now, rfl⟩ := hnew ⟨held, hheld⟩
    exact ⟨now, by simp [hget, hheld]⟩
  · exact ⟨held, by simp [hget, href, hheld]⟩

/-- Cells that are taken from the list are closed. -/
theorem relists_closeCells (horderly : m.Orderly) (slot : Nat) : Relists m (m.closeCells slot) := by
  have hthere (ref : Ref) (object : Object) (hobject : m.heap.get? ref = some object) : ref ∈ m.heap.refs :=
    Heap.mem_refs.mpr ⟨object, hobject⟩
  rw [closeCells_eq]
  refine ⟨fun entry hentry => .inl ((List.dropWhile_suffix _).subset hentry), fun entry hentry => ?_,
    fun ref hclosed => ?_, ?_⟩
  · rw [← List.takeWhile_append_dropWhile (p := fun entry => decide (slot ≤ entry.slot))
      (l := m.openCells)] at hentry
    rcases List.mem_append.mp hentry with hclosing | hstays
    · obtain ⟨state, hstate⟩ := horderly.cells entry ((List.takeWhile_prefix _).subset hclosing)
      exact .inr (get?_foldl_close_mem m.slotOrNil ⟨entry, hclosing, rfl⟩ (hthere _ _ hstate))
    · exact .inl hstays
  · obtain ⟨held, hheld⟩ := hclosed
    by_cases hlisted : ∃ entry ∈ m.openCells.takeWhile (fun entry => slot ≤ entry.slot), entry.cell = ref
    · exact get?_foldl_close_mem m.slotOrNil hlisted (hthere _ _ hheld)
    · refine ⟨held, ?_⟩
      dsimp only
      rw [get?_foldl_close fun entry hentry hcell => hlisted ⟨entry, hentry, hcell.symm⟩]
      exact hheld
  · exact (refs_foldl_close _ m.slotOrNil m.heap).2.ge

theorem relists_left (horderly : m.Orderly) (frame : Frame) : Relists m (Exec.left m frame) := by
  have hpopped : Relists m { m with frames := m.frames.pop } := .of_eq rfl rfl
  have horderly : Orderly { m with frames := m.frames.pop } := horderly.of_eq rfl rfl
  have hclosed := hpopped.trans (relists_closeCells horderly frame.base)
  exact hclosed.trans (.of_eq rfl rfl)

/-- Every change keeps to the rule for open cells. -/
theorem Change.relists (hchange : Change asked m after) (horderly : m.Orderly) : Relists m after := by
  have hbounded := horderly.heap.bounded
  cases hchange with
  | pushed | cut | leftBehind | assigned | defined | printed | jumped | entered => exact .of_eq rfl rfl
  | parked halike =>
    refine .of_same rfl (fun ref hclosed => ?_) halike.nextRef.ge
    obtain ⟨held, hheld⟩ := hclosed
    exact ⟨held, (halike.get? ref).trans hheld⟩
  | @linked object => exact .of_same rfl (fun ref => isClosed_link hbounded object) (Nat.le_succ _)
  | @built bytes empty object hfilled =>
    have hlinked : Relists m { m with heap := m.heap.link empty } :=
      .of_same rfl (fun ref => isClosed_link hbounded empty) (Nat.le_succ _)
    have hempty : (m.heap.link empty).get? m.heap.nextRef = some empty := by simp [Heap.get?_link]
    refine hlinked.trans (.of_same rfl (fun ref => isClosed_replace (Heap.get?_store _ _ _) fun hclosed => ?_) ?_)
    · obtain ⟨held, hheld⟩ := hclosed
      cases hempty.symm.trans hheld
      cases hfilled
    · exact (Heap.nextRef_store _ _ _).ge
  | @edited ref old new hold hedited =>
    refine .of_same rfl (fun other => isClosed_replace (Heap.get?_update _ _ _) fun hclosed => ?_) le_rfl
    obtain ⟨held, hheld⟩ := hclosed
    cases hold.symm.trans hheld
    cases hedited with
    | cell held value => exact ⟨value, rfl⟩
  | @appended ref fields name value hold =>
    refine .of_same rfl (fun other => isClosed_replace (Heap.get?_store _ _ _) fun hclosed => ?_) ?_
    · obtain ⟨held, hheld⟩ := hclosed
      cases hold.symm.trans hheld
    · exact (Heap.nextRef_store _ _ _).ge
  | captured slot =>
    refine ⟨fun entry hentry => ?_, fun entry hentry => .inl (mem_insertCell.mpr (.inr hentry)),
      fun ref => isClosed_link hbounded _, Nat.le_succ _⟩
    rcases mem_insertCell.mp hentry with rfl | hold
    · exact .inr le_rfl
    · exact .inl hold
  | closed slot => exact relists_closeCells horderly slot
  | @returned frame | @finished frame => exact (relists_left horderly frame).trans (.of_eq rfl rfl)

theorem Changes.relists (hchanges : Changes asked m after) (horderly : m.Orderly) : Relists m after := by
  induction hchanges with
  | refl => exact .of_eq rfl rfl
  | tail hbefore hchange ih => exact ih.trans (hchange.relists (Changes.tended hbefore horderly).orderly)

end Machine

namespace Exec

open Machine

/-- Every instruction keeps to the rule for open cells, also one that fails or gives up. -/
theorem relists_dispatch {m : Machine} (horderly : m.Orderly) : Relists m (stateAfter (dispatch m)) := by
  have hchanges : Changes (fun _ => True) m (stateAfter (dispatch m)) :=
    changes_dispatch horderly.intact fun _ _ => trivial
  exact hchanges.relists horderly

end Exec

end OwnScript
