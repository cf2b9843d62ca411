import OwnScript.Proofs.Machine.Leftovers

/-!
Machines that stand at the same point of the same run up to the choice of references. They agree on
everything that a program can see; what a renaming does not mention is garbage. Two machines are
similar even if one has captured slots that the other has not captured yet, and correspond when they
have captured the same slots.
-/

namespace OwnScript

/-- Calls that agree up to a renaming. -/
structure Frame.Related (ρ : Renaming) (first second : Frame) : Prop where
  base : first.base = second.base
  returnTo : first.returnTo = second.returnTo
  caller : first.caller = second.caller
  argumentCount : first.argumentCount = second.argumentCount
  closure : ρ.object first.closure second.closure

namespace Machine

/-- Captured slots are listed from the highest down, each with an open cell of its own. -/
structure OpenCellsSound (heap : Heap) (openCells : List OpenCell) : Prop where
  descending : openCells.Pairwise fun first second => second.slot < first.slot
  opened : ∀ entry ∈ openCells, heap.get? entry.cell = some (.upvalue (.opened entry.slot))

/-- Machines that agree up to a renaming, captured slots apart. -/
structure Similar (ρ : Renaming) (left right : Machine) : Prop where
  config : left.config = right.config
  unit : left.unit = right.unit
  chunk : left.chunk = right.chunk
  ip : left.ip = right.ip
  instructionStart : left.instructionStart = right.instructionStart
  halted : left.halted = right.halted
  output : left.output = right.output
  heap : Heap.Corresponds ρ left.heap right.heap
  globals : List.Forall₂ (Option.Rel (Value.Related ρ)) left.globals.toList right.globals.toList
  stack : List.Forall₂ (Value.Related ρ) left.stack.toList right.stack.toList
  leftovers : Leftovers.Agree ρ left.heap right.heap left.leftovers right.leftovers
  frames : List.Forall₂ (Frame.Related ρ) left.frames.toList right.frames.toList
  result : Value.Related ρ left.result right.result
  pinned : List.Forall₂ (Value.Related ρ) left.pinned right.pinned
  hostValues : List.Forall₂ (Value.Related ρ) left.hostValues right.hostValues
  leftOpen : OpenCellsSound left.heap left.openCells
  rightOpen : OpenCellsSound right.heap right.openCells
  captured : ∀ first ∈ left.openCells, ∀ second ∈ right.openCells, first.slot = second.slot →
    ρ.cell first.cell second.cell
  listed : ∀ a b slot, ρ.cell a b → left.heap.get? a = some (.upvalue (.opened slot)) →
    ⟨slot, a⟩ ∈ left.openCells ∧ ⟨slot, b⟩ ∈ right.openCells

/-- The slots whose cells are open. -/
def openSlots (m : Machine) : List Nat :=
  m.openCells.map (·.slot)

/-- Machines that agree up to a renaming. -/
structure Corresponds (ρ : Renaming) (left right : Machine) : Prop extends Similar ρ left right where
  slots : left.openSlots = right.openSlots

variable {ρ σ : Renaming} {left right : Machine}

theorem forall₂_flip {α β : Type} {r : α → β → Prop} {s : β → α → Prop} {xs : List α} {ys : List β}
    (hrel : List.Forall₂ r xs ys) (himp : ∀ a b, r a b → s b a) : List.Forall₂ s ys xs :=
  (hrel.imp (S := fun a b => s b a) himp).flip

theorem Similar.swap (hsim : Similar ρ left right) : Similar ρ.swap right left where
  config := hsim.config.symm
  unit := hsim.unit.symm
  chunk := hsim.chunk.symm
  ip := hsim.ip.symm
  instructionStart := hsim.instructionStart.symm
  halted := hsim.halted.symm
  output := hsim.output.symm
  heap := hsim.heap.swap
  globals := forall₂_flip hsim.globals fun _ _ h => relImp (relFlip h) fun _ _ h => h.swap
  stack := forall₂_flip hsim.stack fun _ _ h => h.swap
  leftovers := hsim.leftovers.swap
  frames := forall₂_flip hsim.frames fun _ _ h =>
    ⟨h.base.symm, h.returnTo.symm, h.caller.symm, h.argumentCount.symm, h.closure⟩
  result := hsim.result.swap
  pinned := forall₂_flip hsim.pinned fun _ _ h => h.swap
  hostValues := forall₂_flip hsim.hostValues fun _ _ h => h.swap
  leftOpen := hsim.rightOpen
  rightOpen := hsim.leftOpen
  captured first hfirst second hsecond hslot := hsim.captured second hsecond first hfirst hslot.symm
  listed a b slot hpair hopened := by
    obtain ⟨first, second, hfirst, hsecond, hrel⟩ := hsim.heap.cells b a hpair
    rw [hopened, Option.some.injEq, Object.upvalue.injEq] at hsecond
    subst hsecond
    cases hrel
    exact (hsim.listed b a slot hpair hfirst).symm

theorem Corresponds.swap (hcorr : Corresponds ρ left right) : Corresponds ρ.swap right left :=
  ⟨hcorr.toSimilar.swap, hcorr.slots.symm⟩

theorem Frame.Related.mono {first second : Frame} (hrel : Frame.Related ρ first second) (hle : ρ ≤ σ) :
    Frame.Related σ first second :=
  { hrel with closure := hle.1 _ _ hrel.closure }

/-- New heaps under the same machines. Cells keep their partners, and no cell becomes open. -/
theorem Similar.withHeap (hsim : Similar ρ left right) (hle : ρ ≤ σ) {leftHeap rightHeap : Heap}
    (hheap : Heap.Corresponds σ leftHeap rightHeap) (hleftAges : left.heap.Ages leftHeap)
    (hrightAges : right.heap.Ages rightHeap) (hcells : ∀ a b, σ.cell a b → ρ.cell a b)
    (hopen : ∀ a b slot, ρ.cell a b → leftHeap.get? a = some (.upvalue (.opened slot)) →
      left.heap.get? a = some (.upvalue (.opened slot)))
    (hleft : ∀ entry ∈ left.openCells, leftHeap.get? entry.cell = left.heap.get? entry.cell)
    (hright : ∀ entry ∈ right.openCells, rightHeap.get? entry.cell = right.heap.get? entry.cell) :
    Similar σ { left with heap := leftHeap } { right with heap := rightHeap } where
  config := hsim.config
  unit := hsim.unit
  chunk := hsim.chunk
  ip := hsim.ip
  instructionStart := hsim.instructionStart
  halted := hsim.halted
  output := hsim.output
  heap := hheap
  globals := hsim.globals.imp fun _ _ h => relImp h fun _ _ h => h.mono hle
  stack := hsim.stack.imp fun _ _ h => h.mono hle
  leftovers := hsim.leftovers.later hle hleftAges hrightAges
  frames := hsim.frames.imp fun _ _ h => Frame.Related.mono h hle
  result := hsim.result.mono hle
  pinned := hsim.pinned.imp fun _ _ h => h.mono hle
  hostValues := hsim.hostValues.imp fun _ _ h => h.mono hle
  leftOpen := ⟨hsim.leftOpen.descending, fun entry hentry =>
    (hleft entry hentry).trans (hsim.leftOpen.opened entry hentry)⟩
  rightOpen := ⟨hsim.rightOpen.descending, fun entry hentry =>
    (hright entry hentry).trans (hsim.rightOpen.opened entry hentry)⟩
  captured first hfirst second hsecond hslot :=
    hle.2 _ _ (hsim.captured first hfirst second hsecond hslot)
  listed a b slot hpair hopened :=
    hsim.listed a b slot (hcells a b hpair) (hopen a b slot (hcells a b hpair) hopened)

theorem forall₂_of_mem {α β : Type} {r s : α → β → Prop} {xs : List α} {ys : List β}
    (hrel : List.Forall₂ r xs ys) (himp : ∀ a ∈ xs, ∀ b ∈ ys, r a b → s a b) :
    List.Forall₂ s xs ys := by
  induction hrel with
  | nil => exact .nil
  | cons hfirst _ ih =>
    refine .cons (himp _ (List.mem_cons_self ..) _ (List.mem_cons_self ..) hfirst) (ih ?_)
    intro a ha b hb
    exact himp a (List.mem_cons_of_mem _ ha) b (List.mem_cons_of_mem _ hb)

section Roots

variable (m : Machine)

theorem mem_roots_iff (value : Value) : value ∈ m.roots ↔
    value ∈ m.stack.toList ∨ some value ∈ m.globals.toList ∨
      (∃ frame ∈ m.frames.toList, value = .ofRef frame.closure) ∨
      (∃ entry ∈ m.openCells, value = .ofRef entry.cell) ∨
      value ∈ m.pinned ∨ value ∈ m.hostValues ∨ value = m.result := by
  simp only [roots, List.mem_append, List.mem_filterMap, id, List.mem_map, List.mem_singleton,
    exists_eq_right, or_assoc]
  grind

variable {m} {value : Value}

theorem stack_mem_roots (hvalue : value ∈ m.stack.toList) : value ∈ m.roots :=
  (m.mem_roots_iff value).mpr (by grind)

theorem global_mem_roots (hvalue : some value ∈ m.globals.toList) : value ∈ m.roots :=
  (m.mem_roots_iff value).mpr (by grind)

theorem closure_mem_roots {frame : Frame} (hframe : frame ∈ m.frames.toList) :
    .ofRef frame.closure ∈ m.roots :=
  (m.mem_roots_iff _).mpr (by grind)

theorem cell_mem_roots {entry : OpenCell} (hentry : entry ∈ m.openCells) : .ofRef entry.cell ∈ m.roots :=
  (m.mem_roots_iff _).mpr (by grind)

theorem pinned_mem_roots (hvalue : value ∈ m.pinned) : value ∈ m.roots :=
  (m.mem_roots_iff value).mpr (by grind)

theorem hostValue_mem_roots (hvalue : value ∈ m.hostValues) : value ∈ m.roots :=
  (m.mem_roots_iff value).mpr (by grind)

theorem result_mem_roots : m.result ∈ m.roots :=
  (m.mem_roots_iff _).mpr (by grind)

end Roots

/-- A collection on one side. -/
theorem Similar.collectGarbage_left (hsim : Similar ρ left right) :
    ∃ σ, σ ≤ ρ ∧ Similar σ left.collectGarbage right := by
  have hroot {value : Value} (hvalue : value ∈ left.roots) (ref : Ref) (href : value.ref? = some ref) :
      left.heap.Reachable left.roots ref := .root hvalue href
  have hvalues {xs ys : List Value} (hrel : List.Forall₂ (Value.Related ρ) xs ys)
      (hxs : ∀ value ∈ xs, value ∈ left.roots) :
      List.Forall₂ (Value.Related (ρ.keeping (left.heap.Reachable left.roots) fun _ => True)) xs ys :=
    forall₂_of_mem hrel fun a ha _ _ h => h.keeping (hroot (hxs a ha)) (fun _ _ => trivial)
  have hreached := (Heap.collect_spec hsim.heap.leftSound.idle left.roots).reached
  refine ⟨ρ.keeping (left.heap.Reachable left.roots) fun _ => True,
    ⟨fun _ _ h => h.1, fun _ _ h => h.1⟩, ?_⟩
  exact {
    config := hsim.config
    unit := hsim.unit
    chunk := hsim.chunk
    ip := hsim.ip
    instructionStart := hsim.instructionStart
    halted := hsim.halted
    output := hsim.output
    heap := hsim.heap.collect_left left.roots
    globals := by
      refine forall₂_of_mem hsim.globals fun a ha b hb h => ?_
      cases h with
      | none => exact .none
      | some h => exact .some (h.keeping (hroot (global_mem_roots ha)) (fun _ _ => trivial))
    stack := hvalues hsim.stack fun _ h => stack_mem_roots h
    leftovers := hsim.leftovers.collect_left hsim.heap.leftSound.idle left.roots
    frames := forall₂_of_mem hsim.frames fun a ha b hb h =>
      { h with closure := ⟨h.closure, hroot (closure_mem_roots ha) _ rfl, trivial⟩ }
    result := hsim.result.keeping (hroot result_mem_roots) (fun _ _ => trivial)
    pinned := hvalues hsim.pinned fun _ h => pinned_mem_roots h
    hostValues := hvalues hsim.hostValues fun _ h => hostValue_mem_roots h
    leftOpen := ⟨hsim.leftOpen.descending, fun entry hentry =>
      (hreached _ (hroot (cell_mem_roots hentry) _ rfl)).trans (hsim.leftOpen.opened entry hentry)⟩
    rightOpen := hsim.rightOpen
    captured := fun first hfirst second hsecond hslot =>
      ⟨hsim.captured first hfirst second hsecond hslot, hroot (cell_mem_roots hfirst) _ rfl, trivial⟩
    listed := fun a b slot hpair hopened => by
      refine hsim.listed a b slot hpair.1 ?_
      rw [← hreached a hpair.2.1]
      exact hopened }

theorem Corresponds.collectGarbage_left (hcorr : Corresponds ρ left right) :
    ∃ σ, Corresponds σ left.collectGarbage right := by
  obtain ⟨σ, -, hsim⟩ := hcorr.toSimilar.collectGarbage_left
  exact ⟨σ, hsim, hcorr.slots⟩

theorem Corresponds.collectGarbage (hcorr : Corresponds ρ left right) :
    ∃ σ, Corresponds σ left.collectGarbage right.collectGarbage := by
  obtain ⟨σ, hleft⟩ := hcorr.collectGarbage_left
  obtain ⟨τ, hboth⟩ := hleft.swap.collectGarbage_left
  exact ⟨τ.swap, hboth.swap⟩

end Machine

end OwnScript
