import OwnScript.Proofs.Machine.Lockstep

/-!
The steps that change a machine without needing storage, taken on both sides: pushing and popping,
writing to slots, globals and captured variables, closing cells, calls and returns.
-/

namespace OwnScript

open Stateful

namespace Machine

variable {ρ : Renaming} {left right : Machine}

theorem Corresponds.withStack (hcorr : Corresponds ρ left right) {first second : Array Value}
    (hstack : List.Forall₂ (Value.Related ρ) first.toList second.toList) :
    Corresponds ρ { left with stack := first } { right with stack := second } :=
  { hcorr with stack := hstack }

theorem Corresponds.withIp (hcorr : Corresponds ρ left right) {first second : Nat}
    (hip : first = second) : Corresponds ρ { left with ip := first } { right with ip := second } :=
  { hcorr with ip := hip }

/-- What is left above stacks that are cut agrees. -/
theorem Corresponds.leftBehind (hcorr : Corresponds ρ left right) (height : Nat) :
    Leftovers.Agree ρ left.heap right.heap (left.leftBehind height) (right.leftBehind height) := by
  unfold Machine.leftBehind
  rw [rel_size hcorr.stack]
  refine (hcorr.leftovers.under _ _).leave (fun slot => ?_) _ _
  exact relImp (rel_array_getElem? hcorr.stack slot) fun _ _ h => .of_related hcorr.heap h

theorem Corresponds.cut (hcorr : Corresponds ρ left right) {height height' : Nat} (hheight : height = height') :
    Corresponds ρ (left.cut height) (right.cut height') := by
  subst hheight
  exact { hcorr with stack := rel_shrink hcorr.stack height, leftovers := hcorr.leftBehind height }

/-- New heaps under the same machines and with the same pairs. -/
theorem Corresponds.withHeap (hcorr : Corresponds ρ left right) {leftHeap rightHeap : Heap}
    (hheap : Heap.Corresponds ρ leftHeap rightHeap) (hleftAges : left.heap.Ages leftHeap)
    (hrightAges : right.heap.Ages rightHeap)
    (hopen : ∀ a b slot, ρ.cell a b → leftHeap.get? a = some (.upvalue (.opened slot)) →
      left.heap.get? a = some (.upvalue (.opened slot)))
    (hleft : ∀ entry ∈ left.openCells, leftHeap.get? entry.cell = left.heap.get? entry.cell)
    (hright : ∀ entry ∈ right.openCells, rightHeap.get? entry.cell = right.heap.get? entry.cell) :
    Corresponds ρ { left with heap := leftHeap } { right with heap := rightHeap } :=
  ⟨hcorr.toSimilar.withHeap (Renaming.le_refl ρ) hheap hleftAges hrightAges (fun _ _ h => h) hopen hleft hright,
    hcorr.slots⟩

theorem OpenCellsSound.ne_of_get? {heap : Heap} {cells : List OpenCell} (hopen : OpenCellsSound heap cells)
    {entry : OpenCell} (hentry : entry ∈ cells) {ref : Ref} {object : Object}
    (hobject : heap.get? ref = some object) (hkind : object ≠ .upvalue (.opened entry.slot)) :
    entry.cell ≠ ref := by
  intro heq
  have hopened := hopen.opened entry hentry
  rw [heq, hobject, Option.some.injEq] at hopened
  exact hkind hopened

/-- Partners that are no cells are replaced, each heap elsewhere as it was. -/
private theorem Corresponds.withReplaced (hcorr : Corresponds ρ left right) {a b : Ref}
    (hpair : ρ.object a b) {leftHeap rightHeap : Heap}
    (hheap : Heap.Corresponds ρ leftHeap rightHeap) (hleftAges : left.heap.Ages leftHeap)
    (hrightAges : right.heap.Ages rightHeap)
    (hleft : ∀ ref, ref ≠ a → leftHeap.get? ref = left.heap.get? ref)
    (hright : ∀ ref, ref ≠ b → rightHeap.get? ref = right.heap.get? ref) :
    Corresponds ρ { left with heap := leftHeap } { right with heap := rightHeap } := by
  obtain ⟨x, y, hx, hy, hxy⟩ := hcorr.heap.objects a b hpair
  refine hcorr.withHeap hheap hleftAges hrightAges (fun c d slot hcell hopened => ?_)
    (fun entry hentry => ?_) (fun entry hentry => ?_)
  · rwa [hleft c (hcorr.heap.ne_of_object_cell hpair hcell).1] at hopened
  · exact hleft _ (hcorr.leftOpen.ne_of_get? hentry hx (hxy.not_upvalue _))
  · exact hright _ (hcorr.rightOpen.ne_of_get? hentry hy (hxy.swap.not_upvalue _))

/-- Objects that are partners change together. -/
theorem Corresponds.withStore (hcorr : Corresponds ρ left right) {a b : Ref} (hpair : ρ.object a b)
    {first second : Object} (hrel : Object.Related ρ first second) :
    Corresponds ρ { left with heap := left.heap.store a first }
      { right with heap := right.heap.store b second } := by
  refine hcorr.withReplaced hpair (hcorr.heap.store_objects hpair hrel) (Heap.ages_store ..)
    (Heap.ages_store ..) (fun ref hne => ?_) (fun ref hne => ?_)
  · rw [Heap.get?_store, if_neg hne]
  · rw [Heap.get?_store, if_neg hne]

theorem Corresponds.withUpdate (hcorr : Corresponds ρ left right) {a b : Ref} (hpair : ρ.object a b)
    {first second old : Object} (hrel : Object.Related ρ first second)
    (hold : left.heap.get? a = some old) (hsize : first.memorySize = old.memorySize) :
    Corresponds ρ { left with heap := left.heap.update a first }
      { right with heap := right.heap.update b second } :=
  hcorr.withReplaced hpair (hcorr.heap.update_objects hpair hrel hold hsize) (Heap.ages_update ..)
    (Heap.ages_update ..) (fun _ hne => Heap.get?_update_of_ne hne) (fun _ hne => Heap.get?_update_of_ne hne)

theorem slotOrNil_related (hsim : Similar ρ left right) (slot : Nat) :
    Value.Related ρ (left.slotOrNil slot) (right.slotOrNil slot) := by
  have hrel := rel_array_getElem? hsim.stack slot
  simp only [slotOrNil]
  generalize left.stack[slot]? = first at hrel ⊢
  generalize right.stack[slot]? = second at hrel ⊢
  cases hrel with
  | none => exact Value.related_nil ρ
  | some h => exact h

/-- Listed cells in corresponding order. -/
theorem Corresponds.openCells (hcorr : Corresponds ρ left right) :
    List.Forall₂ (fun first second => first.slot = second.slot ∧ ρ.cell first.cell second.cell)
      left.openCells right.openCells := by
  have hslots : List.Forall₂ (fun first second => first.slot = second.slot)
      left.openCells right.openCells := by
    have hmap := hcorr.slots
    rw [openSlots, openSlots, ← List.forall₂_eq_eq_eq, List.forall₂_map_left_iff,
      List.forall₂_map_right_iff] at hmap
    exact hmap
  exact forall₂_of_mem hslots fun first hfirst second hsecond hslot =>
    ⟨hslot, hcorr.captured first hfirst second hsecond hslot⟩

/-- Closing cells one after the other keeps the heaps together. -/
theorem foldl_close_related {first second : List OpenCell} {leftHeap rightHeap : Heap}
    {leftValue rightValue : Nat → Value}
    (hrel : List.Forall₂ (fun a b => a.slot = b.slot ∧ ρ.cell a.cell b.cell) first second)
    (hvalues : ∀ slot, Value.Related ρ (leftValue slot) (rightValue slot))
    (hheap : Heap.Corresponds ρ leftHeap rightHeap) :
    Heap.Corresponds ρ
      (first.foldl (fun heap entry => heap.update entry.cell (.upvalue (.closed (leftValue entry.slot))))
        leftHeap)
      (second.foldl (fun heap entry => heap.update entry.cell (.upvalue (.closed (rightValue entry.slot))))
        rightHeap) := by
  induction hrel generalizing leftHeap rightHeap with
  | nil => exact hheap
  | cons hfirst _ ih =>
    refine ih (hheap.update_cells hfirst.2 (.closed ?_))
    rw [hfirst.1]
    exact hvalues _

/-- Closing cells gives nothing up. -/
theorem ages_foldl_close (closing : List OpenCell) (value : Nat → Value) (heap : Heap) :
    heap.Ages (closing.foldl
      (fun heap entry => heap.update entry.cell (.upvalue (.closed (value entry.slot)))) heap) := by
  induction closing generalizing heap with
  | nil => exact .refl heap
  | cons entry rest ih => exact (Heap.ages_update ..).trans (ih _)

/-- Closing cells leaves all other objects alone. -/
theorem get?_foldl_close {closing : List OpenCell} {value : Nat → Value} {heap : Heap} {ref : Ref}
    (hother : ∀ entry ∈ closing, ref ≠ entry.cell) :
    (closing.foldl (fun heap entry => heap.update entry.cell (.upvalue (.closed (value entry.slot))))
      heap).get? ref = heap.get? ref := by
  induction closing generalizing heap with
  | nil => rfl
  | cons entry rest ih =>
    rw [List.foldl_cons, ih fun other hmem => hother other (List.mem_cons_of_mem _ hmem)]
    exact Heap.get?_update_of_ne (hother entry (List.mem_cons_self ..))

/-- A listed cell is closed at the end. -/
theorem get?_foldl_close_mem {closing : List OpenCell} (value : Nat → Value) {heap : Heap} {ref : Ref}
    (hlisted : ∃ entry ∈ closing, entry.cell = ref) (hthere : ref ∈ heap.refs) :
    ∃ held, (closing.foldl
      (fun heap entry => heap.update entry.cell (.upvalue (.closed (value entry.slot)))) heap).get?
        ref = some (.upvalue (.closed held)) := by
  induction closing generalizing heap with
  | nil => simp at hlisted
  | cons first rest ih =>
    rw [List.foldl_cons]
    by_cases hrest : ∃ entry ∈ rest, entry.cell = ref
    · exact ih hrest (by rw [Heap.refs_update]; exact hthere)
    · have hfirst : first.cell = ref := by
        obtain ⟨entry, hentry, hcell⟩ := hlisted
        rcases List.mem_cons.mp hentry with rfl | hmem
        · exact hcell
        · exact absurd ⟨entry, hmem, hcell⟩ hrest
      obtain ⟨object, hobject⟩ := Heap.mem_refs.mp hthere
      refine ⟨value first.slot, ?_⟩
      rw [get?_foldl_close fun other hother hcell => hrest ⟨other, hother, hcell.symm⟩]
      simp [Heap.get?_update, hfirst, hobject]

theorem OpenCellsSound.slot_eq {heap : Heap} {cells : List OpenCell} (hopen : OpenCellsSound heap cells)
    {first second : OpenCell} (hfirst : first ∈ cells) (hsecond : second ∈ cells)
    (hcell : first.cell = second.cell) : first.slot = second.slot := by
  have hobject := hopen.opened first hfirst
  rw [hcell, hopen.opened second hsecond] at hobject
  simpa using hobject.symm

/-- A list in descending order falls into the part from a slot up and the part below. -/
theorem span_descending {cells : List OpenCell} (slot : Nat)
    (hdescending : cells.Pairwise fun first second => second.slot < first.slot) :
    cells.takeWhile (fun entry => slot ≤ entry.slot) = cells.filter (fun entry => slot ≤ entry.slot) ∧
      cells.dropWhile (fun entry => slot ≤ entry.slot) = cells.filter (fun entry => entry.slot < slot) := by
  induction cells with
  | nil => simp
  | cons entry rest ih =>
    obtain ⟨hfirst, hrest⟩ := List.pairwise_cons.mp hdescending
    obtain ⟨htake, hdrop⟩ := ih hrest
    by_cases hslot : slot ≤ entry.slot
    · simp [hslot, htake, hdrop, Nat.not_lt.mpr hslot]
    · have hbelow : ∀ other ∈ rest, other.slot < slot := by
        intro other hother
        have := hfirst other hother
        omega
      have hnone : rest.filter (fun other => slot ≤ other.slot) = [] := by
        simp only [List.filter_eq_nil_iff, decide_eq_true_eq, not_le]
        exact hbelow
      have hall : rest.filter (fun other => other.slot < slot) = rest := by
        simp only [List.filter_eq_self, decide_eq_true_eq]
        exact hbelow
      simp [hslot, hnone, hall, Nat.not_le.mp hslot]

/-- The machine after closing cells, with the two parts of the list written out. -/
theorem closeCells_eq (m : Machine) (slot : Nat) :
    m.closeCells slot =
      { m with
        heap := (m.openCells.takeWhile (fun entry => slot ≤ entry.slot)).foldl
          (fun heap entry => heap.update entry.cell (.upvalue (.closed (m.slotOrNil entry.slot)))) m.heap
        openCells := m.openCells.dropWhile (fun entry => slot ≤ entry.slot) } := by
  simp [closeCells, List.span_eq_takeWhile_dropWhile]

theorem mem_closeCells {m : Machine} {slot : Nat} {entry : OpenCell}
    (hentry : entry ∈ (m.closeCells slot).openCells) : entry ∈ m.openCells := by
  rw [closeCells_eq] at hentry
  exact (List.dropWhile_suffix _).subset hentry

theorem openCellsSound_closeCells {m : Machine} (hopen : OpenCellsSound m.heap m.openCells) (slot : Nat) :
    OpenCellsSound (m.closeCells slot).heap (m.closeCells slot).openCells := by
  obtain ⟨htake, hdrop⟩ := span_descending slot hopen.descending
  rw [closeCells_eq, htake, hdrop]
  refine ⟨hopen.descending.filter _, fun entry hentry => ?_⟩
  simp only [List.mem_filter, decide_eq_true_eq] at hentry
  rw [get?_foldl_close, hopen.opened entry hentry.1]
  intro other hother hcell
  simp only [List.mem_filter, decide_eq_true_eq] at hother
  have hslot := hopen.slot_eq hentry.1 hother.1 hcell
  omega

theorem forall₂_takeWhile {first second : List OpenCell} {r : OpenCell → OpenCell → Prop}
    (hrel : List.Forall₂ r first second) (keep : OpenCell → Bool)
    (hkeep : ∀ a b, r a b → keep a = keep b) :
    List.Forall₂ r (first.takeWhile keep) (second.takeWhile keep) ∧
      List.Forall₂ r (first.dropWhile keep) (second.dropWhile keep) := by
  induction hrel with
  | nil => exact ⟨.nil, .nil⟩
  | @cons a b _ _ hfirst hrest ih =>
    have hsame := hkeep _ _ hfirst
    cases hcase : keep a with
    | true =>
      rw [hcase] at hsame
      simpa [hcase, ← hsame] using ⟨⟨hfirst, ih.1⟩, ih.2⟩
    | false =>
      rw [hcase] at hsame
      simpa [hcase, ← hsame] using List.Forall₂.cons hfirst hrest

/-- A cell that is still open after closing was open before, below the slot. -/
theorem openCells_of_opened (hcorr : Corresponds ρ left right) {a b : Ref} (hpair : ρ.cell a b)
    (slot : Nat) {opened : Nat}
    (hopened : ((left.openCells.takeWhile (fun entry => slot ≤ entry.slot)).foldl
      (fun heap entry => heap.update entry.cell (.upvalue (.closed (left.slotOrNil entry.slot))))
        left.heap).get? a = some (.upvalue (.opened opened))) :
    left.heap.get? a = some (.upvalue (.opened opened)) ∧ opened < slot := by
  by_cases hclosing : ∃ entry ∈ left.openCells.takeWhile (fun entry => slot ≤ entry.slot), entry.cell = a
  · have hthere := hcorr.heap.mem_refs_of_mentions (.inr ⟨b, hpair⟩)
    obtain ⟨held, hheld⟩ := get?_foldl_close_mem left.slotOrNil hclosing hthere
    rw [hheld] at hopened
    simp at hopened
  · rw [get?_foldl_close fun entry hentry hcell => hclosing ⟨entry, hentry, hcell.symm⟩] at hopened
    refine ⟨hopened, ?_⟩
    by_contra hslot
    refine hclosing ⟨⟨opened, a⟩, ?_, rfl⟩
    rw [(span_descending slot hcorr.leftOpen.descending).1]
    simp only [List.mem_filter, decide_eq_true_eq]
    exact ⟨(hcorr.listed a b opened hpair hopened).1, Nat.not_lt.mp hslot⟩

theorem Corresponds.closeCells (hcorr : Corresponds ρ left right) (slot : Nat) :
    Corresponds ρ (left.closeCells slot) (right.closeCells slot) := by
  have hcells := hcorr.openCells
  obtain ⟨hclosing, hstaying⟩ := forall₂_takeWhile hcells (fun entry => slot ≤ entry.slot)
    fun a b h => by simp only [h.1]
  have hleft := openCellsSound_closeCells hcorr.leftOpen slot
  have hright := openCellsSound_closeCells hcorr.rightOpen slot
  rw [closeCells_eq] at hleft hright ⊢
  rw [closeCells_eq]
  exact { hcorr with
    heap := foldl_close_related hclosing (slotOrNil_related hcorr.toSimilar) hcorr.heap
    leftovers := hcorr.leftovers.later (Renaming.le_refl ρ) (ages_foldl_close ..) (ages_foldl_close ..)
    leftOpen := hleft
    rightOpen := hright
    captured := fun first hfirst second hsecond hslot =>
      hcorr.captured first ((List.dropWhile_sublist _).mem hfirst) second
        ((List.dropWhile_sublist _).mem hsecond) hslot
    listed := fun a b opened hpair hopened => by
      have hstays := openCells_of_opened hcorr hpair slot hopened
      obtain ⟨hfirst, hsecond⟩ := hcorr.listed a b opened hpair hstays.1
      rw [(span_descending slot hcorr.leftOpen.descending).2,
        (span_descending slot hcorr.rightOpen.descending).2]
      simp only [List.mem_filter, decide_eq_true_eq]
      exact ⟨⟨hfirst, hstays.2⟩, hsecond, hstays.2⟩
    slots := by
      have hslots : ∀ {xs ys : List OpenCell},
          List.Forall₂ (fun a b => a.slot = b.slot ∧ ρ.cell a.cell b.cell) xs ys →
            xs.map (·.slot) = ys.map (·.slot) := by
        intro xs ys h
        induction h with
        | nil => rfl
        | cons hfirst _ ih => simp [hfirst.1, ih]
      exact hslots hstaying }

theorem Corresponds.resizeStack (hcorr : Corresponds ρ left right) (height : Nat) :
    Corresponds ρ (left.resizeStack height) (right.resizeStack height) := by
  refine (hcorr.cut rfl).withStack ?_
  rw [Array.toList_append, Array.toList_append, rel_size hcorr.stack, Array.toList_replicate]
  exact List.rel_append (rel_shrink hcorr.stack height) (rel_replicate (Value.related_nil ρ) _)

theorem Corresponds.reset (hcorr : Corresponds ρ left right) : Corresponds ρ left.reset right.reset :=
  { hcorr.closeCells 0 with
    leftovers := (hcorr.leftBehind 0).later (Renaming.le_refl ρ) (ages_foldl_close ..) (ages_foldl_close ..)
    stack := .nil, frames := .nil, chunk := rfl, ip := rfl, instructionStart := rfl, halted := rfl }

theorem functionName_eq (hsim : Similar ρ left right) {a b : Ref} (hpair : ρ.object a b) :
    left.functionName a = right.functionName b := by
  obtain ⟨first, second, hfirst, hsecond, hrel⟩ := hsim.heap.objects a b hpair
  simp only [functionName, hfirst, hsecond]
  cases hrel <;> rfl

end Machine

namespace Exec

variable {ρ : Renaming} {left right : Machine}

/-- Two steps that give nothing back. -/
abbrev Together (ρ : Renaming) (x y : EStateM.Result Fault Machine Unit) : Prop :=
  Calm ρ (fun _ _ => True) x y

theorem calm_modify {f g : Machine → Machine} (hcorr : Machine.Corresponds ρ (f left) (g right)) :
    Together ρ ((modify f : Exec Unit) left) ((modify g : Exec Unit) right) := .ok trivial hcorr

theorem calm_fail {α β : Type} {post : α → β → Prop} {first second : Diagnostic}
    (hsame : first = second) (hcorr : Machine.Corresponds ρ left right) :
    Calm ρ post ((fail first : Exec α) left) ((fail second : Exec β) right) :=
  (reads_fail hsame).calm hcorr

/-- One stack is full if the other is. -/
theorem full_iff (hcorr : Machine.Corresponds ρ left right) :
    left.config.maxStackSize.toNat ≤ left.stack.size ↔ right.config.maxStackSize.toNat ≤ right.stack.size := by
  rw [hcorr.config, rel_size hcorr.stack]

/-- A step that finds a value just pushed on both sides. -/
theorem calm_push_bind {γ δ : Type} {post : γ → δ → Prop} (hcorr : Machine.Corresponds ρ left right) {a b : Value}
    {f : Unit → Exec γ} {g : Unit → Exec δ}
    (hnext : Calm ρ post (f () { left with stack := left.stack.push a })
      (g () { right with stack := right.stack.push b })) :
    Calm ρ post ((push a >>= f) left) ((push b >>= g) right) := by
  simp only [push, bind_apply, get_apply, full_iff hcorr]
  by_cases hcase : right.config.maxStackSize.toNat ≤ right.stack.size
  · rw [if_pos hcase, if_pos hcase]
    exact (reads_fail rfl).calm hcorr
  · rw [if_neg hcase, if_neg hcase]
    exact hnext

theorem calm_push (hcorr : Machine.Corresponds ρ left right) {a b : Value}
    (hrel : Value.Related ρ a b) : Together ρ (push a left) (push b right) := by
  simp only [push, bind_apply, get_apply, full_iff hcorr]
  split
  · exact calm_fail rfl hcorr
  · exact .ok trivial (hcorr.withStack (rel_push hcorr.stack hrel))

theorem calm_pushAll (hcorr : Machine.Corresponds ρ left right) {first second : List Value}
    (hrel : List.Forall₂ (Value.Related ρ) first second) :
    Together ρ (pushAll first left) (pushAll second right) := by
  induction hrel generalizing left right with
  | nil => exact .ok trivial hcorr
  | cons hfirst _ ih => exact (calm_push hcorr hfirst).bind fun _ _ _ _ _ hnext => ih hnext

theorem calm_pop (hcorr : Machine.Corresponds ρ left right) :
    Calm ρ (Value.Related ρ) (pop left) (pop right) := by
  have hback := rel_back? hcorr.stack
  simp only [pop, bind_apply, get_apply]
  generalize left.stack.back? = first at hback ⊢
  generalize right.stack.back? = second at hback ⊢
  cases hback with
  | none => exact calm_fail rfl hcorr
  | some h => exact .ok h (hcorr.cut (by rw [rel_size hcorr.stack]))

theorem calm_replaceTop (hcorr : Machine.Corresponds ρ left right) (count : Nat) {a b : Value}
    (hrel : Value.Related ρ a b) : Together ρ (replaceTop count a left) (replaceTop count b right) := by
  refine (calm_modify (hcorr.cut ?_)).bind fun _ _ _ _ _ hnext => calm_push hnext hrel
  rw [rel_size hcorr.stack]

theorem calm_writeSlot (hcorr : Machine.Corresponds ρ left right) {slot : Nat}
    (hseen : Machine.SeenAlike left right slot) {a b : Value} (hrel : Value.Related ρ a b) :
    Together ρ (writeSlot slot a left) (writeSlot slot b right) := by
  have hsize := rel_size hcorr.stack
  simp only [writeSlot, bind_apply, get_apply, hsize]
  rcases hseen with hbelow | halike
  · rw [if_pos (hsize ▸ hbelow), if_pos (hsize ▸ hbelow)]
    exact .ok trivial (hcorr.withStack (rel_setIfInBounds hcorr.stack slot hrel))
  · have hroom : (left.leftovers.under right.stack.size).room = (right.leftovers.under right.stack.size).room := by
      simp only [Leftovers.under, halike.room]
      split <;> simp [halike.room]
    simp only [hroom]
    split
    · exact .ok trivial (hcorr.withStack (rel_setIfInBounds hcorr.stack slot hrel))
    · split
      · have hagree := (hcorr.leftovers.under right.stack.size right.stack.size).set slot
          (.of_related hcorr.heap hrel)
        exact .ok trivial { hcorr with leftovers := hagree }
      · exact reads_stray.calm hcorr

theorem calm_setGlobal (hcorr : Machine.Corresponds ρ left right) (slot : Nat) {a b : Value}
    (hrel : Value.Related ρ a b) : Together ρ (setGlobal slot a left) (setGlobal slot b right) :=
  .ok trivial { hcorr with globals := rel_setIfInBounds hcorr.globals slot (.some hrel) }

theorem calm_writeUpvalue (hcorr : Machine.Corresponds ρ left right) {index : Nat}
    (hseen : ∀ slot, left.upvalueSlot? index = some slot → Machine.SeenAlike left right slot) {a b : Value}
    (hrel : Value.Related ρ a b) :
    Together ρ (writeUpvalue index a left) (writeUpvalue index b right) := by
  refine (reads_upvalueCell hcorr.toSimilar index).noted.bind_calm hcorr fun first second hnoted => ?_
  obtain ⟨⟨hpair, hstates, hleft, hright⟩, hfound, -⟩ := hnoted
  obtain ⟨c, x⟩ := first
  obtain ⟨d, y⟩ := second
  cases hstates with
  | opened slot => exact calm_writeSlot hcorr (hseen slot (upvalueSlot?_of_cell hfound)) hrel
  | closed h =>
    refine calm_modify (hcorr.withHeap (hcorr.heap.update_cells hpair (.closed hrel)) (Heap.ages_update ..)
      (Heap.ages_update ..) ?_
      (fun entry hentry => Heap.get?_update_of_ne (hcorr.leftOpen.ne_of_get? hentry hleft (by simp)))
      (fun entry hentry => Heap.get?_update_of_ne (hcorr.rightOpen.ne_of_get? hentry hright (by simp))))
    intro e f slot _ hopened
    by_cases hcell : e = c
    · rw [hcell, Heap.get?_update, if_pos rfl, hleft] at hopened
      simp at hopened
    · rw [Heap.get?_update_of_ne hcell] at hopened
      exact hopened

end Exec

end OwnScript

