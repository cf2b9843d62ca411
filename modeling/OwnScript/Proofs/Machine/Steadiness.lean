import OwnScript.Proofs.Machine.Dispatch

/-!
What single steps leave alone. Only calls, returns and jumps touch the active calls, the code and the
place in it; only the making of a closure enters a closure; objects keep their kind, and closures and
strings never change.
-/

namespace OwnScript

open Stateful

/-- What a step may make of an object: its kind stays, and closures and strings stay as they are. -/
inductive Object.Kept : Object → Object → Prop where
  | string (text : String) : Kept (.string text) (.string text)
  | record (before after : Fields) : Kept (.record before) (.record after)
  | array (before after : Elements) : Kept (.array before) (.array after)
  | closure (prototype : Option Prototype) (cells : Array (Option Ref)) :
      Kept (.closure prototype cells) (.closure prototype cells)
  | upvalue (before after : Upvalue) : Kept (.upvalue before) (.upvalue after)

theorem Object.Kept.refl (object : Object) : object.Kept object := by
  cases object with
  | string text => exact .string text
  | record fields => exact .record fields fields
  | array elements => exact .array elements elements
  | closure prototype cells => exact .closure prototype cells
  | upvalue state => exact .upvalue state state

theorem Object.Kept.trans {first second third : Object} (hfirst : first.Kept second)
    (hsecond : second.Kept third) : first.Kept third := by
  cases hfirst <;> cases hsecond <;> constructor

/-- The operations after which the machine may go on elsewhere in the code. -/
def Opcode.moves : Opcode → Bool
  | .jump | .jumpIfFalse | .jumpIfTrue | .loopBack | .call | .ret | .halt => true
  | _ => false

/-- Whether an object is a closure. -/
def Object.IsClosure (object : Object) : Prop :=
  ∃ prototype cells, object = .closure prototype cells

namespace Machine

/-- What the steps of a machine rely on: new objects do not cover old ones, and the list of open
cells is one of cells. -/
structure Intact (m : Machine) : Prop where
  bounded : m.heap.Bounded
  cells : ∀ entry ∈ m.openCells, ∃ state, m.heap.get? entry.cell = some (.upvalue state)

/-- What no instruction changes. -/
structure Attached (m after : Machine) : Prop where
  config : after.config = m.config
  unit : after.unit = m.unit
  globals : after.globals.size = m.globals.size
  pinned : after.pinned = m.pinned
  hostValues : after.hostValues = m.hostValues

/-- Objects that were there before stay what they are, and the only new closures are allowed ones. -/
structure Preserved (allowed : Option Prototype → Array (Option Ref) → Prop) (m after : Machine) :
    Prop where
  intact : m.Intact → after.Intact
  kept : m.Intact → ∀ ref object, m.heap.get? ref = some object →
    ∃ now, after.heap.get? ref = some now ∧ object.Kept now
  closures : ∀ ref prototype cells, after.heap.get? ref = some (.closure prototype cells) →
    m.heap.get? ref = some (.closure prototype cells) ∨ allowed prototype cells

/-- A step that stays in the running function. -/
structure Steady (allowed : Option Prototype → Array (Option Ref) → Prop) (m after : Machine) : Prop
    extends Attached m after, Preserved allowed m after where
  frames : after.frames = m.frames
  chunk : after.chunk = m.chunk
  ip : after.ip = m.ip
  halted : after.halted = m.halted

variable {allowed : Option Prototype → Array (Option Ref) → Prop} {m middle after : Machine}

theorem Attached.trans (hfirst : Attached m middle) (hsecond : Attached middle after) :
    Attached m after :=
  ⟨hsecond.config.trans hfirst.config, hsecond.unit.trans hfirst.unit,
    hsecond.globals.trans hfirst.globals, hsecond.pinned.trans hfirst.pinned,
    hsecond.hostValues.trans hfirst.hostValues⟩

theorem Preserved.refl (m : Machine) : Preserved allowed m m :=
  ⟨id, fun _ _ object hobject => ⟨object, hobject, .refl object⟩, fun _ _ _ h => .inl h⟩

theorem Preserved.trans (hfirst : Preserved allowed m middle) (hsecond : Preserved allowed middle after) :
    Preserved allowed m after where
  intact hintact := hsecond.intact (hfirst.intact hintact)
  kept hintact ref object hobject := by
    obtain ⟨now, hnow, hkept⟩ := hfirst.kept hintact ref object hobject
    obtain ⟨later, hlater, hkept'⟩ := hsecond.kept (hfirst.intact hintact) ref now hnow
    exact ⟨later, hlater, hkept.trans hkept'⟩
  closures ref prototype cells hclosure := by
    rcases hsecond.closures ref prototype cells hclosure with h | h
    · exact hfirst.closures ref prototype cells h
    · exact .inr h

/-- Objects and open cells decide what is preserved. -/
theorem Preserved.mono {wider : Option Prototype → Array (Option Ref) → Prop}
    (hpreserved : Preserved allowed m after)
    (hwider : ∀ prototype cells, allowed prototype cells → wider prototype cells) : Preserved wider m after :=
  ⟨hpreserved.intact, hpreserved.kept, fun ref prototype cells h =>
    (hpreserved.closures ref prototype cells h).imp_right (hwider prototype cells)⟩

theorem Preserved.of_eq (hheap : after.heap = m.heap) (hcells : after.openCells = m.openCells) :
    Preserved allowed m after := by
  refine ⟨fun hintact => ⟨hheap ▸ hintact.bounded, ?_⟩, fun _ ref object hobject => ?_, ?_⟩
  · rw [hheap, hcells]
    exact hintact.cells
  · exact ⟨object, by rw [hheap]; exact hobject, .refl object⟩
  · intro ref prototype cells hclosure
    rw [hheap] at hclosure
    exact .inl hclosure

theorem Steady.refl (m : Machine) : Steady allowed m m :=
  { toAttached := ⟨rfl, rfl, rfl, rfl, rfl⟩, toPreserved := .refl m
    frames := rfl, chunk := rfl, ip := rfl, halted := rfl }

theorem Steady.trans (hfirst : Steady allowed m middle) (hsecond : Steady allowed middle after) :
    Steady allowed m after where
  toAttached := hfirst.toAttached.trans hsecond.toAttached
  toPreserved := hfirst.toPreserved.trans hsecond.toPreserved
  frames := hsecond.frames.trans hfirst.frames
  chunk := hsecond.chunk.trans hfirst.chunk
  ip := hsecond.ip.trans hfirst.ip
  halted := hsecond.halted.trans hfirst.halted

theorem Steady.mono {wider : Option Prototype → Array (Option Ref) → Prop} (hsteady : Steady allowed m after)
    (hwider : ∀ prototype cells, allowed prototype cells → wider prototype cells) :
    Steady wider m after :=
  { hsteady with
    closures := fun ref prototype cells h =>
      (hsteady.closures ref prototype cells h).imp_right (hwider prototype cells) }

theorem Steady.withStorage (m : Machine) (stack : Array Value) (leftovers : Leftovers) :
    Steady allowed m { m with stack, leftovers } :=
  { toAttached := ⟨rfl, rfl, rfl, rfl, rfl⟩, toPreserved := .of_eq rfl rfl
    frames := rfl, chunk := rfl, ip := rfl, halted := rfl }

/-- A heap in which an object was replaced by another of its kind. -/
theorem preserved_replace {heap : Heap} {target : Ref} {old new : Object}
    (hold : m.heap.get? target = some old) (hkind : old.Kept new) (hclosure : ¬ new.IsClosure)
    (hbounded : m.heap.Bounded → heap.Bounded)
    (hget : ∀ ref, heap.get? ref =
      if ref = target then (m.heap.get? ref).map (fun _ => new) else m.heap.get? ref) :
    Preserved allowed m { m with heap } := by
  have hkept (ref : Ref) (object : Object) (hobject : m.heap.get? ref = some object) :
      ∃ now, heap.get? ref = some now ∧ object.Kept now := by
    by_cases href : ref = target
    · subst href
      obtain rfl : object = old := Option.some.inj (hobject.symm.trans hold)
      exact ⟨new, by simp [hget, hobject], hkind⟩
    · exact ⟨object, by simp [hget, href, hobject], .refl object⟩
  refine ⟨fun hintact => ⟨hbounded hintact.bounded, fun entry hentry => ?_⟩, fun _ => hkept,
    fun ref prototype cells hfound => ?_⟩
  · obtain ⟨state, hstate⟩ := hintact.cells entry hentry
    obtain ⟨now, hnow, hkept⟩ := hkept _ _ hstate
    cases hkept with
    | upvalue _ after => exact ⟨after, hnow⟩
  · rw [hget] at hfound
    split at hfound
    · obtain ⟨_, -, hnew⟩ := Option.map_eq_some_iff.mp hfound
      exact absurd ⟨prototype, cells, hnew⟩ hclosure
    · exact .inl hfound

theorem steady_heap {heap : Heap} (hpreserved : Preserved allowed m { m with heap }) :
    Steady allowed m { m with heap } :=
  { toAttached := ⟨rfl, rfl, rfl, rfl, rfl⟩, toPreserved := hpreserved
    frames := rfl, chunk := rfl, ip := rfl, halted := rfl }

theorem steady_update {target : Ref} {old new : Object} (hold : m.heap.get? target = some old)
    (hkind : old.Kept new) (hclosure : ¬ new.IsClosure) :
    Steady allowed m { m with heap := m.heap.update target new } :=
  steady_heap (preserved_replace hold hkind hclosure
    (fun hbounded => hbounded.of_refs_eq (Heap.refs_update m.heap target new) rfl)
    (Heap.get?_update m.heap target new))

theorem steady_store {target : Ref} {old new : Object} (hold : m.heap.get? target = some old)
    (hkind : old.Kept new) (hclosure : ¬ new.IsClosure) :
    Steady allowed m { m with heap := m.heap.store target new } :=
  steady_heap (preserved_replace hold hkind hclosure
    (fun hbounded => hbounded.of_refs_eq (Heap.refs_store m.heap target new)
      (Heap.nextRef_store m.heap target new))
    (Heap.get?_store m.heap target new))

theorem preserved_alike {heap : Heap} (halike : Heap.Alike m.heap heap) :
    Preserved allowed m { m with heap } := by
  have hrefs : heap.refs = m.heap.refs := by
    ext ref
    simp [halike.get?]
  refine ⟨fun hintact => ⟨hintact.bounded.of_refs_eq hrefs halike.nextRef, fun entry hentry => ?_⟩,
    fun _ ref object hobject => ⟨object, (halike.get? ref).trans hobject, .refl object⟩,
    fun ref prototype cells hclosure => .inl ((halike.get? ref).symm.trans hclosure)⟩
  obtain ⟨state, hstate⟩ := hintact.cells entry hentry
  exact ⟨state, (halike.get? _).trans hstate⟩

/-- A new object. -/
theorem preserved_link (object : Object)
    (hallowed : ∀ prototype cells, object = .closure prototype cells → allowed prototype cells) :
    Preserved allowed m { m with heap := m.heap.link object } := by
  have hkept (hintact : m.Intact) (ref : Ref) (found : Object) (hfound : m.heap.get? ref = some found) :
      (m.heap.link object).get? ref = some found := by
    rw [Heap.get?_link, if_neg (Nat.ne_of_lt (hintact.bounded ref found hfound))]
    exact hfound
  refine ⟨fun hintact => ⟨hintact.bounded.link object, fun entry hentry => ?_⟩,
    fun hintact ref found hfound => ⟨found, hkept hintact ref found hfound, .refl found⟩,
    fun ref prototype cells hclosure => ?_⟩
  · obtain ⟨state, hstate⟩ := hintact.cells entry hentry
    exact ⟨state, hkept hintact _ _ hstate⟩
  · change (m.heap.link object).get? ref = _ at hclosure
    rw [Heap.get?_link] at hclosure
    split at hclosure
    · exact .inr (hallowed prototype cells (Option.some.inj hclosure))
    · exact .inl hclosure

theorem refs_foldl_close (closing : List OpenCell) (value : Nat → Value) (heap : Heap) :
    (closing.foldl (fun heap entry => heap.update entry.cell (.upvalue (.closed (value entry.slot))))
      heap).refs = heap.refs ∧
    (closing.foldl (fun heap entry => heap.update entry.cell (.upvalue (.closed (value entry.slot))))
      heap).nextRef = heap.nextRef := by
  induction closing generalizing heap with
  | nil => exact ⟨rfl, rfl⟩
  | cons entry rest ih =>
    obtain ⟨hrefs, hnext⟩ := ih (heap.update entry.cell (.upvalue (.closed (value entry.slot))))
    exact ⟨hrefs.trans (Heap.refs_update ..), hnext⟩

/-- Cells that are closed stay cells, and everything else stays as it is. -/
theorem preserved_closeCells (m : Machine) (slot : Nat) : Preserved allowed m (m.closeCells slot) := by
  rw [closeCells_eq]
  have hclosing : ∀ entry ∈ m.openCells.takeWhile (fun entry => slot ≤ entry.slot), entry ∈ m.openCells :=
    fun entry hentry => (List.takeWhile_prefix _).subset hentry
  have hstaying : ∀ entry ∈ m.openCells.dropWhile (fun entry => slot ≤ entry.slot), entry ∈ m.openCells :=
    fun entry hentry => (List.dropWhile_suffix _).subset hentry
  generalize m.openCells.takeWhile (fun entry => slot ≤ entry.slot) = closing at hclosing ⊢
  generalize m.openCells.dropWhile (fun entry => slot ≤ entry.slot) = staying at hstaying ⊢
  obtain ⟨hrefs, hnext⟩ := refs_foldl_close closing m.slotOrNil m.heap
  have hlisted {ref : Ref} (h : ∃ entry ∈ closing, entry.cell = ref) (hthere : ref ∈ m.heap.refs) :=
    get?_foldl_close_mem m.slotOrNil h hthere
  have hother {ref : Ref} (h : ¬ ∃ entry ∈ closing, entry.cell = ref) :
      (closing.foldl (fun heap entry =>
        heap.update entry.cell (.upvalue (.closed (m.slotOrNil entry.slot)))) m.heap).get? ref =
      m.heap.get? ref :=
    get?_foldl_close fun entry hentry hcell => h ⟨entry, hentry, hcell.symm⟩
  generalize closing.foldl (fun heap entry =>
    heap.update entry.cell (.upvalue (.closed (m.slotOrNil entry.slot)))) m.heap = closed
    at hrefs hnext hlisted hother ⊢
  have hkept (hintact : m.Intact) (ref : Ref) (object : Object) (hobject : m.heap.get? ref = some object) :
      ∃ now, closed.get? ref = some now ∧ object.Kept now := by
    by_cases h : ∃ entry ∈ closing, entry.cell = ref
    · obtain ⟨held, hheld⟩ := hlisted h (Heap.mem_refs.mpr ⟨object, hobject⟩)
      obtain ⟨entry, hentry, rfl⟩ := h
      obtain ⟨state, hstate⟩ := hintact.cells entry (hclosing entry hentry)
      obtain rfl : object = .upvalue state := Option.some.inj (hobject.symm.trans hstate)
      exact ⟨_, hheld, .upvalue _ _⟩
    · exact ⟨object, (hother h).trans hobject, .refl object⟩
  refine ⟨fun hintact => ⟨hintact.bounded.of_refs_eq hrefs hnext, fun entry hentry => ?_⟩, hkept,
    fun ref prototype cells hclosure => ?_⟩
  · obtain ⟨state, hstate⟩ := hintact.cells entry (hstaying entry hentry)
    obtain ⟨now, hnow, hsame⟩ := hkept hintact _ _ hstate
    cases hsame with
    | upvalue _ after => exact ⟨after, hnow⟩
  · refine .inl ?_
    by_cases h : ∃ entry ∈ closing, entry.cell = ref
    · have hthere : ref ∈ m.heap.refs := by
        rw [← hrefs]
        exact Heap.mem_refs.mpr ⟨_, hclosure⟩
      obtain ⟨held, hheld⟩ := hlisted h hthere
      rw [hheld] at hclosure
      cases hclosure
    · exact (hother h).symm.trans hclosure

theorem steady_closeCells (m : Machine) (slot : Nat) : Steady allowed m (m.closeCells slot) where
  toPreserved := preserved_closeCells m slot
  config := rfl
  unit := rfl
  globals := rfl
  pinned := rfl
  hostValues := rfl
  frames := rfl
  chunk := rfl
  ip := rfl
  halted := rfl

end Machine

namespace Exec

open Machine

variable {allowed : Option Prototype → Array (Option Ref) → Prop} {α β : Type} {m : Machine}

theorem stateAfter_bind {x : Exec α} {f : α → Exec β} :
    stateAfter ((x >>= f) m) =
      match x m with
      | .ok a middle => stateAfter (f a middle)
      | .error _ after => after := by
  rw [bind_apply]
  cases x m <;> rfl

/-- A step that only looks at the machine. -/
def Looks (x : Exec α) : Prop :=
  ∀ m, stateAfter (x m) = m

theorem Looks.bind {x : Exec α} {f : α → Exec β} (hfirst : Looks x) (hnext : ∀ a, Looks (f a)) :
    Looks (x >>= f) := by
  intro m
  have hsame := hfirst m
  rw [stateAfter_bind]
  generalize x m = result at hsame ⊢
  cases result with
  | ok a middle => exact (hnext a middle).trans hsame
  | error fault after => exact hsame

theorem looks_pure (a : α) : Looks (pure a : Exec α) := fun _ => rfl

theorem looks_get : Looks (get : Exec Machine) := fun _ => rfl

theorem looks_throw (fault : Fault) : Looks (throw fault : Exec α) := fun _ => rfl

theorem looks_fail (diagnostic : Diagnostic) : Looks (fail diagnostic : Exec α) := fun _ => rfl

theorem looks_expect (found : Option α) : Looks (expect found) := by
  cases found with
  | none => exact looks_throw _
  | some value => exact looks_pure value

theorem looks_ofExcept (result : Except Diagnostic α) : Looks (ofExcept result) := by
  cases result with
  | error diagnostic => exact looks_fail _
  | ok value => exact looks_pure value

theorem looks_peek (distance : Nat) : Looks (peek distance) := by
  refine looks_get.bind fun m => ?_
  split
  · exact looks_expect _
  · exact looks_fail _

theorem looks_frame : Looks frame := looks_get.bind fun _ => looks_expect _

theorem looks_chunk : Looks chunk := looks_get.bind fun _ => looks_expect _

theorem looks_localIndex (slot : Nat) : Looks (localIndex slot) := by
  refine looks_frame.bind fun _ => looks_get.bind fun _ => ?_
  split
  · exact looks_pure _
  · exact looks_fail _

theorem looks_readSlot (slot : Nat) : Looks (readSlot slot) := looks_get.bind fun _ => looks_expect _

theorem looks_definedGlobal (slot : Nat) (verb : String) : Looks (definedGlobal slot verb) := by
  refine looks_get.bind fun m => (looks_expect _).bind fun value => ?_
  cases value with
  | some value => exact looks_pure _
  | none => exact (looks_expect _).bind fun _ => looks_fail _

theorem looks_upvalues : Looks upvalues := by
  refine looks_get.bind fun m => looks_frame.bind fun frame => ?_
  split
  · exact looks_pure _
  · exact looks_throw _

theorem looks_upvalueCell (index : Nat) : Looks (upvalueCell index) := by
  refine looks_upvalues.bind fun _ => (looks_expect _).bind fun _ => (looks_expect _).bind fun _ =>
    looks_get.bind fun m => ?_
  split
  · exact looks_pure _
  · exact looks_throw _

theorem looks_readUpvalue (index : Nat) : Looks (readUpvalue index) := by
  refine (looks_upvalueCell index).bind fun cell => ?_
  split
  · exact looks_readSlot _
  · exact looks_pure _

theorem looks_topValues (count : Nat) : Looks (topValues count) := by
  refine looks_get.bind fun m => ?_
  split
  · exact (looks_fail _).bind fun _ => looks_pure _
  · exact looks_pure _

theorem looks_checkedIndex (elements : Elements) (index : Value) : Looks (checkedIndex elements index) := by
  unfold checkedIndex
  split
  · split
    · exact (looks_fail _).bind fun _ => looks_pure _
    · exact looks_pure _
  · exact looks_get.bind fun _ => looks_fail _

theorem looks_matchSlots (matchers : List Matcher) (slot : Nat) (bound : List Value) :
    Looks (matchSlots matchers slot bound) := by
  induction matchers generalizing slot bound with
  | nil => exact looks_pure _
  | cons matcher rest ih =>
    unfold matchSlots
    split
    · exact ih _ _
    · refine (looks_readSlot slot).bind fun value => looks_get.bind fun m => ?_
      split
      · exact looks_pure _
      · exact ih _ _

section Steps

variable {x : Exec α} {f : α → Exec β}

theorem steady_bind (hfirst : Steady allowed m (stateAfter (x m)))
    (hnext : ∀ a middle, x m = .ok a middle → Steady allowed middle (stateAfter (f a middle))) :
    Steady allowed m (stateAfter ((x >>= f) m)) := by
  rw [stateAfter_bind]
  cases hresult : x m with
  | ok a middle =>
    rw [hresult] at hfirst
    exact hfirst.trans (hnext a middle hresult)
  | error fault after =>
    rw [hresult] at hfirst
    exact hfirst

theorem Looks.steady (hlooks : Looks x) : Steady allowed m (stateAfter (x m)) := by
  rw [hlooks m]
  exact .refl m

theorem Looks.bind_steady (hlooks : Looks x)
    (hnext : ∀ a, x m = .ok a m → Steady allowed m (stateAfter (f a m))) :
    Steady allowed m (stateAfter ((x >>= f) m)) := by
  refine steady_bind hlooks.steady fun a middle hresult => ?_
  have hsame := hlooks m
  rw [hresult] at hsame
  obtain rfl : middle = m := hsame
  exact hnext a hresult

theorem steady_push (value : Value) : Steady allowed m (stateAfter (push value m)) := by
  simp only [push]
  rw [get_bind_apply]
  split
  · exact .refl m
  · exact .withStorage m _ _

theorem steady_pushAll (values : List Value) : Steady allowed m (stateAfter (pushAll values m)) := by
  induction values generalizing m with
  | nil => exact .refl m
  | cons value rest ih => exact steady_bind (steady_push value) fun _ _ _ => ih

theorem steady_pop : Steady allowed m (stateAfter (pop m)) := by
  simp only [pop]
  rw [get_bind_apply]
  cases m.stack.back? with
  | some value => exact .withStorage m _ _
  | none => exact .refl m

theorem steady_replaceTop (count : Nat) (value : Value) :
    Steady allowed m (stateAfter (replaceTop count value m)) :=
  (Steady.withStorage m _ _).trans (steady_push value)

theorem steady_writeSlot (slot : Nat) (value : Value) :
    Steady allowed m (stateAfter (writeSlot slot value m)) := by
  simp only [writeSlot]
  rw [get_bind_apply]
  split
  · exact .withStorage m _ _
  · split
    · exact .withStorage m _ _
    · exact .refl m

theorem steady_setGlobal (slot : Nat) (value : Value) :
    Steady allowed m (stateAfter (setGlobal slot value m)) :=
  { toAttached := ⟨rfl, rfl, by simp [setGlobal, stateAfter], rfl, rfl⟩, toPreserved := .of_eq rfl rfl
    frames := rfl, chunk := rfl, ip := rfl, halted := rfl }

theorem upvalueCell_get? {index : Nat} {cell : Ref} {state : Upvalue} {after : Machine}
    (hresult : upvalueCell index m = .ok (cell, state) after) :
    m.heap.get? cell = some (.upvalue state) := by
  simp only [upvalueCell, bind_eq_ok] at hresult
  obtain ⟨cells, first, hcells, entry, second, hentry, found, third, hfound, state', fourth, hstate,
    hlast⟩ := hresult
  have hfirst := looks_upvalues m
  rw [hcells] at hfirst
  have hsecond := looks_expect cells[index]? first
  rw [hentry] at hsecond
  have hthird := looks_expect entry second
  rw [hfound] at hthird
  obtain rfl : first = m := hfirst
  obtain rfl : second = first := hsecond
  obtain rfl : third = second := hthird
  cases hstate
  generalize hget : third.heap.get? found = object at hlast
  rcases object with _ | _ | _ | _ | _ | state'
  · cases hlast
  · cases hlast
  · cases hlast
  · cases hlast
  · cases hlast
  · cases hlast
    exact hget

theorem steady_writeUpvalue (index : Nat) (value : Value) :
    Steady allowed m (stateAfter (writeUpvalue index value m)) := by
  refine (looks_upvalueCell index).bind_steady fun entry hentry => ?_
  obtain ⟨cell, state⟩ := entry
  have hget := upvalueCell_get? hentry
  cases state with
  | opened slot => exact steady_writeSlot slot value
  | closed held => exact steady_update hget (.upvalue _ _) (by simp [Object.IsClosure])

theorem steady_allocate (object : Object)
    (hallowed : ∀ prototype cells, object = .closure prototype cells → allowed prototype cells) :
    Steady allowed m (stateAfter (onHeap (Heap.allocate object) m)) := by
  rcases Heap.allocate_cases object m.heap with
    ⟨parked, halike, -, -, hresult⟩ | ⟨-, hresult⟩ | ⟨parked, halike, -, -, hresult⟩
  · simp only [onHeap, hresult]
    exact (steady_heap (preserved_alike halike)).trans
      (steady_heap (m := { m with heap := parked }) (preserved_link object hallowed))
  · simp only [onHeap, hresult]
    exact .refl m
  · simp only [onHeap, hresult]
    exact steady_heap (preserved_alike halike)

theorem steady_allocate_other {object : Object} (hother : ¬ object.IsClosure) :
    Steady allowed m (stateAfter (onHeap (Heap.allocate object) m)) :=
  steady_allocate object fun prototype cells h => absurd ⟨prototype, cells, h⟩ hother

theorem get?_of_allocate {object : Object} {ref : Ref} {after : Machine}
    (hresult : onHeap (Heap.allocate object) m = .ok ref after) :
    ref = m.heap.nextRef ∧ after.heap.get? ref = some object := by
  rcases Heap.allocate_cases object m.heap with
    ⟨parked, halike, -, -, heq⟩ | ⟨-, heq⟩ | ⟨parked, halike, -, -, heq⟩
  · simp only [onHeap, heq] at hresult
    cases hresult
    exact ⟨rfl, by simp [Heap.get?_link, halike.nextRef]⟩
  · simp [onHeap, heq] at hresult
  · simp [onHeap, heq] at hresult

theorem looks_ensureHeadroom (bytes : UInt64) : Looks (onHeap (Heap.ensureHeadroom bytes)) := by
  intro m
  rcases onHeap_ensureHeadroom_cases bytes m with ⟨hresult, -⟩ | ⟨hresult, -⟩
  · rw [hresult]
    rfl
  · rw [hresult]
    rfl

end Steps

section Instructions

theorem steady_binary (operator : Heap → Value → Value → Except Diagnostic Value) :
    Steady allowed m (stateAfter (binary operator m)) :=
  (looks_peek 0).bind_steady fun _ _ => (looks_peek 1).bind_steady fun _ _ =>
    looks_get.bind_steady fun _ _ => (looks_ofExcept _).bind_steady fun _ _ => steady_replaceTop 2 _

theorem steady_unary (operator : Heap → Value → Except Diagnostic Value) :
    Steady allowed m (stateAfter (unary operator m)) :=
  (looks_peek 0).bind_steady fun _ _ => looks_get.bind_steady fun _ _ =>
    (looks_ofExcept _).bind_steady fun _ _ => steady_replaceTop 1 _

theorem steady_equality (negated : Bool) : Steady allowed m (stateAfter (equality negated m)) :=
  steady_bind steady_pop fun _ _ _ => steady_bind steady_pop fun _ _ _ =>
    looks_get.bind_steady fun _ _ => steady_push _

theorem steady_captureCell (slot : Nat) : Steady allowed m (stateAfter (captureCell slot m)) := by
  simp only [captureCell]
  rw [get_bind_apply]
  cases m.openCells.find? (fun entry => entry.slot == slot) with
  | some entry => exact .refl m
  | none =>
    refine steady_bind (steady_allocate_other (by simp [Object.IsClosure])) fun cell middle hresult => ?_
    obtain ⟨-, hcell⟩ := get?_of_allocate hresult
    refine
      { toAttached := ⟨rfl, rfl, rfl, rfl, rfl⟩
        toPreserved := ⟨fun hintact => ⟨hintact.bounded, fun entry hentry => ?_⟩,
          fun _ ref object hobject => ⟨object, hobject, .refl object⟩, fun _ _ _ h => .inl h⟩
        frames := rfl, chunk := rfl, ip := rfl, halted := rfl }
    rcases mem_insertCell.mp hentry with rfl | hold
    · exact ⟨_, hcell⟩
    · exact hintact.cells entry hold

theorem steady_captureAll (base : Nat) (outer : Array (Option Ref)) (captures : List Capture)
    (cells : List (Option Ref)) :
    Steady allowed m (stateAfter (captureAll base outer captures cells m)) := by
  induction captures generalizing m cells with
  | nil => exact .refl m
  | cons capture rest ih =>
    simp only [captureAll]
    split
    · refine steady_bind ?_ fun _ _ _ => ih _
      have hcell : Steady allowed m (stateAfter (captureCell (base + capture.index) m)) :=
        steady_captureCell _
      rw [map_apply]
      generalize captureCell (base + capture.index) m = result at hcell ⊢
      cases result with
      | ok => exact hcell
      | error => exact hcell
    · exact (looks_expect _).bind_steady fun _ _ => ih _

theorem length_captureAll {base : Nat} {outer : Array (Option Ref)} {captures : List Capture}
    {cells result : List (Option Ref)} {after : Machine}
    (hresult : captureAll base outer captures cells m = .ok result after) :
    result.length = captures.length + cells.length := by
  induction captures generalizing m cells with
  | nil =>
    cases hresult
    simp
  | cons capture rest ih =>
    have hsplit : ∃ cell middle, captureAll base outer rest (cell :: cells) middle = .ok result after := by
      simp only [captureAll] at hresult
      split at hresult
      · obtain ⟨cell, middle, -, hrest⟩ := bind_eq_ok.mp hresult
        exact ⟨cell, middle, hrest⟩
      · obtain ⟨cell, middle, -, hrest⟩ := bind_eq_ok.mp hresult
        exact ⟨cell, middle, hrest⟩
    obtain ⟨cell, middle, hrest⟩ := hsplit
    rw [ih hrest, List.length_cons, List.length_cons]
    omega

/-- An object under construction is finished. -/
theorem preserved_finish {linked middle : Machine} {closure : Ref} {prototype : Prototype}
    {cells : Array (Option Ref)} (hlinked : Preserved allowed m linked)
    (hmiddle : Preserved allowed linked middle) (hfresh : closure = m.heap.nextRef)
    (hget : linked.heap.get? closure = some (.unboundClosure (some prototype)))
    (hallowed : allowed (some prototype) cells) :
    Preserved allowed m
      { middle with heap := middle.heap.update closure (.closure (some prototype) cells) } := by
  have hboth := hlinked.trans hmiddle
  refine ⟨fun hintact => ⟨?_, fun entry hentry => ?_⟩, fun hintact ref object hobject => ?_,
    fun ref function found hclosure => ?_⟩
  · exact (hboth.intact hintact).bounded.of_refs_eq (Heap.refs_update ..) rfl
  · obtain ⟨state, hstate⟩ := (hboth.intact hintact).cells entry hentry
    obtain ⟨now, hnow, hkept⟩ := hmiddle.kept (hlinked.intact hintact) _ _ hget
    have hne : entry.cell ≠ closure := by
      intro heq
      rw [heq, hnow, Option.some.injEq] at hstate
      subst hstate
      cases hkept
    exact ⟨state, (Heap.get?_update_of_ne hne).trans hstate⟩
  · obtain ⟨now, hnow, hkept⟩ := hboth.kept hintact ref object hobject
    have hne : ref ≠ closure := by
      rw [hfresh]
      exact Nat.ne_of_lt (hintact.bounded ref object hobject)
    exact ⟨now, (Heap.get?_update_of_ne hne).trans hnow, hkept⟩
  · change (middle.heap.update closure _).get? ref = _ at hclosure
    rw [Heap.get?_update] at hclosure
    split at hclosure
    · obtain ⟨_, -, hnew⟩ := Option.map_eq_some_iff.mp hclosure
      cases hnew
      exact .inr hallowed
    · exact hboth.closures ref function found hclosure

/-- A closure is entered, and no other. -/
theorem steady_pushClosure (prototype : Prototype) :
    Steady (fun function cells => function = some prototype ∧ cells.size = prototype.captures.size) m
      (stateAfter (pushClosure prototype m)) := by
  have hunbound : ∀ function cells,
      Object.unboundClosure (some prototype) = .closure function cells →
        function = some prototype ∧ cells.size = prototype.captures.size := by
    intro function cells h
    simp only [Object.unboundClosure, Object.closure.injEq] at h
    obtain ⟨rfl, rfl⟩ := h
    simp
  rw [pushClosure_eq, stateAfter_bind]
  have hallocated := steady_allocate (m := m) _ hunbound
  cases hresult : onHeap (Heap.allocate (.unboundClosure (some prototype))) m with
  | error fault after =>
    rw [hresult] at hallocated
    exact hallocated
  | ok closure linked =>
    rw [hresult] at hallocated
    obtain ⟨hfresh, hget⟩ := get?_of_allocate hresult
    by_cases hrunning : ∃ frame outer, Running linked frame outer
    · obtain ⟨frame, outer, hrunning⟩ := hrunning
      dsimp only
      rw [hrunning.bindClosure, stateAfter_bind]
      have hcaptured : Steady
          (fun function cells => function = some prototype ∧ cells.size = prototype.captures.size) linked
          (stateAfter (captureAll frame.base outer prototype.captures.toList [] linked)) :=
        steady_captureAll _ _ _ _
      cases hcells : captureAll frame.base outer prototype.captures.toList [] linked with
      | error fault after =>
        rw [hcells] at hcaptured
        exact hallocated.trans hcaptured
      | ok cells middle =>
        rw [hcells] at hcaptured
        have hboth := hallocated.trans hcaptured
        have hlength := length_captureAll hcells
        refine Steady.trans ?_ (steady_push (.ofRef closure))
        refine { hboth with
          toPreserved := preserved_finish hallocated.toPreserved hcaptured.toPreserved hfresh hget ⟨rfl, ?_⟩ }
        simpa using hlength
    · dsimp only
      rw [(bindClosure_of_not_running (fun frame outer h => hrunning ⟨frame, outer, h⟩) prototype closure).2]
      exact hallocated

theorem expectRecord_cases (value : Value) (what : String) (m : Machine) :
    (∃ ref fields, m.heap.get? ref = some (.record fields) ∧
      expectRecord value what m = .ok (ref, fields) m) ∨
    ∃ message, expectRecord value what m = .error (.failure (typeError message)) m := by
  simp only [expectRecord]
  rw [get_bind_apply]
  cases value with
  | scalar scalar => exact .inr ⟨_, rfl⟩
  | object target =>
    cases target with
    | none => exact .inr ⟨_, rfl⟩
    | some ref =>
      simp only [Heap.objectOf?, Value.ref?, Option.bind_some]
      rcases hget : m.heap.get? ref with _ | _ | fields | _ | _ | _
      · exact .inr ⟨_, rfl⟩
      · exact .inr ⟨_, rfl⟩
      · exact .inl ⟨ref, fields, hget, rfl⟩
      · exact .inr ⟨_, rfl⟩
      · exact .inr ⟨_, rfl⟩
      · exact .inr ⟨_, rfl⟩

theorem expectArray_cases (value : Value) (what : String) (m : Machine) :
    (∃ ref elements, m.heap.get? ref = some (.array elements) ∧
      expectArray value what m = .ok (ref, elements) m) ∨
    ∃ message, expectArray value what m = .error (.failure (typeError message)) m := by
  simp only [expectArray]
  rw [get_bind_apply]
  cases value with
  | scalar scalar => exact .inr ⟨_, rfl⟩
  | object target =>
    cases target with
    | none => exact .inr ⟨_, rfl⟩
    | some ref =>
      simp only [Heap.objectOf?, Value.ref?, Option.bind_some]
      rcases hget : m.heap.get? ref with _ | _ | _ | elements | _ | _
      · exact .inr ⟨_, rfl⟩
      · exact .inr ⟨_, rfl⟩
      · exact .inr ⟨_, rfl⟩
      · exact .inl ⟨ref, elements, hget, rfl⟩
      · exact .inr ⟨_, rfl⟩
      · exact .inr ⟨_, rfl⟩

/-- A step on the record that a value refers to. -/
theorem steady_record {value : Value} {what : String} {f : Ref × Fields → Exec β}
    (hnext : ∀ ref fields, m.heap.get? ref = some (.record fields) →
      Steady allowed m (stateAfter (f (ref, fields) m))) :
    Steady allowed m (stateAfter ((expectRecord value what >>= f) m)) := by
  rw [stateAfter_bind]
  rcases expectRecord_cases value what m with ⟨ref, fields, hget, hresult⟩ | ⟨message, hresult⟩
  · rw [hresult]
    exact hnext ref fields hget
  · rw [hresult]
    exact .refl m

/-- A step on the array that a value refers to. -/
theorem steady_array {value : Value} {what : String} {f : Ref × Elements → Exec β}
    (hnext : ∀ ref elements, m.heap.get? ref = some (.array elements) →
      Steady allowed m (stateAfter (f (ref, elements) m))) :
    Steady allowed m (stateAfter ((expectArray value what >>= f) m)) := by
  rw [stateAfter_bind]
  rcases expectArray_cases value what m with ⟨ref, elements, hget, hresult⟩ | ⟨message, hresult⟩
  · rw [hresult]
    exact hnext ref elements hget
  · rw [hresult]
    exact .refl m

theorem steady_getField (name : String) : Steady allowed m (stateAfter (getField name m)) := by
  refine (looks_peek 0).bind_steady fun value _ => steady_record fun ref fields _ => ?_
  dsimp only
  cases fields.find? name with
  | some value => exact steady_replaceTop 1 value
  | none => exact .refl m

theorem steady_setField (name : String) : Steady allowed m (stateAfter (setField name m)) := by
  refine (looks_peek 0).bind_steady fun value _ => (looks_peek 1).bind_steady fun record _ =>
    steady_record fun ref fields hget => ?_
  dsimp only
  split
  · exact (steady_update hget (.record _ _) (by simp [Object.IsClosure])).trans (steady_replaceTop 2 value)
  · refine (looks_ensureHeadroom _).bind_steady fun _ _ => ?_
    exact (steady_store hget (.record _ _) (by simp [Object.IsClosure])).trans (steady_replaceTop 2 value)

theorem steady_getIndex : Steady allowed m (stateAfter (getIndex m)) :=
  (looks_peek 0).bind_steady fun _ _ => (looks_peek 1).bind_steady fun _ _ =>
    steady_array fun _ _ _ => (looks_checkedIndex _ _).bind_steady fun _ _ =>
      (looks_expect _).bind_steady fun _ _ => steady_replaceTop 2 _

theorem steady_setIndex : Steady allowed m (stateAfter (setIndex m)) := by
  refine (looks_peek 0).bind_steady fun value _ => (looks_peek 1).bind_steady fun _ _ =>
    (looks_peek 2).bind_steady fun _ _ => steady_array fun ref elements hget =>
      (looks_checkedIndex _ _).bind_steady fun position _ => ?_
  exact (steady_update hget (.array _ _) (by simp [Object.IsClosure])).trans (steady_replaceTop 3 value)

theorem steady_build {empty object : Object} (hkept : empty.Kept object) (hempty : ¬ empty.IsClosure)
    (hobject : ¬ object.IsClosure) (bytes : UInt64) (count : Nat) :
    Steady allowed m (stateAfter (build bytes empty object count m)) := by
  refine (looks_ensureHeadroom bytes).bind_steady fun _ _ =>
    steady_bind (steady_allocate_other hempty) fun ref middle hresult => ?_
  obtain ⟨-, hget⟩ := get?_of_allocate hresult
  exact (steady_store hget hkept hobject).trans (steady_replaceTop count _)

theorem steady_pushMatch (bound : Option (List Value)) :
    Steady allowed m (stateAfter (pushMatch bound m)) := by
  cases bound with
  | none => exact steady_push _
  | some values => exact steady_bind (steady_pushAll values) fun _ _ _ => steady_push _

theorem steady_matchArguments (parameters : List Matcher) :
    Steady allowed m (stateAfter (matchArguments parameters m)) := by
  refine looks_frame.bind_steady fun frame _ => ?_
  split
  · exact (looks_matchSlots _ _ _).bind_steady fun bound _ => steady_pushMatch bound
  · exact steady_pushMatch none

/-- An instruction that does not move elsewhere in the code stays in the running function. -/
theorem steady_execute {op : Opcode} (hmoves : op.moves = false) (a b : Nat)
    (hclosure : op = .closure → ∀ chunk prototype, m.chunk = some chunk →
      chunk.functions[a]? = some (some prototype) → ∀ cells : Array (Option Ref),
        cells.size = prototype.captures.size → allowed (some prototype) cells) :
    Steady allowed m (stateAfter (execute op a b m)) := by
  cases op with
  | constant =>
    refine looks_chunk.bind_steady fun chunk _ => (looks_expect _).bind_steady fun value _ => ?_
    cases value with
    | scalar value => exact steady_push _
    | _ => exact .refl m
  | string =>
    refine looks_chunk.bind_steady fun chunk _ => (looks_expect _).bind_steady fun text _ => ?_
    exact steady_bind (steady_allocate_other (by simp [Object.IsClosure])) fun _ _ _ => steady_push _
  | pushNil => exact steady_push _
  | pushTrue => exact steady_push _
  | pushFalse => exact steady_push _
  | pop => exact steady_bind steady_pop fun _ middle _ => .refl middle
  | popMany =>
    refine looks_get.bind_steady fun _ _ => ?_
    split
    · exact .refl m
    · exact .withStorage m _ _
  | dup => exact (looks_peek 0).bind_steady fun _ _ => steady_push _
  | add | subtract | multiply | divide | modulo => exact steady_binary (·.arithmetic _)
  | negate => exact steady_unary _
  | bitwiseAnd | bitwiseOr | bitwiseXor | leftShift | rightShift => exact steady_binary (·.bitwise _)
  | bitwiseNot => exact steady_unary _
  | equal => exact steady_equality false
  | notEqual => exact steady_equality true
  | less | greater | lessEqual | greaterEqual => exact steady_binary (·.comparison _)
  | logicalNot => exact steady_bind steady_pop fun _ _ _ => steady_push _
  | getGlobal => exact (looks_definedGlobal a _).bind_steady fun _ _ => steady_push _
  | setGlobal => exact (looks_peek 0).bind_steady fun _ _ => steady_setGlobal a _
  | moveGlobal =>
    exact (looks_definedGlobal a _).bind_steady fun _ _ =>
      steady_bind (steady_push _) fun _ _ _ => steady_setGlobal a _
  | getLocal =>
    exact (looks_localIndex a).bind_steady fun _ _ => (looks_readSlot _).bind_steady fun _ _ => steady_push _
  | setLocal =>
    exact (looks_peek 0).bind_steady fun _ _ => (looks_localIndex a).bind_steady fun _ _ =>
      steady_writeSlot _ _
  | moveLocal =>
    exact (looks_localIndex a).bind_steady fun _ _ => (looks_readSlot _).bind_steady fun _ _ =>
      steady_bind (steady_push _) fun _ _ _ => steady_writeSlot _ _
  | getUpvalue => exact (looks_readUpvalue a).bind_steady fun _ _ => steady_push _
  | setUpvalue => exact (looks_peek 0).bind_steady fun _ _ => steady_writeUpvalue a _
  | moveUpvalue =>
    exact (looks_readUpvalue a).bind_steady fun _ _ =>
      steady_bind (steady_push _) fun _ _ _ => steady_writeUpvalue a _
  | closeUpvalue =>
    refine steady_bind ?_ fun _ _ _ => steady_bind steady_pop fun _ middle _ => .refl middle
    rw [modify_apply]
    dsimp only [stateAfter]
    split
    · exact .refl m
    · exact steady_closeCells m _
  | closure =>
    cases hchunk : m.chunk with
    | none =>
      simp only [execute, Exec.chunk]
      rw [stateAfter_bind, get_bind_apply, hchunk]
      exact .refl m
    | some chunk =>
      rw [execute_closure a b hchunk]
      cases hfunction : chunk.functions[a]? with
      | none => exact .refl m
      | some function =>
        cases function with
        | none => exact .refl m
        | some prototype =>
          refine (steady_pushClosure prototype).mono fun function cells h => ?_
          obtain ⟨rfl, hsize⟩ := h
          exact hclosure rfl chunk prototype hchunk hfunction cells hsize
  | record =>
    refine looks_chunk.bind_steady fun chunk _ => (looks_expect _).bind_steady fun names _ =>
      (looks_topValues _).bind_steady fun values _ => ?_
    exact steady_build (.record _ _) (by simp [Object.IsClosure]) (by simp [Object.IsClosure]) _ _
  | getField =>
    exact looks_chunk.bind_steady fun _ _ => (looks_expect _).bind_steady fun _ _ => steady_getField _
  | setField =>
    exact looks_chunk.bind_steady fun _ _ => (looks_expect _).bind_steady fun _ _ => steady_setField _
  | array =>
    refine (looks_topValues a).bind_steady fun values _ => ?_
    exact steady_build (.array _ _) (by simp [Object.IsClosure]) (by simp [Object.IsClosure]) _ _
  | getIndex => exact steady_getIndex
  | setIndex => exact steady_setIndex
  | matchValue =>
    exact looks_chunk.bind_steady fun _ _ => (looks_expect _).bind_steady fun _ _ =>
      (looks_localIndex b).bind_steady fun _ _ => (looks_readSlot _).bind_steady fun _ _ =>
        looks_get.bind_steady fun _ _ => steady_pushMatch _
  | matchArgs =>
    exact looks_chunk.bind_steady fun _ _ => (looks_expect _).bind_steady fun _ _ =>
      steady_matchArguments _
  | noMatchingArm => exact .refl m
  | noMatchingOverload =>
    exact looks_frame.bind_steady fun _ _ => looks_get.bind_steady fun _ _ => .refl m
  | printTop =>
    refine steady_bind steady_pop fun value middle _ => ?_
    exact
      { toAttached := ⟨rfl, rfl, rfl, rfl, rfl⟩, toPreserved := .of_eq rfl rfl
        frames := rfl, chunk := rfl, ip := rfl, halted := rfl }
  | jump | jumpIfFalse | jumpIfTrue | loopBack | call | ret | halt => cases hmoves

end Instructions

end Exec

end OwnScript
