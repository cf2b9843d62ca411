import OwnScript.Proofs.Machine.Correspondence

/-!
Steps taken side by side on machines that agree up to a renaming. A step that only looks at the
machine gives the same answer on both sides; a step that changes it keeps the two together. Steps
that need storage are apart, since one side may find its heap full when the other does not.
-/

namespace OwnScript

open Stateful

section Sequences

variable {α β : Type} {r : α → β → Prop} {xs : Array α} {ys : Array β}

theorem rel_getElem? {first : List α} {second : List β} (hrel : List.Forall₂ r first second)
    (i : Nat) : Option.Rel r first[i]? second[i]? := by
  induction hrel generalizing i with
  | nil => exact .none
  | cons hfirst _ ih =>
    cases i with
    | zero => exact .some hfirst
    | succ i => simpa using ih i

theorem rel_array_getElem? (hrel : List.Forall₂ r xs.toList ys.toList) (i : Nat) :
    Option.Rel r xs[i]? ys[i]? := by
  have hget := rel_getElem? hrel i
  rwa [Array.getElem?_toList, Array.getElem?_toList] at hget

theorem rel_size (hrel : List.Forall₂ r xs.toList ys.toList) : xs.size = ys.size := by
  simpa using hrel.length_eq

theorem rel_back? (hrel : List.Forall₂ r xs.toList ys.toList) : Option.Rel r xs.back? ys.back? := by
  rw [Array.back?_eq_getElem?, Array.back?_eq_getElem?, rel_size hrel]
  exact rel_array_getElem? hrel _

theorem rel_push (hrel : List.Forall₂ r xs.toList ys.toList) {a : α} {b : β} (hnew : r a b) :
    List.Forall₂ r (xs.push a).toList (ys.push b).toList := by
  rw [Array.toList_push, Array.toList_push]
  exact List.rel_append hrel (.cons hnew .nil)

theorem rel_shrink (hrel : List.Forall₂ r xs.toList ys.toList) (size : Nat) :
    List.Forall₂ r (xs.shrink size).toList (ys.shrink size).toList := by
  rw [Array.toList_shrink, Array.toList_shrink]
  exact List.forall₂_take size hrel

theorem rel_pop (hrel : List.Forall₂ r xs.toList ys.toList) :
    List.Forall₂ r xs.pop.toList ys.pop.toList := by
  rw [Array.toList_pop, Array.toList_pop, List.dropLast_eq_take, List.dropLast_eq_take,
    hrel.length_eq]
  exact List.forall₂_take _ hrel

theorem rel_set {first : List α} {second : List β} (hrel : List.Forall₂ r first second) (i : Nat)
    {a : α} {b : β} (hnew : r a b) : List.Forall₂ r (first.set i a) (second.set i b) := by
  induction hrel generalizing i with
  | nil => exact .nil
  | cons hfirst hrest ih =>
    cases i with
    | zero => exact .cons hnew hrest
    | succ i => exact .cons hfirst (ih i)

theorem rel_setIfInBounds (hrel : List.Forall₂ r xs.toList ys.toList) (i : Nat) {a : α} {b : β}
    (hnew : r a b) :
    List.Forall₂ r (xs.setIfInBounds i a).toList (ys.setIfInBounds i b).toList := by
  rw [Array.toList_setIfInBounds, Array.toList_setIfInBounds]
  exact rel_set hrel i hnew

theorem rel_extract (hrel : List.Forall₂ r xs.toList ys.toList) (start stop : Nat) :
    List.Forall₂ r (xs.extract start stop).toList (ys.extract start stop).toList := by
  rw [Array.toList_extract, Array.toList_extract]
  exact List.forall₂_take _ (List.forall₂_drop _ hrel)

theorem rel_replicate {a : α} {b : β} (hnew : r a b) (count : Nat) :
    List.Forall₂ r (List.replicate count a) (List.replicate count b) := by
  induction count with
  | zero => exact .nil
  | succ count ih => exact .cons hnew ih

end Sequences

namespace Machine

/-- Machines that have left the same in a slot above their stacks, as far as it can be read. -/
structure LeftAlike (left right : Machine) (slot : Nat) : Prop where
  room : left.leftovers.room = right.leftovers.room
  set : (left.leftovers.values[slot]?).isSome = (right.leftovers.values[slot]?).isSome
  refs : ∀ a b, left.leftovers.values[slot]? = some (.ofRef a) →
    right.leftovers.values[slot]? = some (.ofRef b) → (a ∈ left.heap.refs ↔ b ∈ right.heap.refs)

/-- A slot that two machines find alike: it lies below the tops, or both have left the same there. -/
def SeenAlike (left right : Machine) (slot : Nat) : Prop :=
  slot < left.stack.size ∨ LeftAlike left right slot

theorem seenAlike_self (m : Machine) (slot : Nat) : SeenAlike m m slot := by
  refine .inr ⟨rfl, rfl, fun a b ha hb => ?_⟩
  rw [ha, Value.ofRef, Value.ofRef, Option.some.injEq, Value.object.injEq, Option.some.injEq] at hb
  rw [hb]

theorem SeenAlike.push {left right : Machine} {slot : Nat} (hseen : SeenAlike left right slot) (a b : Value) :
    SeenAlike { left with stack := left.stack.push a } { right with stack := right.stack.push b } slot := by
  rcases hseen with hbelow | halike
  · refine .inl ?_
    rw [Array.size_push]
    exact Nat.lt_succ_of_lt hbelow
  · exact .inr ⟨halike.room, halike.set, halike.refs⟩

/-- The slot of a variable that the running closure has captured, while its cell is open. -/
def upvalueSlot? (m : Machine) (index : Nat) : Option Nat :=
  match m.frames.back?.bind fun frame => m.heap.get? frame.closure with
  | some (.closure _ cells) =>
    match cells[index]?.join.bind m.heap.get? with
    | some (.upvalue (.opened slot)) => some slot
    | _ => none
  | _ => none

/-- The slots that an operation reads or writes without a look at where the stack ends. -/
def namedSlots (m : Machine) (op : Opcode) (a : Nat) : List Nat :=
  match op with
  | .getUpvalue | .setUpvalue | .moveUpvalue => (m.upvalueSlot? a).toList
  | .matchArgs =>
    match m.frames.back?, m.chunk.bind (·.clauses[a]?) with
    | some frame, some parameters =>
      if frame.argumentCount = parameters.length then List.range' frame.base parameters.length else []
    | _, _ => []
  | _ => []

variable {ρ : Renaming} {left right : Machine}

/-- Similar machines have the same cells open for what their closures have captured. -/
theorem upvalueSlot?_eq (hsim : Similar ρ left right) (index : Nat) :
    left.upvalueSlot? index = right.upvalueSlot? index := by
  have hframes := rel_back? hsim.frames
  unfold upvalueSlot?
  generalize left.frames.back? = first at hframes ⊢
  generalize right.frames.back? = second at hframes ⊢
  cases hframes with
  | none => rfl
  | some hframe =>
    obtain ⟨x, y, hx, hy, hxy⟩ := hsim.heap.objects _ _ hframe.closure
    simp only [Option.bind_some, hx, hy]
    cases hxy with
    | @closure _ leftCells rightCells hcells =>
      have hcell := rel_array_getElem? hcells index
      dsimp only
      generalize leftCells[index]? = first at hcell ⊢
      generalize rightCells[index]? = second at hcell ⊢
      cases hcell with
      | none => rfl
      | some hcapture =>
        cases hcapture with
        | some hpair =>
          obtain ⟨s, t, hs, ht, hst⟩ := hsim.heap.cells _ _ hpair
          simp only [Option.join_some, Option.bind_some, hs, ht]
          cases hst <;> rfl
    | _ => rfl

/-- A slot that is seen alike holds values that agree, or none on either side. -/
theorem Similar.slot? (hsim : Similar ρ left right) {slot : Nat} (hseen : SeenAlike left right slot) :
    Option.Rel (Value.Related ρ) (left.slot? slot) (right.slot? slot) := by
  have hstack := rel_array_getElem? hsim.stack slot
  have hsize := rel_size hsim.stack
  unfold Machine.slot?
  rcases hseen with hbelow | halike
  · rw [Array.getElem?_eq_getElem hbelow] at hstack ⊢
    generalize right.stack[slot]? = second at hstack ⊢
    cases hstack with
    | some hrel => exact .some hrel
  · generalize left.stack[slot]? = first at hstack ⊢
    generalize right.stack[slot]? = second at hstack ⊢
    cases hstack with
    | some hrel => exact .some hrel
    | none =>
      simp only [Option.none_or, leftover?, Leftovers.under, halike.room, hsize]
      split
      · have hset := halike.set
        have hagree := hsim.leftovers slot
        have hrefs := halike.refs
        generalize left.leftovers.values[slot]? = x at hset hagree hrefs ⊢
        generalize right.leftovers.values[slot]? = y at hset hagree hrefs ⊢
        match x, y, hset with
        | none, none, _ => exact .none
        | some x, some y, _ =>
          refine .some ((hagree x y rfl rfl).surviving fun a b ha hb => hrefs a b ?_ ?_)
          · rw [ha]
          · rw [hb]
      · simp

end Machine

namespace Exec

/-- A fault that does not come from a full heap. -/
def Fault.Plain (fault : Fault) : Prop :=
  ∀ request, fault ≠ .exhausted request

/-- Results of steps that only looked at their machines: answers that agree, or the same fault. -/
inductive Reads {α β : Type} (left right : Machine) (post : α → β → Prop) :
    EStateM.Result Fault Machine α → EStateM.Result Fault Machine β → Prop where
  | ok {a : α} {b : β} : post a b → Reads left right post (.ok a left) (.ok b right)
  | fault {fault : Fault} : Fault.Plain fault → Reads left right post (.error fault left) (.error fault right)

/-- Results of steps that kept their machines together and did not find the heap full. -/
inductive Calm {α β : Type} (ρ : Renaming) (post : α → β → Prop) :
    EStateM.Result Fault Machine α → EStateM.Result Fault Machine β → Prop where
  | ok {a : α} {b : β} {left right : Machine} : post a b → Machine.Corresponds ρ left right →
      Calm ρ post (.ok a left) (.ok b right)
  | fault {fault : Fault} {left right : Machine} : Fault.Plain fault → Machine.Corresponds ρ left right →
      Calm ρ post (.error fault left) (.error fault right)

section Rules

variable {α β γ δ : Type} {ρ : Renaming} {left right : Machine} {post : α → β → Prop}
  {post' : γ → δ → Prop} {x : Exec α} {y : Exec β} {f : α → Exec γ} {g : β → Exec δ}

theorem Reads.bind (hfirst : Reads left right post (x left) (y right))
    (hnext : ∀ a b, post a b → Reads left right post' (f a left) (g b right)) :
    Reads left right post' ((x >>= f) left) ((y >>= g) right) := by
  rw [bind_apply, bind_apply]
  generalize x left = first at hfirst ⊢
  generalize y right = second at hfirst ⊢
  cases hfirst with
  | ok hpost => exact hnext _ _ hpost
  | fault hplain => exact .fault hplain

theorem Reads.bind_calm (hfirst : Reads left right post (x left) (y right))
    (hcorr : Machine.Corresponds ρ left right)
    (hnext : ∀ a b, post a b → Calm ρ post' (f a left) (g b right)) :
    Calm ρ post' ((x >>= f) left) ((y >>= g) right) := by
  rw [bind_apply, bind_apply]
  generalize x left = first at hfirst ⊢
  generalize y right = second at hfirst ⊢
  cases hfirst with
  | ok hpost => exact hnext _ _ hpost
  | fault hplain => exact .fault hplain hcorr

theorem Calm.bind (hfirst : Calm ρ post (x left) (y right))
    (hnext : ∀ a b left' right', post a b → Machine.Corresponds ρ left' right' →
      Calm ρ post' (f a left') (g b right')) :
    Calm ρ post' ((x >>= f) left) ((y >>= g) right) := by
  rw [bind_apply, bind_apply]
  generalize x left = first at hfirst ⊢
  generalize y right = second at hfirst ⊢
  cases hfirst with
  | ok hpost hcorr => exact hnext _ _ _ _ hpost hcorr
  | fault hplain hcorr => exact .fault hplain hcorr

/-- What a step gave back is noted beside what it satisfies. -/
theorem Reads.noted {first : EStateM.Result Fault Machine α} {second : EStateM.Result Fault Machine β}
    (hreads : Reads left right post first second) :
    Reads left right (fun a b => post a b ∧ first = .ok a left ∧ second = .ok b right) first second := by
  cases hreads with
  | ok hpost => exact .ok ⟨hpost, rfl, rfl⟩
  | fault hplain => exact .fault hplain

theorem Reads.calm {first : EStateM.Result Fault Machine α} {second : EStateM.Result Fault Machine β}
    (hreads : Reads left right post first second) (hcorr : Machine.Corresponds ρ left right) :
    Calm ρ post first second := by
  cases hreads with
  | ok hpost => exact .ok hpost hcorr
  | fault hplain => exact .fault hplain hcorr

end Rules

section Reading

variable {α β : Type} {ρ : Renaming} {left right : Machine} {post : α → β → Prop}

theorem reads_pure {a : α} {b : β} (hpost : post a b) :
    Reads left right post ((pure a : Exec α) left) ((pure b : Exec β) right) := .ok hpost

theorem reads_stray : Reads left right post ((throw .stray : Exec α) left) ((throw .stray : Exec β) right) :=
  .fault (by simp [Fault.Plain])

theorem reads_fail {first second : Diagnostic} (hsame : first = second) :
    Reads left right post ((fail first : Exec α) left) ((fail second : Exec β) right) := by
  subst hsame
  exact .fault (by simp [Fault.Plain])

theorem reads_expect {first : Option α} {second : Option β} (hrel : Option.Rel post first second) :
    Reads left right post (expect first left) (expect second right) := by
  cases hrel with
  | none => exact reads_stray
  | some h => exact reads_pure h

theorem reads_expect_same (found : Option α) :
    Reads left right (fun a b => a = b) (expect found left) (expect found right) := by
  cases found with
  | none => exact reads_stray
  | some value => exact reads_pure rfl

theorem expect_eq_some {m after : Machine} {found : Option α} {value : α}
    (hfound : expect found m = .ok value after) : found = some value := by
  cases found with
  | none => cases hfound
  | some other =>
    cases hfound
    rfl

theorem chunk_eq_some {m after : Machine} {chunk : Chunk} (hchunk : Exec.chunk m = .ok chunk after) :
    m.chunk = some chunk := by
  simp only [Exec.chunk] at hchunk
  rw [get_bind_apply] at hchunk
  exact expect_eq_some hchunk

theorem reads_ofExcept (ρ : Renaming) {first second : Except Diagnostic Value}
    (hsame : Heap.Corresponds.SameScalar first second) :
    Reads left right (Value.Related ρ) (ofExcept first left) (ofExcept second right) := by
  obtain ⟨result, rfl, rfl⟩ := hsame
  cases result with
  | error diagnostic => exact reads_fail rfl
  | ok scalar => exact reads_pure (.scalar scalar)

theorem reads_peek (hsim : Machine.Similar ρ left right) (distance : Nat) :
    Reads left right (Value.Related ρ) (peek distance left) (peek distance right) := by
  have hsize := rel_size hsim.stack
  simp only [peek, bind_apply, get_apply, hsize]
  split
  · exact reads_expect (rel_array_getElem? hsim.stack _)
  · exact reads_fail rfl

theorem reads_frame (hsim : Machine.Similar ρ left right) :
    Reads left right (Frame.Related ρ) (frame left) (frame right) := by
  simp only [frame, bind_apply, get_apply]
  exact reads_expect (rel_back? hsim.frames)

theorem reads_chunk (hsim : Machine.Similar ρ left right) :
    Reads left right (fun a b => a = b) (chunk left) (chunk right) := by
  simp only [chunk, bind_apply, get_apply, hsim.chunk]
  exact reads_expect_same _

/-- A slot of the frame is found below the top. -/
theorem reads_localIndex (hsim : Machine.Similar ρ left right) (slot : Nat) :
    Reads left right (fun a b => a = b ∧ a < left.stack.size) (localIndex slot left)
      (localIndex slot right) := by
  refine (reads_frame hsim).bind fun a b hframe => ?_
  have hsize := rel_size hsim.stack
  simp only [bind_apply, get_apply, hframe.base, hsize]
  split
  case isTrue hbelow => exact reads_pure ⟨rfl, hbelow⟩
  case isFalse => exact reads_fail rfl

theorem reads_readSlot (hsim : Machine.Similar ρ left right) {slot : Nat}
    (hseen : Machine.SeenAlike left right slot) :
    Reads left right (Value.Related ρ) (readSlot slot left) (readSlot slot right) := by
  simp only [readSlot, bind_apply, get_apply]
  exact reads_expect (hsim.slot? hseen)

theorem reads_definedGlobal (hsim : Machine.Similar ρ left right) (slot : Nat) (verb : String) :
    Reads left right (Value.Related ρ) (definedGlobal slot verb left) (definedGlobal slot verb right) := by
  simp only [definedGlobal]
  rw [get_bind_apply, get_bind_apply]
  refine (reads_expect (rel_array_getElem? hsim.globals slot)).bind fun a b hrel => ?_
  cases hrel with
  | some h => exact reads_pure h
  | none =>
    simp only [hsim.unit]
    refine (reads_expect_same _).bind fun name other hname => ?_
    subst hname
    exact reads_fail rfl

/-- The captured variables of the running closures. -/
theorem reads_upvalues (hsim : Machine.Similar ρ left right) :
    Reads left right (fun a b => List.Forall₂ (CaptureRelated ρ) a.toList b.toList)
      (upvalues left) (upvalues right) := by
  simp only [upvalues]
  rw [get_bind_apply, get_bind_apply]
  refine (reads_frame hsim).bind fun a b hframe => ?_
  obtain ⟨first, second, hfirst, hsecond, hrel⟩ := hsim.heap.objects _ _ hframe.closure
  simp only [hfirst, hsecond]
  cases hrel with
  | closure prototype h => exact reads_pure h
  | string text => exact reads_stray
  | record hcapacity h => exact reads_stray
  | array hcapacity h => exact reads_stray

theorem reads_upvalueCell (hsim : Machine.Similar ρ left right) (index : Nat) :
    Reads left right (fun a b => ρ.cell a.1 b.1 ∧ Upvalue.Related ρ a.2 b.2 ∧
        left.heap.get? a.1 = some (.upvalue a.2) ∧ right.heap.get? b.1 = some (.upvalue b.2))
      (upvalueCell index left) (upvalueCell index right) := by
  simp only [upvalueCell]
  refine (reads_upvalues hsim).bind fun a b hrel => ?_
  refine (reads_expect (rel_array_getElem? hrel index)).bind fun first second hcapture => ?_
  cases hcapture with
  | some hpair =>
    refine (reads_expect (.some hpair)).bind fun c d hcell => ?_
    obtain ⟨x, y, hx, hy, hxy⟩ := hsim.heap.cells _ _ hcell
    simp only [bind_apply, get_apply, hx, hy]
    exact reads_pure ⟨hcell, hxy, hx, hy⟩

/-- An open cell of the running closure stands for the slot that the closure names. -/
theorem upvalueSlot?_of_cell {m after : Machine} {index slot : Nat} {cell : Ref}
    (hresult : upvalueCell index m = .ok (cell, .opened slot) after) : m.upvalueSlot? index = some slot := by
  simp only [upvalueCell, upvalues, frame] at hresult
  unfold Machine.upvalueSlot?
  rw [bind_apply, get_bind_apply, bind_apply, get_bind_apply] at hresult
  cases hframe : m.frames.back? with
  | none =>
    rw [hframe] at hresult
    cases hresult
  | some frame =>
    simp only [hframe, expect, pure_apply, Option.bind_some] at hresult ⊢
    generalize m.heap.get? frame.closure = object at hresult ⊢
    rcases object with _ | _ | _ | _ | ⟨prototype, cells⟩ | _
    case some.closure =>
      simp only [pure_apply] at hresult
      rcases hcell : cells[index]? with _ | _ | found
      · rw [hcell] at hresult
        cases hresult
      · rw [hcell] at hresult
        cases hresult
      · rw [hcell] at hresult
        simp only [hcell, Option.join_some, Option.bind_some]
        simp only [bind_apply, pure_apply, get_apply] at hresult
        generalize m.heap.get? found = object at hresult ⊢
        rcases object with _ | _ | _ | _ | _ | state
        case some.upvalue =>
          cases hresult
          rfl
        all_goals cases hresult
    all_goals cases hresult

theorem reads_readUpvalue (hsim : Machine.Similar ρ left right) (index : Nat)
    (hseen : ∀ slot, left.upvalueSlot? index = some slot → Machine.SeenAlike left right slot) :
    Reads left right (Value.Related ρ) (readUpvalue index left) (readUpvalue index right) := by
  simp only [readUpvalue]
  refine (reads_upvalueCell hsim index).noted.bind fun a b hnoted => ?_
  obtain ⟨⟨-, hstates, -⟩, hleft, -⟩ := hnoted
  obtain ⟨c, x⟩ := a
  obtain ⟨d, y⟩ := b
  cases hstates with
  | opened slot => exact reads_readSlot hsim (hseen slot (upvalueSlot?_of_cell hleft))
  | closed h => exact reads_pure h

theorem reads_topValues (hsim : Machine.Similar ρ left right) (count : Nat) :
    Reads left right (fun a b => List.Forall₂ (Value.Related ρ) a.toList b.toList)
      (topValues count left) (topValues count right) := by
  have hsize := rel_size hsim.stack
  simp only [topValues, bind_apply, get_apply, hsize]
  split
  · exact reads_fail rfl
  · exact reads_pure (rel_extract hsim.stack _ _)

/-- Records that agree, where they are and what is in them. -/
structure RecordRelated (ρ : Renaming) (left right : Machine) (a b : Ref × Fields) : Prop where
  pair : ρ.object a.1 b.1
  capacity : a.2.capacity = b.2.capacity
  entries : List.Forall₂ (FieldRelated ρ) a.2.entries b.2.entries
  left : left.heap.get? a.1 = some (.record a.2)
  right : right.heap.get? b.1 = some (.record b.2)

/-- Arrays that agree, where they are and what is in them. -/
structure ArrayRelated (ρ : Renaming) (left right : Machine) (a b : Ref × Elements) : Prop where
  pair : ρ.object a.1 b.1
  capacity : a.2.capacity = b.2.capacity
  values : List.Forall₂ (Value.Related ρ) a.2.values.toList b.2.values.toList
  left : left.heap.get? a.1 = some (.array a.2)
  right : right.heap.get? b.1 = some (.array b.2)

theorem reads_expectRecord (hsim : Machine.Similar ρ left right) {a b : Value}
    (hrel : Value.Related ρ a b) (what : String) :
    Reads left right (RecordRelated ρ left right) (expectRecord a what left)
      (expectRecord b what right) := by
  have htype := hsim.heap.typeName hrel
  simp only [expectRecord, bind_apply, get_apply]
  cases hrel with
  | scalar value => exact reads_fail rfl
  | object h =>
    cases h with
    | none => exact reads_fail rfl
    | @some c d hpair =>
      obtain ⟨first, second, hfirst, hsecond, hobjects⟩ := hsim.heap.objects c d hpair
      simp only [Value.ref?, Heap.objectOf?, Option.bind_some, hfirst, hsecond]
      cases hobjects with
      | record hcapacity h => exact reads_pure ⟨hpair, hcapacity, h, hfirst, hsecond⟩
      | string text => exact reads_fail (by rw [htype])
      | array hcapacity h => exact reads_fail (by rw [htype])
      | closure prototype h => exact reads_fail (by rw [htype])

theorem reads_expectArray (hsim : Machine.Similar ρ left right) {a b : Value}
    (hrel : Value.Related ρ a b) (what : String) :
    Reads left right (ArrayRelated ρ left right) (expectArray a what left)
      (expectArray b what right) := by
  have htype := hsim.heap.typeName hrel
  simp only [expectArray, bind_apply, get_apply]
  cases hrel with
  | scalar value => exact reads_fail rfl
  | object h =>
    cases h with
    | none => exact reads_fail rfl
    | @some c d hpair =>
      obtain ⟨first, second, hfirst, hsecond, hobjects⟩ := hsim.heap.objects c d hpair
      simp only [Value.ref?, Heap.objectOf?, Option.bind_some, hfirst, hsecond]
      cases hobjects with
      | array hcapacity h => exact reads_pure ⟨hpair, hcapacity, h, hfirst, hsecond⟩
      | string text => exact reads_fail (by rw [htype])
      | record hcapacity h => exact reads_fail (by rw [htype])
      | closure prototype h => exact reads_fail (by rw [htype])

theorem reads_checkedIndex (hsim : Machine.Similar ρ left right) {first second : Elements}
    (hsize : first.values.size = second.values.size) {a b : Value} (hrel : Value.Related ρ a b) :
    Reads left right (fun i j => i = j) (checkedIndex first a left) (checkedIndex second b right) := by
  have htype := hsim.heap.typeName hrel
  have hother (index : Value) (hindex : ∀ i, index ≠ .scalar (.int i)) (m : Machine) (elements : Elements) :
      checkedIndex elements index m =
        fail (typeError s!"array index must be Int, got {m.heap.typeName index}") m := by
    unfold checkedIndex
    split
    · exact absurd rfl (hindex _)
    · rfl
  cases hrel with
  | object h =>
    rw [hother _ (by simp), hother _ (by simp), htype]
    exact reads_fail rfl
  | scalar value =>
    cases value with
    | int i =>
      simp only [checkedIndex, hsize]
      split
      · exact reads_fail rfl
      · exact reads_pure rfl
    | nil => exact reads_fail rfl
    | bool value => exact reads_fail rfl
    | float value => exact reads_fail rfl

theorem reads_matchSlots (hsim : Machine.Similar ρ left right) (matchers : List Matcher) (slot : Nat)
    (hseen : ∀ named ∈ List.range' slot matchers.length, Machine.SeenAlike left right named)
    {first second : List Value} (hbound : List.Forall₂ (Value.Related ρ) first second) :
    Reads left right (Option.Rel (List.Forall₂ (Value.Related ρ)))
      (matchSlots matchers slot first left) (matchSlots matchers slot second right) := by
  induction matchers generalizing slot first second with
  | nil => exact reads_pure (.some hbound)
  | cons matcher rest ih =>
    rw [List.length_cons, List.range'_succ, List.forall_mem_cons] at hseen
    unfold matchSlots
    split
    · exact ih (slot + 1) hseen.2 hbound
    · refine (reads_readSlot hsim hseen.1).bind fun a b hrel => ?_
      have hmatch := hsim.heap.matchValue matcher hrel
      simp only [bind_apply, get_apply]
      generalize left.heap.matchValue matcher a = x at hmatch ⊢
      generalize right.heap.matchValue matcher b = y at hmatch ⊢
      cases hmatch with
      | none => exact reads_pure .none
      | some hvalues => exact ih (slot + 1) hseen.2 (List.rel_append hbound hvalues)

end Reading

end Exec

end OwnScript
