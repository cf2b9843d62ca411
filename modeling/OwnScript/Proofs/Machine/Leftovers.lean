import OwnScript.Machine.Run
import OwnScript.Proofs.Heap.Views

/-!
What two stacks have left above their tops. Collections do not look there, so a reference that was left
may lead to an object that one heap still has and the other has given up. References are given out in
order: one that leads to no object any more never leads to another.
-/

namespace OwnScript

namespace Heap

variable {heap middle after parked : Heap}

/-- A heap later on: objects that were given up do not come back. -/
structure Ages (heap after : Heap) : Prop where
  nextRef : heap.nextRef ≤ after.nextRef
  refs : ∀ ref < heap.nextRef, ref ∈ after.refs → ref ∈ heap.refs

theorem Ages.refl (heap : Heap) : heap.Ages heap := ⟨le_rfl, fun _ _ h => h⟩

theorem Ages.trans (hfirst : heap.Ages middle) (hsecond : middle.Ages after) : heap.Ages after :=
  ⟨hfirst.nextRef.trans hsecond.nextRef, fun ref hold hafter =>
    hfirst.refs ref hold (hsecond.refs ref (hold.trans_le hfirst.nextRef) hafter)⟩

theorem Ages.of_get? (hnext : heap.nextRef ≤ after.nextRef)
    (hget : ∀ ref < heap.nextRef, ref ∈ after.refs → (after.get? ref).isSome = (heap.get? ref).isSome) :
    heap.Ages after := by
  refine ⟨hnext, fun ref hold hafter => ?_⟩
  have hsame := hget ref hold hafter
  rw [mem_refs, ← Option.isSome_iff_exists] at hafter ⊢
  rwa [← hsame]

theorem Alike.ages (halike : Alike heap after) : heap.Ages after :=
  .of_get? halike.nextRef.ge fun ref _ _ => by rw [halike.get?]

theorem ages_link (heap : Heap) (object : Object) : heap.Ages (heap.link object) := by
  refine .of_get? (by simp) fun ref hold _ => ?_
  rw [get?_link, if_neg (Nat.ne_of_lt hold)]

theorem Alike.ages_link (halike : Alike heap parked) (object : Object) : heap.Ages (parked.link object) :=
  halike.ages.trans (Heap.ages_link parked object)

theorem ages_update (heap : Heap) (target : Ref) (object : Object) : heap.Ages (heap.update target object) :=
  ⟨by simp, fun ref _ h => by rwa [refs_update] at h⟩

theorem ages_store (heap : Heap) (target : Ref) (object : Object) : heap.Ages (heap.store target object) :=
  ⟨by simp, fun ref _ h => by rwa [refs_store] at h⟩

theorem ages_collect (hidle : heap.Idle) (roots : List Value) : heap.Ages (heap.collect roots).1 := by
  have hcollected := collect_spec hidle roots
  refine .of_get? hcollected.nextRef.ge fun ref _ hafter => ?_
  by_cases hreached : heap.Reachable roots ref
  · rw [hcollected.reached ref hreached]
  · obtain ⟨object, hobject⟩ := mem_refs.mp hafter
    rw [hcollected.lost ref hreached] at hobject
    cases hobject

end Heap

variable {ρ σ : Renaming} {left right leftAfter rightAfter : Heap} {first second : Value}

/-- Values that were left behind and agree: if both lead to objects that are still there, the objects are
partners. -/
inductive Value.Remnants (ρ : Renaming) (left right : Heap) : Value → Value → Prop where
  | scalar (value : Scalar) : Remnants ρ left right (.scalar value) (.scalar value)
  | none : Remnants ρ left right (.object none) (.object none)
  | ref {a b : Ref} : a < left.nextRef → b < right.nextRef →
      (a ∈ left.refs → b ∈ right.refs → ρ.object a b) → Remnants ρ left right (.ofRef a) (.ofRef b)

namespace Value.Remnants

theorem swap (hrel : Remnants ρ left right first second) : Remnants ρ.swap right left second first := by
  cases hrel with
  | scalar value => exact .scalar value
  | none => exact .none
  | ref ha hb hpair => exact .ref hb ha fun hright hleft => hpair hleft hright

theorem of_related (hcorr : Heap.Corresponds ρ left right) (hrel : Value.Related ρ first second) :
    Remnants ρ left right first second := by
  cases hrel with
  | scalar value => exact .scalar value
  | object h =>
    cases h with
    | none => exact .none
    | some hpair =>
      obtain ⟨x, y, hx, hy, -⟩ := hcorr.objects _ _ hpair
      exact .ref (hcorr.leftSound.bounded _ _ hx) (hcorr.rightSound.bounded _ _ hy) fun _ _ => hpair

/-- Later on, with more pairs, the values still agree. -/
theorem later (hrel : Remnants ρ left right first second) (hle : ρ ≤ σ) (hleft : left.Ages leftAfter)
    (hright : right.Ages rightAfter) : Remnants σ leftAfter rightAfter first second := by
  cases hrel with
  | scalar value => exact .scalar value
  | none => exact .none
  | ref ha hb hpair =>
    exact .ref (ha.trans_le hleft.nextRef) (hb.trans_le hright.nextRef) fun hx hy =>
      hle.1 _ _ (hpair (hleft.refs _ ha hx) (hright.refs _ hb hy))

/-- A collection on the left gives up all objects that lose their partners. -/
theorem collect_left (hrel : Remnants ρ left right first second) (hidle : left.Idle) (roots : List Value) :
    Remnants (ρ.keeping (left.Reachable roots) fun _ => True) (left.collect roots).1 right first second := by
  have hcollected := Heap.collect_spec hidle roots
  cases hrel with
  | scalar value => exact .scalar value
  | none => exact .none
  | @ref a b ha hb hpair =>
    have hages := Heap.ages_collect hidle roots
    refine .ref (ha.trans_le hages.nextRef) hb fun hx hy => ⟨hpair (hages.refs a ha hx) hy, ?_, trivial⟩
    by_contra hlost
    obtain ⟨object, hobject⟩ := Heap.mem_refs.mp hx
    rw [hcollected.lost a hlost] at hobject
    cases hobject

/-- What is read of the values agrees if both objects are still there or neither is. -/
theorem surviving (hrel : Remnants ρ left right first second)
    (hboth : ∀ a b, first = .ofRef a → second = .ofRef b → (a ∈ left.refs ↔ b ∈ right.refs)) :
    Value.Related ρ (left.surviving first) (right.surviving second) := by
  cases hrel with
  | scalar value => exact .scalar value
  | none => exact .object .none
  | @ref a b _ _ hpair =>
    have hsame := hboth a b rfl rfl
    simp only [Heap.mem_refs, ← Option.isSome_iff_exists] at hsame hpair
    simp only [Heap.surviving, Value.ofRef, Value.ref?]
    by_cases hthere : (left.get? a).isSome = true
    · rw [if_pos hthere, if_pos (hsame.mp hthere)]
      exact .object (.some (hpair hthere (hsame.mp hthere)))
    · rw [if_neg hthere, if_neg (mt hsame.mpr hthere)]
      exact .object .none

end Value.Remnants

namespace Leftovers

variable {before after : Leftovers}

/-- What two stacks have left agrees wherever both have left something. -/
def Agree (ρ : Renaming) (left right : Heap) (before after : Leftovers) : Prop :=
  ∀ (slot : Nat) (first second : Value), before.values[slot]? = some first →
    after.values[slot]? = some second → Value.Remnants ρ left right first second

@[simp] theorem getElem?_values_set (leftovers : Leftovers) (slot other : Nat) (value : Value) :
    (leftovers.set slot value).values[other]? =
      if slot = other then some value else leftovers.values[other]? := by
  simp [set, Std.TreeMap.getElem?_insert]

@[simp] theorem room_set (leftovers : Leftovers) (slot : Nat) (value : Value) :
    (leftovers.set slot value).room = leftovers.room := rfl

theorem under_eq (leftovers : Leftovers) (height : Nat) :
    leftovers.under height = leftovers ∨ (leftovers.under height).values = {} := by
  unfold under
  split
  · exact .inl rfl
  · exact .inr rfl

/-- What is left above a stack was left before. -/
theorem getElem?_values_under {leftovers : Leftovers} {height slot : Nat} {value : Value}
    (hvalue : (leftovers.under height).values[slot]? = some value) : leftovers.values[slot]? = some value := by
  rcases leftovers.under_eq height with hsame | hnone
  · rwa [hsame] at hvalue
  · simp [hnone] at hvalue

namespace Agree

theorem swap (hagree : Agree ρ left right before after) : Agree ρ.swap right left after before :=
  fun slot _ _ hfirst hsecond => (hagree slot _ _ hsecond hfirst).swap

theorem later (hagree : Agree ρ left right before after) (hle : ρ ≤ σ) (hleft : left.Ages leftAfter)
    (hright : right.Ages rightAfter) : Agree σ leftAfter rightAfter before after :=
  fun slot _ _ hfirst hsecond => (hagree slot _ _ hfirst hsecond).later hle hleft hright

theorem collect_left (hagree : Agree ρ left right before after) (hidle : left.Idle) (roots : List Value) :
    Agree (ρ.keeping (left.Reachable roots) fun _ => True) (left.collect roots).1 right before after :=
  fun slot _ _ hfirst hsecond => (hagree slot _ _ hfirst hsecond).collect_left hidle roots

theorem under (hagree : Agree ρ left right before after) (height height' : Nat) :
    Agree ρ left right (before.under height) (after.under height') :=
  fun slot _ _ hfirst hsecond =>
    hagree slot _ _ (getElem?_values_under hfirst) (getElem?_values_under hsecond)

theorem set (hagree : Agree ρ left right before after) (slot : Nat)
    (hrel : Value.Remnants ρ left right first second) :
    Agree ρ left right (before.set slot first) (after.set slot second) := by
  intro other x y hx hy
  rw [getElem?_values_set] at hx hy
  by_cases hslot : slot = other
  · rw [if_pos hslot, Option.some.injEq] at hx hy
    exact hx ▸ hy ▸ hrel
  · rw [if_neg hslot] at hx hy
    exact hagree other x y hx hy

/-- Stacks that agree leave values behind that agree. -/
theorem leave (hagree : Agree ρ left right before after) {xs ys : Array Value}
    (hstacks : ∀ slot : Nat, Option.Rel (Value.Remnants ρ left right) xs[slot]? ys[slot]?) (count slot : Nat) :
    Agree ρ left right (.leave xs count slot before) (.leave ys count slot after) := by
  induction count generalizing slot before after with
  | zero => exact hagree
  | succ count ih =>
    refine ih ?_ (slot + 1)
    have hslot := hstacks slot
    generalize xs[slot]? = x at hslot ⊢
    generalize ys[slot]? = y at hslot ⊢
    cases hslot with
    | none => exact hagree
    | some hrel => exact hagree.set slot hrel

end Agree

end Leftovers

namespace Machine

variable (m : Machine)

@[simp] theorem stack_cut (height : Nat) : (m.cut height).stack = m.stack.shrink height := rfl

@[simp] theorem heap_cut (height : Nat) : (m.cut height).heap = m.heap := rfl

variable {m} in
/-- Below the top a slot holds what is on the stack. -/
theorem slot?_of_lt {slot : Nat} (hslot : slot < m.stack.size) : m.slot? slot = some m.stack[slot] := by
  rw [slot?, Array.getElem?_eq_getElem hslot, Option.some_or]

/-- A stack without its last value. -/
theorem shrink_pred {α : Type} (stack : Array α) : stack.shrink (stack.size - 1) = stack.pop := by
  rw [← Array.toList_inj, Array.toList_pop, Array.toList_shrink, List.dropLast_eq_take,
    Array.length_toList]

/-- A stack that gets no higher is cut. -/
theorem resizeStack_of_le {height : Nat} (hheight : height ≤ m.stack.size) : m.resizeStack height = m.cut height := by
  simp only [resizeStack, Nat.sub_eq_zero_of_le hheight, Array.replicate_zero, Array.append_empty]

end Machine

end OwnScript
