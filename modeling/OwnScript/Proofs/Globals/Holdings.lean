import OwnScript.Proofs.Globals.Places
import OwnScript.Proofs.Stack.Runs

/-!
What a program can get hold of while some of its globals are not defined yet. The closures in objects and on
the stack are of functions that may run, but for a loose one on top of the stack; a global may also have one of
its first functions, which may not run before the program may read the global.
-/

namespace OwnScript

open Stateful

variable {allowed wider : Option Prototype → Prop} {originals : Originals} {loose : Set (Option Prototype)}

namespace Heap

variable {heap middle after : Heap} {value : Value}

theorem Admits.mono (hadmits : heap.Admits allowed value) (hwider : ∀ function, allowed function → wider function) :
    heap.Admits wider value := by
  intro ref href
  obtain ⟨hold, hclosure⟩ := hadmits ref href
  exact ⟨hold, fun prototype cells h => hwider prototype (hclosure prototype cells h)⟩

theorem Offers.mono (hoffers : heap.Offers allowed) (hwider : ∀ function, allowed function → wider function) :
    heap.Offers wider :=
  fun ref object hobject value hvalue => (hoffers ref object hobject value hvalue).mono hwider

theorem Follows.mono (hfollows : heap.Follows allowed after) (hwider : ∀ function, allowed function → wider function) :
    heap.Follows wider after :=
  ⟨hfollows.nextRef,
    fun ref prototype cells h => (hfollows.closures ref prototype cells h).imp_right (hwider prototype)⟩

/-- A heap later on, in which no value leads to more than before, as far as it matters to those who may get hold
of certain functions anyway. -/
structure Shelters (least : Option Prototype → Prop) (heap after : Heap) : Prop where
  admits : ∀ allowed : Option Prototype → Prop, (∀ function, least function → allowed function) →
    ∀ value, heap.Admits allowed value → after.Admits allowed value
  offers : after.Offers least

theorem Follows.shelters (hfollows : heap.Follows allowed after) (hoffers : after.Offers allowed) :
    heap.Shelters allowed after :=
  ⟨fun _ hwider _ hadmits => hadmits.follows (hfollows.mono hwider), hoffers⟩

theorem Gains.shelters {function : Option Prototype} (hgains : heap.Gains function after)
    (hoffers : heap.Offers allowed) :
    heap.Shelters allowed after :=
  ⟨fun wider _ value => hgains.admits wider value, hgains.offers allowed hoffers⟩

end Heap

namespace Machine

variable {m after : Machine}

/-- The slots of the globals that are defined. -/
def definedSlots (m : Machine) : Set Nat :=
  { slot | ∃ value, m.globals[slot]? = some (some value) }

/-- The functions that may run, given the globals that are defined. -/
def MayRun (originals : Originals) (m : Machine) (function : Option Prototype) : Prop :=
  Runnable originals m.definedSlots function

theorem MayRun.later {function : Option Prototype} (hrun : m.MayRun originals function)
    (hdefined : m.definedSlots ⊆ after.definedSlots) : after.MayRun originals function :=
  Runnable.more hrun hdefined

/-- What a program can get hold of leads to functions that may run, apart from loose closures on top of the stack
and the first functions of the globals. -/
structure Guards (originals : Originals) (loose : Set (Option Prototype)) (m : Machine) : Prop where
  heap : m.heap.Offers (m.MayRun originals)
  stack : ∀ (i : Nat) value, 0 < i → i + 1 < m.stack.size → m.stack[i]? = some value →
    m.heap.Admits (m.MayRun originals) value
  top : ∀ value, 1 < m.stack.size → m.stack.back? = some value →
    m.heap.Admits (fun function => m.MayRun originals function ∨ function ∈ loose) value
  globals : ∀ (slot : Nat) value, m.globals[slot]? = some (some value) →
    m.heap.Admits (fun function => m.MayRun originals function ∨ function ∈ originals slot) value

/-- If no closure is loose, everything leads to functions that may run. -/
theorem Guards.offers (hguards : m.Guards originals loose) (hloose : ∀ function ∈ loose, m.MayRun originals function) :
    m.Offers (m.MayRun originals) where
  heap := hguards.heap
  stack i value hi hvalue := by
    have hin : i < m.stack.size := (Array.getElem?_eq_some_iff.mp hvalue).1
    by_cases htop : i + 1 < m.stack.size
    · exact hguards.stack i value hi htop hvalue
    · have hlast : i = m.stack.size - 1 := by omega
      refine (hguards.top value (by omega) ?_).mono fun function h => h.elim id (hloose function)
      rw [Array.back?_eq_getElem?, ← hlast, hvalue]

/-- The same after something was done, if no value leads to more than before. -/
theorem Guards.later (hguards : m.Guards originals loose) (hdefined : m.definedSlots ⊆ after.definedSlots)
    (hshelters : m.heap.Shelters (m.MayRun originals) after.heap) {looseAfter : Set (Option Prototype)}
    (hstack : ∀ (i : Nat) value, 0 < i → i + 1 < after.stack.size → after.stack[i]? = some value →
      after.heap.Admits (m.MayRun originals) value)
    (htop : ∀ value, 1 < after.stack.size → after.stack.back? = some value →
      after.heap.Admits (fun function => m.MayRun originals function ∨ function ∈ looseAfter) value)
    (hglobals : ∀ (slot : Nat) value, after.globals[slot]? = some (some value) →
      m.globals[slot]? = some (some value) ∨
        after.heap.Admits (fun function => m.MayRun originals function ∨ function ∈ originals slot) value) :
    after.Guards originals looseAfter where
  heap := hshelters.offers.mono fun _ h => h.later hdefined
  stack i value hi hlow hvalue := (hstack i value hi hlow hvalue).mono fun _ h => h.later hdefined
  top value hsize hvalue := (htop value hsize hvalue).mono fun _ h => h.imp_left fun h => h.later hdefined
  globals slot value hvalue := by
    have hnow : after.heap.Admits (fun function => m.MayRun originals function ∨ function ∈ originals slot) value :=
      (hglobals slot value hvalue).elim
        (fun h => hshelters.admits _ (fun _ => .inl) value (hguards.globals slot value h)) id
    exact hnow.mono fun _ h => h.imp_left fun h => h.later hdefined

/-- The same with another heap. -/
theorem Guards.carry (hguards : m.Guards originals loose) (hstack : after.stack = m.stack)
    (hglobals : after.globals = m.globals) (hshelters : m.heap.Shelters (m.MayRun originals) after.heap) :
    after.Guards originals loose := by
  have hdefined : m.definedSlots ⊆ after.definedSlots := by
    rw [definedSlots, definedSlots, hglobals]
  refine hguards.later hdefined hshelters (fun i value hi hlow hvalue => ?_) (fun value hsize hvalue => ?_)
    fun slot value hvalue => .inl (hglobals ▸ hvalue)
  · rw [hstack] at hlow hvalue
    exact hshelters.admits _ (fun _ => id) value (hguards.stack i value hi hlow hvalue)
  · rw [hstack] at hsize hvalue
    exact hshelters.admits _ (fun _ => .inl) value (hguards.top value hsize hvalue)

/-- An operation that keeps to what is allowed. -/
theorem Guards.tends (hguards : m.Guards originals loose) (htends : Tends (m.MayRun originals) m after)
    (hdefined : m.definedSlots ⊆ after.definedSlots) (looseAfter : Set (Option Prototype)) :
    after.Guards originals looseAfter := by
  refine hguards.later hdefined (htends.follows.shelters htends.offers.heap)
    (fun i value hi _ hvalue => htends.offers.stack i value hi hvalue) (fun value hsize hvalue => ?_)
    fun slot value hvalue => (htends.globals slot value hvalue).imp_right fun h => h.mono fun _ => .inl
  rw [Array.back?_eq_getElem?] at hvalue
  exact (htends.offers.stack _ value (by omega) hvalue).mono fun _ => .inl

/-- A value is pushed whose closure may be loose. -/
theorem Guards.pushed (hguards : m.Guards originals loose) (hloose : ∀ function ∈ loose, m.MayRun originals function)
    {value : Value} (hstack : after.stack = m.stack.push value) (hdefined : m.definedSlots ⊆ after.definedSlots)
    (hshelters : m.heap.Shelters (m.MayRun originals) after.heap) {looseAfter : Set (Option Prototype)}
    (hvalue : after.heap.Admits (fun function => m.MayRun originals function ∨ function ∈ looseAfter) value)
    (hglobals : ∀ (slot : Nat) value, after.globals[slot]? = some (some value) →
      m.globals[slot]? = some (some value) ∨ ∃ scalar, value = .scalar scalar) :
    after.Guards originals looseAfter := by
  refine hguards.later hdefined hshelters (fun i found hi hlow hfound => ?_) (fun found _ hfound => ?_)
    fun slot found hfound => (hglobals slot found hfound).imp_right ?_
  · rw [hstack, Array.size_push] at hlow
    rw [hstack, Array.getElem?_push, if_neg (by omega)] at hfound
    exact hshelters.admits _ (fun _ => id) found ((hguards.offers hloose).stack i found hi hfound)
  · rw [hstack, Array.back?_push] at hfound
    cases hfound
    exact hvalue
  · rintro ⟨scalar, rfl⟩
    exact Heap.admits_scalar scalar

/-- The value on top is dropped, and with it whatever was loose. -/
theorem Guards.popped (hguards : m.Guards originals loose) (ip : Nat) (looseAfter : Set (Option Prototype)) :
    Guards originals looseAfter (cut { m with ip } (m.stack.size - 1)) := by
  have hstack (i : Nat) (value : Value) (hi : 0 < i) (hvalue : m.stack.pop[i]? = some value) :
      m.heap.Admits (m.MayRun originals) value := by
    rw [Array.getElem?_pop] at hvalue
    split at hvalue
    · exact hguards.stack i value hi (by omega) hvalue
    · cases hvalue
  rw [← shrink_pred] at hstack
  have hdefined : m.definedSlots ⊆ definedSlots (cut { m with ip } (m.stack.size - 1)) := subset_rfl
  refine hguards.later hdefined ⟨fun _ _ _ => id, hguards.heap⟩ (fun i value hi _ => hstack i value hi)
    (fun value hsize hvalue => ?_) fun _ _ => .inl
  have hpos : 0 < (cut { m with ip } (m.stack.size - 1)).stack.size - 1 := by omega
  rw [Array.back?_eq_getElem?] at hvalue
  exact (hstack _ value hpos hvalue).mono fun _ => .inl

/-- A global gets the value on top, and that leads to one of its first functions at most. -/
theorem Guards.defined (hguards : m.Guards originals loose) (ip : Nat) {slot : Nat} {value : Value}
    (htop : m.stack.back? = some value) (hsize : 1 < m.stack.size)
    (hloose : ∀ function ∈ loose, m.MayRun originals function ∨ function ∈ originals slot) :
    Guards originals loose { m with ip, globals := m.globals.setIfInBounds slot (some value) } := by
  have hdefined :
    m.definedSlots ⊆ definedSlots { m with ip, globals := m.globals.setIfInBounds slot (some value) } := by
    rintro other ⟨found, hfound⟩
    change ∃ found, (m.globals.setIfInBounds slot (some value))[other]? = some (some found)
    rw [Array.getElem?_setIfInBounds]
    split
    · rename_i hsame
      subst hsame
      rw [if_pos (Array.getElem?_eq_some_iff.mp hfound).1]
      exact ⟨value, rfl⟩
    · exact ⟨found, hfound⟩
  refine hguards.later hdefined ⟨fun _ _ _ => id, hguards.heap⟩ hguards.stack hguards.top fun other found hfound => ?_
  change (m.globals.setIfInBounds slot (some value))[other]? = _ at hfound
  rw [Array.getElem?_setIfInBounds] at hfound
  split at hfound
  · rename_i hsame
    subst hsame
    split at hfound
    · cases hfound
      exact .inr ((hguards.top value hsize htop).mono fun function h => h.elim .inl (hloose function))
    · cases hfound
  · exact .inl hfound

end Machine

end OwnScript
