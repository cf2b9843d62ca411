import OwnScript.Program.Basic

/-!
Flow states: what is known about every variable on one control path. Where paths join, the
weaker knowledge about each variable wins, and a path that cannot be taken says nothing.
-/

namespace OwnScript

/-- What is known about the value of a variable. -/
inductive InitState where
  | moved
  | uninitialized
  | initialized
  deriving Repr, DecidableEq

/-- The weaker of two states: a value that may be gone, else one that may be missing. -/
def InitState.meet : InitState → InitState → InitState
  | .moved, _ | _, .moved => .moved
  | .uninitialized, _ | _, .uninitialized => .uninitialized
  | .initialized, .initialized => .initialized

/-- The order in which two paths join does not matter. -/
theorem InitState.meet_comm (a b : InitState) : a.meet b = b.meet a := by
  cases a <;> cases b <;> rfl

/-- Paths may join in any grouping. -/
theorem InitState.meet_assoc (a b c : InitState) : (a.meet b).meet c = a.meet (b.meet c) := by
  cases a <;> cases b <;> cases c <;> rfl

/-- A path that joins itself loses nothing. -/
@[simp] theorem InitState.meet_self (a : InitState) : a.meet a = a := by
  cases a <;> rfl

/-- The states of all variables on one control path, by binding. -/
structure FlowState where
  reachable : Bool := true
  states : Array InitState := #[]
  deriving DecidableEq

namespace FlowState

/-- The state of a variable; one that the path has not seen is uninitialized. -/
def get (flow : FlowState) (id : BindingId) : InitState :=
  flow.states[id]?.getD .uninitialized

/-- The path after a variable has reached a state. -/
def set (flow : FlowState) (id : BindingId) (state : InitState) : FlowState :=
  let room := flow.states ++ Array.replicate (id + 1 - flow.states.size) .uninitialized
  { flow with states := room.setIfInBounds id state }

/-- The path knows the state that it was given last. -/
@[simp] theorem get_set_self (flow : FlowState) (id : BindingId) (state : InitState) :
    (flow.set id state).get id = state := by
  have bound (n : Nat) : ¬ flow.states.size + (n + 1 - flow.states.size) ≤ n := by omega
  simp [get, set, bound]

/-- A change of one variable leaves what is known about the others. -/
theorem get_set_of_ne (flow : FlowState) {id other : BindingId} (state : InitState)
    (different : other ≠ id) : (flow.set id state).get other = flow.get other := by
  simp only [get, set]
  rw [Array.getElem?_setIfInBounds_ne (Ne.symm different), Array.getElem?_append]
  split
  · rfl
  · rename_i beyond
    rw [Array.getElem?_replicate, Array.getElem?_eq_none (by omega)]
    split <;> rfl

/-- A path that cannot be taken. -/
def unreachable : FlowState :=
  { reachable := false }

/-- What is known where two paths join. -/
def meet (a b : FlowState) : FlowState :=
  if !a.reachable then b
  else if !b.reachable then a
  else
    { reachable := true
      states := Array.ofFn fun i : Fin (max a.states.size b.states.size) =>
        (a.get i).meet (b.get i) }

/-- The path without the variables from a binding on. -/
def truncate (flow : FlowState) (count : Nat) : FlowState :=
  { flow with states := flow.states.take count }

end FlowState

end OwnScript
