import OwnScript.Proofs.Code.Verified
import OwnScript.Proofs.Host.Sessions
import OwnScript.Proofs.Machine.Changes
import OwnScript.Proofs.Machine.Survivors

/-!
The steps that a machine takes for its host, on both sides: allocations, the loading of a unit and
the start of a call. An allocation that finds the heap full tries again after a collection.
-/

namespace OwnScript

open Stateful

namespace Machine

/-- Where an allocation for the host finds out whether there is room: the machine as it is, or the
machine after a collection. -/
inductive Settled (m : Machine) : Machine → Prop where
  | asIs : Settled m m
  | collected {gaveUp : Machine} : m.GaveUp gaveUp → Settled m gaveUp.collectGarbage

variable {ρ σ : Renaming} {left right base leftBase rightBase : Machine}

theorem Settled.corresponds_left (hsettled : Settled left base) (hcorr : Corresponds ρ left right) :
    ∃ σ, Corresponds σ base right := by
  cases hsettled with
  | asIs => exact ⟨ρ, hcorr⟩
  | collected hgave =>
    have hslots := hgave.openSlots.trans hcorr.slots
    have hafter : Corresponds ρ _ right := ⟨hgave.similar hcorr.toSimilar, hslots⟩
    exact hafter.collectGarbage_left

theorem Settled.corresponds (hleft : Settled left leftBase) (hright : Settled right rightBase)
    (hcorr : Corresponds ρ left right) : ∃ σ, Corresponds σ leftBase rightBase := by
  obtain ⟨σ, hfirst⟩ := hleft.corresponds_left hcorr
  obtain ⟨τ, hsecond⟩ := hright.corresponds_left hfirst.swap
  exact ⟨τ.swap, hsecond.swap⟩

/-- A machine with nothing active and a unit to run. -/
def prepared (m : Machine) (unit : CodeUnit) : Machine :=
  { m.reset with
    hostValues := []
    unit
    globals := Array.replicate unit.globalNames.size none
    result := .nil }

theorem Corresponds.forgotten (hcorr : Corresponds ρ left right) :
    Corresponds ρ { left.reset with hostValues := [] } { right.reset with hostValues := [] } :=
  { hcorr.reset with hostValues := .nil }

theorem Corresponds.prepared (hcorr : Corresponds ρ left right) (unit : CodeUnit) :
    Corresponds ρ (left.prepared unit) (right.prepared unit) :=
  { hcorr.reset with
    hostValues := .nil
    unit := rfl
    globals := by
      change List.Forall₂ _ (Array.replicate unit.globalNames.size none).toList
        (Array.replicate unit.globalNames.size none).toList
      rw [Array.toList_replicate]
      exact rel_replicate .none _
    result := Value.related_nil ρ }

end Machine

namespace Exec

open Machine

variable {ρ : Renaming} {left right : Machine}

/-- What a machine says when an object for the host does not fit even after a collection. -/
def hostFault : Fault :=
  .failure (.plain .outOfMemory "heap exhausted after a full collection")

/-- An allocation for the host changes nothing but the heap. -/
theorem rest_allocateForHost (object : Object) (m : Machine) :
    ∃ heap, stateAfter (allocateForHost object m) = { m with heap } := by
  simp only [allocateForHost]
  obtain ⟨parked, -, ⟨fault, hresult⟩ | ⟨-, hresult⟩⟩ := onHeap_allocate_parks object m
  · rw [hresult]
    dsimp only
    obtain ⟨again, -, ⟨fault, hsecond⟩ | ⟨-, hsecond⟩⟩ :=
      onHeap_allocate_parks object (Machine.collectGarbage { m with heap := parked })
    · rw [hsecond]
      exact ⟨again, rfl⟩
    · rw [hsecond]
      exact ⟨_, rfl⟩
  · rw [hresult]
    exact ⟨_, rfl⟩

/-- How an allocation for the host ends. -/
theorem allocateForHost_cases (object : Object) {m : Machine} (hsound : m.heap.Sound) :
    (∃ base parked, m.Settled base ∧ Heap.Alike base.heap parked ∧
      allocateForHost object m = .ok base.heap.nextRef { base with heap := parked.link object } ∧
      ((parked.link object).Addressable → base.live + allocationNeed object ≤ base.limit)) ∨
    (∃ gaveUp after, m.GaveUp gaveUp ∧ gaveUp.collectGarbage.GaveUp after ∧
      allocateForHost object m = .error hostFault after ∧
      gaveUp.collectGarbage.limit < gaveUp.collectGarbage.live + allocationNeed object) := by
  simp only [allocateForHost]
  rcases onHeap_allocate_cases object hsound with ⟨parked, halike, hresult, hfits⟩ | ⟨gaveUp, hgave, hresult, -⟩
  · rw [hresult]
    exact .inl ⟨m, parked, .asIs, halike, rfl, hfits⟩
  · rw [hresult]
    have hcollected : gaveUp.collectGarbage.heap.Sound :=
      (hsound.of_alike hgave.heap).collect gaveUp.roots
    rcases onHeap_allocate_cases object hcollected with
      ⟨parked, halike, hagain, hfits⟩ | ⟨after, hlast, hagain, hfull⟩
    · dsimp only
      rw [hagain]
      exact .inl ⟨_, parked, .collected hgave, halike, rfl, hfits⟩
    · dsimp only
      rw [hagain]
      exact .inr ⟨gaveUp, after, hgave, hlast, rfl, hfull⟩

/-- Two allocations for the host that both find room. -/
theorem together_allocateForHost {object : Object} {a b : Ref} {left' right' : Machine}
    (hcorr : Corresponds ρ left right) (hrel : ∀ σ, Object.Related σ object object)
    (hleft : allocateForHost object left = .ok a left')
    (hright : allocateForHost object right = .ok b right') :
    ∃ σ, Corresponds σ left' right' ∧ σ.object a b := by
  rcases allocateForHost_cases object hcorr.heap.leftSound with
    ⟨leftBase, leftParked, hleftBase, hleftAlike, hleftResult, -⟩ | ⟨_, _, -, -, hresult, -⟩
  · rcases allocateForHost_cases object hcorr.heap.rightSound with
      ⟨rightBase, rightParked, hrightBase, hrightAlike, hrightResult, -⟩ | ⟨_, _, -, -, hresult, -⟩
    · rw [hleft] at hleftResult
      rw [hright] at hrightResult
      cases hleftResult
      cases hrightResult
      obtain ⟨σ, hbases⟩ := hleftBase.corresponds hrightBase hcorr
      exact ⟨_, hbases.withLink hleftAlike hrightAlike (hrel σ), .inr ⟨rfl, rfl⟩⟩
    · rw [hright] at hresult
      cases hresult
  · rw [hleft] at hresult
    cases hresult

/-- Two allocations for the host that both fail. -/
theorem corresponds_allocateForHost_error {object : Object} {fault fault' : Fault} {left' right' : Machine}
    (hcorr : Corresponds ρ left right) (hleft : allocateForHost object left = .error fault left')
    (hright : allocateForHost object right = .error fault' right') :
    fault = fault' ∧ ∃ σ, Corresponds σ left' right' := by
  rcases allocateForHost_cases object hcorr.heap.leftSound with
    ⟨_, _, -, -, hresult, -⟩ | ⟨leftGave, leftAfter, hleftGave, hleftAfter, hleftResult, -⟩
  · rw [hleft] at hresult
    cases hresult
  · rcases allocateForHost_cases object hcorr.heap.rightSound with
      ⟨_, _, -, -, hresult, -⟩ | ⟨rightGave, rightAfter, hrightGave, hrightAfter, hrightResult, -⟩
    · rw [hright] at hresult
      cases hresult
    · rw [hleft] at hleftResult
      rw [hright] at hrightResult
      cases hleftResult
      cases hrightResult
      obtain ⟨σ, hbases⟩ := (Settled.collected hleftGave).corresponds (.collected hrightGave) hcorr
      have hfirst : Corresponds σ left' _ :=
        ⟨hleftAfter.similar hbases.toSimilar, hleftAfter.openSlots.trans hbases.slots⟩
      have hboth : Corresponds σ.swap right' left' :=
        ⟨hrightAfter.similar hfirst.swap.toSimilar, hrightAfter.openSlots.trans hfirst.swap.slots⟩
      exact ⟨rfl, _, hboth.swap⟩

/-- Puts the closure of a script on the stack and enters it. -/
def startScript (unit : CodeUnit) (script : Ref) : Exec Unit := do
  push (.ofRef script)
  modify fun m =>
    { m with
      frames := m.frames.push
        { base := 1, returnTo := 0, caller := none, closure := script, argumentCount := 0 }
      chunk := unit.script.bind (·.chunk)
      ip := 0 }

theorem enterScript_eq (unit : CodeUnit) (m : Machine) :
    enterScript unit m =
      match unit.verify with
      | .error diagnostic => .error (.failure diagnostic) m
      | .ok () =>
        (allocateForHost (.unboundClosure unit.script) >>= startScript unit) (m.prepared unit) := by
  simp only [enterScript]
  rw [bind_apply]
  cases unit.verify with
  | error diagnostic => rfl
  | ok value => rfl

theorem calm_startScript {a b : Ref} (hcorr : Corresponds ρ left right) (unit : CodeUnit)
    (hpair : ρ.object a b) : Together ρ (startScript unit a left) (startScript unit b right) := by
  refine (calm_push hcorr (Value.related_ofRef hpair)).bind fun _ _ _ _ _ hpushed => ?_
  refine calm_modify ?_
  exact { hpushed with
    frames := rel_push hpushed.frames ⟨rfl, rfl, rfl, rfl, hpair⟩
    chunk := rfl
    ip := rfl }

/-- The closure of a script that was accepted captures nothing. -/
theorem related_script {unit : CodeUnit} (hverified : unit.verify = .ok ()) (σ : Renaming) :
    Object.Related σ (.unboundClosure unit.script) (.unboundClosure unit.script) := by
  obtain ⟨script, hscript, hchecked⟩ := CodeUnit.verify_ok hverified
  rw [hscript, Object.unboundClosure]
  simp only [Option.map_some, hchecked.captures_eq_empty]
  exact .closure _ .nil

theorem calm_beginCall (hcorr : Corresponds ρ left right) (function : String) {a b : Value}
    (hrel : Value.Related ρ a b) {xs ys : List Value} (harguments : List.Forall₂ (Value.Related ρ) xs ys) :
    Together ρ (beginCall function a xs left) (beginCall function b ys right) := by
  have hstep : Together ρ ((push a >>= fun _ => pushAll xs >>= fun _ => callValue a xs.length) left)
      ((push b >>= fun _ => pushAll ys >>= fun _ => callValue b ys.length) right) := by
    refine (calm_push hcorr hrel).bind fun _ _ _ _ _ hpushed => ?_
    refine (calm_pushAll hpushed harguments).bind fun _ _ _ _ _ hready => ?_
    rw [harguments.length_eq]
    exact calm_callValue hready hrel _
  simp only [beginCall]
  generalize (push a >>= fun _ => pushAll xs >>= fun _ => callValue a xs.length) left = first at hstep ⊢
  generalize (push b >>= fun _ => pushAll ys >>= fun _ => callValue b ys.length) right = second at hstep ⊢
  cases hstep with
  | ok hpost hafter => exact .ok hpost hafter
  | @fault fault _ _ hplain hafter =>
    cases fault with
    | failure diagnostic => exact calm_fail rfl hafter.reset
    | exhausted request => exact absurd rfl (hplain request)
    | stray => exact .fault hplain hafter
    | outOfFuel => exact .fault hplain hafter

theorem calm_enterFunction (hcorr : Corresponds ρ left right) (function : String) {xs ys : List Value}
    (harguments : List.Forall₂ (Value.Related ρ) xs ys) :
    Together ρ (enterFunction function xs left) (enterFunction function ys right) := by
  simp only [enterFunction]
  rw [get_bind_apply, get_bind_apply, hcorr.unit, harguments.length_eq]
  cases right.unit.entryPoints[function]? with
  | none => exact calm_fail rfl hcorr
  | some slot =>
    have hglobal := rel_array_getElem? hcorr.globals slot
    dsimp only
    generalize left.globals[slot]? = first at hglobal ⊢
    generalize right.globals[slot]? = second at hglobal ⊢
    cases hglobal with
    | none => exact calm_fail rfl hcorr
    | some hvalue =>
      cases hvalue with
      | none => exact calm_fail rfl hcorr
      | some hvalue =>
        simp only [Option.join_some]
        split
        · exact calm_fail rfl hcorr
        · refine (calm_modify ?_).bind fun _ _ _ _ _ hforgotten => ?_
          · exact hcorr.forgotten
          · exact calm_beginCall hforgotten function hvalue harguments

end Exec

end OwnScript
