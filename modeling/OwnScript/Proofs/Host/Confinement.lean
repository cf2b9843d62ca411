import OwnScript.Proofs.Host.Placement

/-!
Verified code stays inside itself. While a machine serves a unit that was accepted, it runs the code
of the closure of its innermost call, it stands at the start of an instruction, and what that
instruction looks up in the tables of the code, among the globals and among the captured variables is
there.
-/

namespace OwnScript

open Stateful

namespace Machine

/-- In a sound machine every variable that the running closure has captured has its cell. -/
theorem Sound.hasCell {m : Machine} (hsound : m.Sound) {frame : Frame}
    (hframe : m.frames.back? = some frame) {prototype : Option Prototype} {cells : Array (Option Ref)}
    (hclosure : m.heap.get? frame.closure = some (.closure prototype cells)) {index : Nat}
    (hindex : index < cells.size) : m.HasCell cells index := by
  obtain ⟨ρ, hcorr⟩ := hsound
  have hmem : frame ∈ m.frames.toList := Array.mem_toList_iff.mpr (Array.mem_of_back? hframe)
  have hpair := (List.forall₂_same.mp hcorr.frames frame hmem).closure
  obtain ⟨first, second, hfirst, -, hrel⟩ := hcorr.heap.objects _ _ hpair
  obtain rfl := Option.some.inj (hclosure.symm.trans hfirst)
  cases hrel with
  | @closure _ _ other hcells =>
    obtain ⟨partner, -, hcell⟩ := exists_related_of_mem hcells
      (Array.mem_toList_iff.mpr (Array.getElem_mem hindex))
    generalize hfound : cells[index] = found at hcell
    cases hcell with
    | @some left right hcell =>
      obtain ⟨state, _, hstate, -, -⟩ := hcorr.heap.cells _ _ hcell
      exact ⟨left, state, by rw [Array.getElem?_eq_getElem hindex, hfound], hstate⟩

/-- A machine in which nothing but a given unit was ever loaded. -/
structure Dedicated (unit : CodeUnit) (m : Machine) : Prop where
  loaded : m.unit = unit ∨ m.unit = {}
  globals : m.globals.size = m.unit.globalNames.size
  closures : ∀ ref prototype cells, m.heap.get? ref = some (.closure prototype cells) →
    VerifiedClosure unit.globalNames.size prototype cells

theorem OnCourse.dedicated {m : Machine} (hcourse : m.OnCourse) : m.Dedicated m.unit :=
  ⟨.inl rfl, hcourse.globals, hcourse.closures⟩

theorem Dedicated.stocked {unit : CodeUnit} {m : Machine} (hdedicated : m.Dedicated unit) :
    m.Stocked (· = unit.globalNames.size) := fun ref prototype cells h =>
  verifiedFor_only.mpr (hdedicated.closures ref prototype cells h)

theorem Dedicated.of_stocked {unit : CodeUnit} {m after : Machine} (hdedicated : m.Dedicated unit)
    (hunit : after.unit = m.unit) (hglobals : after.globals.size = m.globals.size)
    (hstocked : after.Stocked (· = unit.globalNames.size)) : after.Dedicated unit :=
  ⟨hunit ▸ hdedicated.loaded, by rw [hglobals, hunit]; exact hdedicated.globals,
    fun ref prototype cells h => verifiedFor_only.mp (hstocked ref prototype cells h)⟩

end Machine

namespace Exec

open Machine

theorem dedicated_makeString {unit : CodeUnit} {m : Machine} (hsound : m.Sound)
    (hdedicated : m.Dedicated unit) (text : String) :
    (stateAfter (makeString text m)).Dedicated unit := by
  have hstocked := stocked_makeString hsound.orderly hdedicated.stocked text
  have hattached := attached_allocateForHost (.string text) m
  simp only [makeString] at hstocked ⊢
  rw [stateAfter_bind] at hstocked ⊢
  generalize allocateForHost (.string text) m = result at hattached hstocked ⊢
  cases result with
  | ok ref after => exact hdedicated.of_stocked hattached.unit hattached.globals hstocked
  | error fault after => exact hdedicated.of_stocked hattached.unit hattached.globals hstocked

/-- Once a verified unit was entered it is loaded, with a place for each of its globals. -/
theorem loaded_enterScript {unit : CodeUnit} (hverified : unit.verify = .ok ()) (m : Machine) :
    (stateAfter (enterScript unit m)).unit = unit ∧
      (stateAfter (enterScript unit m)).globals.size = unit.globalNames.size := by
  have hattached := attached_allocateForHost (.unboundClosure unit.script) (m.prepared unit)
  have hglobals : (m.prepared unit).globals.size = unit.globalNames.size := by simp [Machine.prepared]
  rw [enterScript_eq, hverified]
  dsimp only
  rw [stateAfter_bind]
  generalize allocateForHost (.unboundClosure unit.script) (m.prepared unit) = result at hattached ⊢
  cases result with
  | error fault after => exact ⟨hattached.unit, hattached.globals.trans hglobals⟩
  | ok script after =>
    dsimp only
    rcases startScript_cases unit script after with hstarted | hrefused
    · rw [hstarted]
      exact ⟨hattached.unit, hattached.globals.trans hglobals⟩
    · rw [hrefused]
      exact ⟨hattached.unit, hattached.globals.trans hglobals⟩

/-- A run of a verified unit starts at the first instruction of its script. -/
theorem course_enterScript {unit : CodeUnit} (hverified : unit.verify = .ok ()) {m : Machine}
    (hsound : m.Sound) (hdedicated : m.Dedicated unit) :
    (stateAfter (enterScript unit m)).Dedicated unit ∧
      ∀ start, enterScript unit m = .ok () start → start.OnCourse ∧ start.unit = unit := by
  obtain ⟨hstocked, hplace⟩ := @inPlace_enterScript (· = unit.globalNames.size) unit rfl m hsound.orderly
    hdedicated.stocked
  obtain ⟨hunit, hglobals⟩ := loaded_enterScript hverified m
  refine ⟨⟨.inl hunit, hglobals.trans (by rw [hunit]), fun ref prototype cells h =>
    verifiedFor_only.mp (hstocked ref prototype cells h)⟩, fun start hstart => ?_⟩
  rw [hstart] at hunit hglobals
  obtain rfl : start.unit = unit := hunit
  exact ⟨.of_inPlace hglobals (hplace start hstart), rfl⟩

/-- A call by the host leaves the unit loaded, and succeeds only if the unit has the function. -/
theorem unit_enterFunction (function : String) (arguments : List Value) (m : Machine) :
    (stateAfter (enterFunction function arguments m)).unit = m.unit ∧
      (stateAfter (enterFunction function arguments m)).globals.size = m.globals.size ∧
      ∀ start, enterFunction function arguments m = .ok () start →
        ∃ slot, m.unit.entryPoints[function]? = some slot := by
  simp only [enterFunction]
  rw [get_bind_apply]
  cases m.unit.entryPoints[function]? with
  | none => exact ⟨rfl, rfl, fun start h => by cases h⟩
  | some slot =>
    dsimp only
    cases (m.globals[slot]?).join with
    | none => exact ⟨rfl, rfl, fun start h => by cases h⟩
    | some callee =>
      dsimp only
      split
      · exact ⟨rfl, rfl, fun start h => by cases h⟩
      · have hattached := attached_beginCall function callee arguments { m.reset with hostValues := [] }
        exact ⟨hattached.unit, hattached.globals, fun _ _ => ⟨slot, rfl⟩⟩

/-- A call by the host starts at the first instruction of the function. -/
theorem course_enterFunction {unit : CodeUnit} {m : Machine} (hdedicated : m.Dedicated unit)
    (function : String) (arguments : List Value) :
    (stateAfter (enterFunction function arguments m)).Dedicated unit ∧
      ∀ start, enterFunction function arguments m = .ok () start → start.OnCourse ∧ start.unit = unit := by
  obtain ⟨hstocked, hplace⟩ := inPlace_enterFunction hdedicated.stocked function arguments
  obtain ⟨hunit, hglobals, hentry⟩ := unit_enterFunction function arguments m
  have hafter := hdedicated.of_stocked hunit hglobals hstocked
  refine ⟨hafter, fun start hstart => ?_⟩
  rw [hstart] at hafter hunit
  obtain ⟨slot, hslot⟩ := hentry start hstart
  have hloaded : start.unit = unit := by
    rcases hdedicated.loaded with h | h
    · exact hunit.trans h
    · rw [h] at hslot
      simp at hslot
  refine ⟨.of_inPlace hafter.globals ?_, hloaded⟩
  rw [hloaded]
  exact hplace start hstart

/-- One turn: an instruction is carried out, it gives up and will run again, or the run ends. -/
theorem course_turn {m : Machine} (hsound : m.Sound) (hcourse : m.OnCourse) (retried : Bool) :
    (stateAfter (turn retried m)).Dedicated m.unit ∧
      ∀ again after, turn retried m = .ok again after → after.OnCourse ∧ after.unit = m.unit := by
  obtain ⟨hstocked, hplace⟩ := inPlace_turn hsound.orderly hcourse.inPlace retried
  have hattached := attached_turn retried m
  refine ⟨hcourse.dedicated.of_stocked hattached.unit hattached.globals hstocked, fun again after hturn => ?_⟩
  rw [hturn] at hattached
  have hunit : after.unit = m.unit := hattached.unit
  have hglobals : after.globals.size = m.globals.size := hattached.globals
  refine ⟨.of_inPlace ?_ ?_, hunit⟩
  · rw [hglobals, hunit]
    exact hcourse.globals
  · rw [hunit]
    exact hplace again after hturn

/-- A verified unit keeps a machine on course for as long as the machine serves it. -/
theorem lasting_onCourse {unit : CodeUnit} (hverified : unit.verify = .ok ()) :
    Lasting (· = unit) (Machine.Dedicated unit) (fun m => m.OnCourse ∧ m.unit = unit) where
  rest_of_active h := h.2 ▸ h.1.dedicated
  fresh config := ⟨.inr rfl, rfl, fun ref prototype cells h => by
    simp [Machine.ofConfig, Heap.ofConfig, Heap.get?] at h⟩
  pinned _ h := ⟨h.loaded, h.globals, h.closures⟩
  resumed h := ⟨h.loaded, h.globals, h.closures⟩
  collected hsound h := h.of_stocked rfl rfl
    (h.stocked.of_closures fun _ _ _ hclosure => .inl (closures_collectGarbage hsound.idle hclosure))
  string hsound h text := dedicated_makeString hsound h text
  script hserved hsound h := by
    subst hserved
    exact course_enterScript hverified hsound h
  function _ h function arguments := course_enterFunction h function arguments
  turn hsound h _ retried := by
    obtain ⟨hcourse, rfl⟩ := h
    exact course_turn hsound hcourse retried

end Exec

end OwnScript
