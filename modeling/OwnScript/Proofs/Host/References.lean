import OwnScript.Proofs.Host.Requests

/-!
References never dangle. A machine is sound when it corresponds to itself; every step of a machine
and every request of a host keeps it sound, whether it succeeds, fails or is cut off, and wherever a
collection falls. In a sound machine each reference leads to an object.
-/

namespace OwnScript

open Stateful

namespace Machine

/-- Every reference that a machine holds, and every reference inside an object of its heap, leads to
an object of the heap. -/
structure NoDangling (m : Machine) : Prop where
  stack : ∀ value ∈ m.stack, ∀ ref, value.ref? = some ref → ref ∈ m.heap.refs
  globals : ∀ value, some value ∈ m.globals → ∀ ref, value.ref? = some ref → ref ∈ m.heap.refs
  closures : ∀ frame ∈ m.frames, frame.closure ∈ m.heap.refs
  openCells : ∀ entry ∈ m.openCells, entry.cell ∈ m.heap.refs
  pinned : ∀ value ∈ m.pinned, ∀ ref, value.ref? = some ref → ref ∈ m.heap.refs
  hostValues : ∀ value ∈ m.hostValues, ∀ ref, value.ref? = some ref → ref ∈ m.heap.refs
  result : ∀ ref, m.result.ref? = some ref → ref ∈ m.heap.refs
  objects : ∀ ref object, m.heap.get? ref = some object →
    ∀ target ∈ object.references, target ∈ m.heap.refs

/-- A machine that corresponds to itself. -/
def Sound (m : Machine) : Prop :=
  ∃ ρ, Corresponds ρ m m

theorem Sound.noDangling {m : Machine} (hsound : m.Sound) : m.NoDangling := by
  obtain ⟨ρ, hcorr⟩ := hsound
  have hvalue {value : Value} (hrel : ∃ other, Value.Related ρ value other) (ref : Ref)
      (href : value.ref? = some ref) : ref ∈ m.heap.refs := by
    obtain ⟨other, hrel⟩ := hrel
    obtain ⟨partner, _, hpair⟩ := hrel.mentions href
    exact hcorr.heap.mem_refs_of_mentions (.inl ⟨partner, hpair⟩)
  have hlist {values : List Value} (hrel : List.Forall₂ (Value.Related ρ) values values) :
      ∀ value ∈ values, ∀ ref, value.ref? = some ref → ref ∈ m.heap.refs := by
    intro value hmem
    obtain ⟨other, _, h⟩ := exists_related_of_mem hrel hmem
    exact hvalue ⟨other, h⟩
  refine ⟨?_, ?_, ?_, ?_, hlist hcorr.pinned, hlist hcorr.hostValues, hvalue ⟨_, hcorr.result⟩,
    hcorr.heap.leftSound.closed⟩
  · intro value hmem
    exact hlist hcorr.stack value (Array.mem_toList_iff.mpr hmem)
  · intro value hmem
    obtain ⟨other, _, hrel⟩ := exists_related_of_mem hcorr.globals (Array.mem_toList_iff.mpr hmem)
    cases hrel with
    | some h => exact hvalue ⟨_, h⟩
  · intro frame hmem
    exact closure_mem_refs hcorr.toSimilar frame (Array.mem_toList_iff.mpr hmem)
  · intro entry hmem
    exact Heap.mem_refs.mpr ⟨_, hcorr.leftOpen.opened entry hmem⟩

/-- New machines correspond if they have the same settings and the same limit for the heap. -/
theorem corresponds_ofConfig (machine : MachineConfig) {first second : HeapConfig}
    (hlimit : first.maxHeapBytes = second.maxHeapBytes) :
    Corresponds ⟨fun _ _ => False, fun _ _ => False⟩ (ofConfig ⟨machine, first⟩)
      (ofConfig ⟨machine, second⟩) where
  config := rfl
  unit := rfl
  chunk := rfl
  ip := rfl
  instructionStart := rfl
  halted := rfl
  output := rfl
  heap := Heap.corresponds_unpaired (Heap.sound_ofConfig first) (Heap.sound_ofConfig second) <| by
    change (Heap.ofConfig first).config.maxHeapBytes = (Heap.ofConfig second).config.maxHeapBytes
    rw [Heap.maxHeapBytes_ofConfig, Heap.maxHeapBytes_ofConfig, hlimit]
  globals := .nil
  stack := .nil
  leftovers := fun _ _ _ h => absurd h (by simp [ofConfig])
  frames := .nil
  result := Value.related_nil _
  pinned := .nil
  hostValues := .nil
  leftOpen := ⟨.nil, fun _ h => absurd h (by simp [ofConfig])⟩
  rightOpen := ⟨.nil, fun _ h => absurd h (by simp [ofConfig])⟩
  captured := fun _ h => absurd h (by simp [ofConfig])
  listed := fun _ _ _ h => h.elim
  slots := rfl

theorem sound_ofConfig (config : Config) : (ofConfig config).Sound :=
  ⟨_, corresponds_ofConfig config.machine rfl⟩

theorem Sound.idle {m : Machine} (hsound : m.Sound) : m.heap.Idle := by
  obtain ⟨ρ, hcorr⟩ := hsound
  exact hcorr.heap.leftSound.idle

theorem Sound.collectGarbage {m : Machine} (hsound : m.Sound) : m.collectGarbage.Sound := by
  obtain ⟨ρ, hcorr⟩ := hsound
  exact hcorr.collectGarbage

theorem Sound.safepoint {m : Machine} (hsound : m.Sound) : m.safepoint.Sound := by
  obtain ⟨trace, hcollected | hsame⟩ := m.safepoint_cases
  · obtain ⟨ρ, hcorr⟩ := hsound.collectGarbage
    rw [hcollected]
    exact ⟨ρ, { hcorr with instructionStart := rfl }⟩
  · obtain ⟨ρ, hcorr⟩ := hsound
    rw [hsame]
    exact ⟨ρ, { hcorr with instructionStart := rfl }⟩

theorem Sound.reset {m : Machine} (hsound : m.Sound) : m.reset.Sound := by
  obtain ⟨ρ, hcorr⟩ := hsound
  exact ⟨ρ, hcorr.reset⟩

theorem Sound.withIp {m : Machine} (hsound : m.Sound) (ip : Nat) : Sound { m with ip } := by
  obtain ⟨ρ, hcorr⟩ := hsound
  exact ⟨ρ, hcorr.withIp rfl⟩

/-- What a machine that gave up leaves behind is sound. -/
theorem Residue.sound {wanted : List Nat} {need : Nat} {m after : Machine}
    (hresidue : Residue wanted need m after) (hsound : m.Sound) : after.Sound := by
  obtain ⟨ρ, hcorr⟩ := hsound
  obtain ⟨σ, hfirst⟩ := hresidue.similar ρ m hcorr.toSimilar
  obtain ⟨τ, hboth⟩ := hresidue.similar σ.swap after hfirst.swap
  exact ⟨τ, hboth.corresponds fun _ => Iff.rfl⟩

/-- Values that are kept alive correspond to themselves. -/
theorem Sound.takePinned {m : Machine} (hsound : m.Sound) {values : List Value}
    (hkept : ∀ value ∈ values, value ∈ m.pinned) : Sound { m with pinned := values } := by
  obtain ⟨ρ, hcorr⟩ := hsound
  refine ⟨ρ, { hcorr with pinned := List.forall₂_same.mpr fun value hvalue => ?_ }⟩
  exact List.forall₂_same.mp hcorr.pinned value (hkept value hvalue)

/-- Arguments that are kept alive can be pinned once more. -/
theorem Sound.repin {m : Machine} (hsound : m.Sound) {values arguments : List Value}
    (hpinned : m.pinned = values ++ arguments) : Sound { m with pinned := m.pinned ++ arguments } := by
  refine hsound.takePinned fun value hvalue => ?_
  rw [hpinned] at hvalue ⊢
  rcases List.mem_append.mp hvalue with h | h
  · exact h
  · exact List.mem_append_right _ h

end Machine

/-- The pairs of a renaming that pair a reference with itself. -/
def Renaming.diagonal (ρ : Renaming) : Renaming :=
  ⟨fun a b => ρ.object a b ∧ a = b, fun a b => ρ.cell a b ∧ a = b⟩

section Diagonal

variable {ρ : Renaming}

theorem Value.Related.diagonal {value : Value} (hrel : Value.Related ρ value value) :
    Value.Related ρ.diagonal value value := by
  cases value with
  | scalar value => exact .scalar value
  | object target =>
    cases hrel with
    | object h =>
      cases h with
      | some hpair => exact .object (.some ⟨hpair, rfl⟩)
      | none => exact .object .none

theorem Object.Related.diagonal {object : Object} (hrel : Object.Related ρ object object) :
    Object.Related ρ.diagonal object object := by
  cases hrel with
  | string text => exact .string text
  | record hcapacity h =>
    exact .record hcapacity (List.forall₂_same.mpr fun entry hentry =>
      ⟨rfl, (List.forall₂_same.mp h entry hentry).2.diagonal⟩)
  | array hcapacity h =>
    exact .array hcapacity (List.forall₂_same.mpr fun value hvalue =>
      (List.forall₂_same.mp h value hvalue).diagonal)
  | closure prototype h =>
    refine .closure prototype (List.forall₂_same.mpr fun cell hcell => ?_)
    have hself := List.forall₂_same.mp h cell hcell
    cases hself with
    | some hpair => exact .some ⟨hpair, rfl⟩

theorem Upvalue.Related.diagonal {state : Upvalue} (hrel : Upvalue.Related ρ state state) :
    Upvalue.Related ρ.diagonal state state := by
  cases hrel with
  | opened slot => exact .opened slot
  | closed h => exact .closed h.diagonal

theorem Leftovers.Agree.diagonal {heap : Heap} {leftovers : Leftovers}
    (hagree : Agree ρ heap heap leftovers leftovers) : Agree ρ.diagonal heap heap leftovers leftovers := by
  intro slot first second hfirst hsecond
  obtain rfl : first = second := Option.some.inj (hfirst.symm.trans hsecond)
  have hself := hagree slot first first hfirst hfirst
  cases hself with
  | scalar value => exact .scalar value
  | none => exact .none
  | ref ha hb hpair => exact .ref ha hb fun hx hy => ⟨hpair hx hy, rfl⟩

theorem Heap.Corresponds.diagonal {heap : Heap} (hcorr : Heap.Corresponds ρ heap heap) :
    Heap.Corresponds ρ.diagonal heap heap where
  objects a b hpair := by
    obtain ⟨hpair, rfl⟩ := hpair
    obtain ⟨first, second, hfirst, hsecond, hrel⟩ := hcorr.objects a a hpair
    obtain rfl : first = second := Option.some.inj (hfirst.symm.trans hsecond)
    exact ⟨first, first, hfirst, hfirst, hrel.diagonal⟩
  cells a b hpair := by
    obtain ⟨hpair, rfl⟩ := hpair
    obtain ⟨first, second, hfirst, hsecond, hrel⟩ := hcorr.cells a a hpair
    rw [hfirst, Option.some.injEq, Object.upvalue.injEq] at hsecond
    subst hsecond
    exact ⟨first, first, hfirst, hfirst, hrel.diagonal⟩
  objectUnique := ⟨fun _ _ _ h h' => hcorr.objectUnique.1 h.1 h'.1,
    fun _ _ _ h h' => hcorr.objectUnique.2 h.1 h'.1⟩
  cellUnique := ⟨fun _ _ _ h h' => hcorr.cellUnique.1 h.1 h'.1,
    fun _ _ _ h h' => hcorr.cellUnique.2 h.1 h'.1⟩
  leftSound := hcorr.leftSound
  rightSound := hcorr.rightSound
  limit := rfl

end Diagonal

namespace Machine

/-- A sound machine corresponds to itself with every reference paired with itself. -/
theorem Corresponds.diagonal {ρ : Renaming} {m : Machine} (hcorr : Corresponds ρ m m) :
    Corresponds ρ.diagonal m m := by
  have hvalues {values : List Value} (hrel : List.Forall₂ (Value.Related ρ) values values) :
      List.Forall₂ (Value.Related ρ.diagonal) values values :=
    List.forall₂_same.mpr fun value hvalue => (List.forall₂_same.mp hrel value hvalue).diagonal
  exact { hcorr with
    heap := hcorr.heap.diagonal
    globals := List.forall₂_same.mpr fun value hvalue => by
      have hself := List.forall₂_same.mp hcorr.globals value hvalue
      cases hself with
      | none => exact .none
      | some h => exact .some h.diagonal
    stack := hvalues hcorr.stack
    leftovers := hcorr.leftovers.diagonal
    frames := List.forall₂_same.mpr fun frame hframe =>
      ⟨rfl, rfl, rfl, rfl, (List.forall₂_same.mp hcorr.frames frame hframe).closure, rfl⟩
    result := hcorr.result.diagonal
    pinned := hvalues hcorr.pinned
    hostValues := hvalues hcorr.hostValues
    captured := fun first hfirst second hsecond hslot => by
      obtain rfl := hcorr.leftOpen.eq_of_slot hfirst hsecond hslot
      exact ⟨hcorr.captured first hfirst first hfirst rfl, rfl⟩
    listed := fun a b slot hpair hopened => hcorr.listed a b slot hpair.1 hopened }

/-- A value that a host may hand in: a scalar, or a string that is on the heap. -/
inductive Accepts (m : Machine) : Value → Prop where
  | scalar (value : Scalar) : Accepts m (.scalar value)
  | string {ref : Ref} {text : String} : m.heap.get? ref = some (.string text) → Accepts m (.ofRef ref)

/-- A string that no pair mentions joins a machine that corresponds to itself. -/
theorem Corresponds.withString {ρ : Renaming} {m : Machine} (hcorr : Corresponds ρ m m) {ref : Ref}
    {text : String} (hstring : m.heap.get? ref = some (.string text))
    (hleft : ∀ other, ¬ ρ.object ref other) (hright : ∀ other, ¬ ρ.object other ref) :
    Corresponds (ρ.withObject ref ref) m m :=
  ⟨hcorr.toSimilar.withHeap (ρ.le_withObject ref ref)
    (hcorr.heap.pair_objects hstring hstring (.string text) hleft hright) (.refl _) (.refl _)
    (fun _ _ h => h) (fun _ _ _ _ h => h) (fun _ _ => rfl) (fun _ _ => rfl), rfl⟩

theorem Sound.accepted {m : Machine} (hsound : m.Sound) {values : List Value}
    (haccepts : ∀ value ∈ values, m.Accepts value) :
    ∃ ρ, (∀ a b, ρ.object a b → a = b) ∧ Corresponds ρ m m ∧
      List.Forall₂ (Value.Related ρ) values values := by
  induction values with
  | nil =>
    obtain ⟨ρ, hcorr⟩ := hsound
    exact ⟨ρ.diagonal, fun _ _ h => h.2, hcorr.diagonal, .nil⟩
  | cons value rest ih =>
    obtain ⟨hvalue, hrest⟩ := List.forall_mem_cons.mp haccepts
    obtain ⟨ρ, hdiagonal, hcorr, hrel⟩ := ih hrest
    cases hvalue with
    | scalar value => exact ⟨ρ, hdiagonal, hcorr, .cons (.scalar value) hrel⟩
    | @string ref text hstring =>
      by_cases hpaired : ρ.object ref ref
      · exact ⟨ρ, hdiagonal, hcorr, .cons (Value.related_ofRef hpaired) hrel⟩
      · refine ⟨ρ.withObject ref ref, ?_, hcorr.withString hstring ?_ ?_, .cons ?_ ?_⟩
        · rintro a b (h | ⟨rfl, rfl⟩)
          · exact hdiagonal a b h
          · rfl
        · intro other h
          exact hpaired (hdiagonal _ _ h ▸ h)
        · intro other h
          exact hpaired (hdiagonal _ _ h ▸ h)
        · exact Value.related_ofRef (.inr ⟨rfl, rfl⟩)
        · exact hrel.imp fun _ _ h => h.mono (ρ.le_withObject ref ref)

theorem Sound.pin {m : Machine} (hsound : m.Sound) {values : List Value}
    (haccepts : ∀ value ∈ values, m.Accepts value) : Sound { m with pinned := m.pinned ++ values } := by
  obtain ⟨ρ, -, hcorr, hrel⟩ := hsound.accepted haccepts
  exact ⟨ρ, { hcorr with pinned := List.rel_append hcorr.pinned hrel }⟩

end Machine

namespace Exec

open Machine

theorem Calm.sound {α : Type} {ρ : Renaming} {post : α → α → Prop} {result : EStateM.Result Fault Machine α}
    (hcalm : Calm ρ post result result) : (stateAfter result).Sound := by
  cases hcalm with
  | ok _ hcorr => exact ⟨ρ, hcorr⟩
  | fault _ hcorr => exact ⟨ρ, hcorr⟩

theorem sound_dispatch {m : Machine} (hsound : m.Sound) : (stateAfter (dispatch m)).Sound := by
  obtain ⟨ρ, hcorr⟩ := hsound
  cases trial_dispatch hcorr.ready (namesAlike_self m) with
  | calm hcalm => exact hcalm.sound
  | demands hdemands _ _ htogether =>
    by_cases hfull : Full (dispatch m)
    · obtain ⟨asked, after, hresult⟩ := hfull
      obtain ⟨-, hresidue, -⟩ := hdemands.full asked after hresult
      rw [hresult]
      exact (hresidue.sound ⟨ρ, hcorr⟩).withIp after.ip
    · obtain ⟨σ, hcalm⟩ := htogether hfull hfull
      exact hcalm.sound

theorem sound_turn {m : Machine} (hsound : m.Sound) (retried : Bool) :
    (stateAfter (turn retried m)).Sound := by
  have hdispatched := sound_dispatch hsound.safepoint
  unfold turn
  generalize dispatch m.safepoint = result at hdispatched ⊢
  cases result with
  | ok value after => exact hdispatched
  | error fault after =>
    cases fault with
    | exhausted request =>
      dsimp only
      split
      · exact hdispatched.reset
      · exact (hdispatched.withIp _).collectGarbage
    | failure diagnostic => exact hdispatched.reset
    | stray => exact hdispatched
    | outOfFuel => exact hdispatched

theorem Turns.sound {start m : Machine} {retried : Bool} (hturns : Turns start retried m)
    (hsound : start.Sound) : m.Sound := by
  induction hturns with
  | start => exact hsound
  | @next retried again m after _ _ hturn ih =>
    have hafter := sound_turn ih retried
    rw [hturn] at hafter
    exact hafter

theorem sound_runLoop {m : Machine} (hsound : m.Sound) (fuel : Nat) (retried : Bool) :
    (stateAfter (runLoop fuel retried m)).Sound := by
  induction fuel generalizing m retried with
  | zero => exact hsound
  | succ fuel ih =>
    simp only [runLoop]
    rw [get_bind_apply]
    split
    · obtain ⟨ρ, hcorr⟩ := hsound
      exact ⟨ρ, { hcorr with halted := rfl }⟩
    · rw [bind_apply]
      have hturn := sound_turn hsound retried
      generalize turn retried m = result at hturn ⊢
      cases result with
      | ok again after => exact ih hturn again
      | error fault after => exact hturn

theorem attached_turn (retried : Bool) (m : Machine) : Attached m (stateAfter (turn retried m)) := by
  have hsafepoint : Attached m m.safepoint := by
    obtain ⟨trace, hcollected | hsame⟩ := m.safepoint_cases
    · rw [hcollected]
      exact ⟨rfl, rfl, rfl, rfl, rfl⟩
    · rw [hsame]
      exact ⟨rfl, rfl, rfl, rfl, rfl⟩
  have hdispatched := hsafepoint.trans (attached_dispatch m.safepoint)
  unfold turn
  generalize dispatch m.safepoint = result at hdispatched ⊢
  cases result with
  | ok value after => exact hdispatched
  | error fault after =>
    have hreset : Attached after after.reset := ⟨rfl, rfl, rfl, rfl, rfl⟩
    cases fault with
    | exhausted request =>
      dsimp only
      split
      · exact hdispatched.trans hreset
      · exact hdispatched.trans ⟨rfl, rfl, rfl, rfl, rfl⟩
    | failure diagnostic => exact hdispatched.trans hreset
    | stray => exact hdispatched
    | outOfFuel => exact hdispatched

theorem attached_runLoop (fuel : Nat) (retried : Bool) (m : Machine) :
    Attached m (stateAfter (runLoop fuel retried m)) := by
  induction fuel generalizing m retried with
  | zero => exact ⟨rfl, rfl, rfl, rfl, rfl⟩
  | succ fuel ih =>
    simp only [runLoop]
    rw [get_bind_apply]
    split
    · exact ⟨rfl, rfl, rfl, rfl, rfl⟩
    · rw [stateAfter_bind]
      have hturn := attached_turn retried m
      generalize turn retried m = result at hturn ⊢
      cases result with
      | ok again after => exact hturn.trans (ih again after)
      | error fault after => exact hturn

theorem sound_makeString {m : Machine} (hsound : m.Sound) (text : String) :
    (stateAfter (makeString text m)).Sound := by
  obtain ⟨ρ, hcorr⟩ := hsound
  simp only [makeString]
  rw [stateAfter_bind]
  cases hresult : allocateForHost (.string text) m with
  | ok ref after =>
    obtain ⟨σ, hafter, hpair⟩ := together_allocateForHost hcorr (fun _ => .string text) hresult hresult
    exact ⟨σ, { hafter with
      hostValues := List.rel_append hafter.hostValues (.cons (Value.related_ofRef hpair) .nil) }⟩
  | error fault after => exact (corresponds_allocateForHost_error hcorr hresult hresult).2

theorem sound_enterScript {m : Machine} (hsound : m.Sound) (unit : CodeUnit) :
    (stateAfter (enterScript unit m)).Sound := by
  rw [enterScript_eq]
  cases hverified : unit.verify with
  | error diagnostic => exact hsound
  | ok value =>
    obtain ⟨ρ, hcorr⟩ := hsound
    have hprepared := hcorr.prepared unit
    dsimp only
    rw [stateAfter_bind]
    cases hresult : allocateForHost (.unboundClosure unit.script) (m.prepared unit) with
    | ok ref after =>
      obtain ⟨σ, hafter, hpair⟩ :=
        together_allocateForHost hprepared (related_script hverified) hresult hresult
      exact (calm_startScript hafter unit hpair).sound
    | error fault after => exact (corresponds_allocateForHost_error hprepared hresult hresult).2

/-- A host's allocation leaves everything alone but the heap. -/
theorem attached_allocateForHost (object : Object) (m : Machine) :
    Attached m (stateAfter (allocateForHost object m)) := by
  obtain ⟨heap, hrest⟩ := rest_allocateForHost object m
  rw [hrest]
  exact ⟨rfl, rfl, rfl, rfl, rfl⟩

theorem pinned_enterScript (unit : CodeUnit) (m : Machine) :
    (stateAfter (enterScript unit m)).pinned = m.pinned := by
  rw [enterScript_eq]
  cases unit.verify with
  | error diagnostic => rfl
  | ok value =>
    have hallocated := (attached_allocateForHost (.unboundClosure unit.script) (m.prepared unit)).pinned
    dsimp only
    rw [stateAfter_bind]
    generalize allocateForHost (.unboundClosure unit.script) (m.prepared unit) = result at hallocated ⊢
    cases result with
    | error fault after => exact hallocated
    | ok ref after =>
      refine Eq.trans ?_ hallocated
      simp only [startScript]
      rw [stateAfter_bind]
      have hpushed := (attached_push (.ofRef ref) after).pinned
      generalize push (.ofRef ref) after = result at hpushed ⊢
      cases result with
      | ok value pushed => exact hpushed
      | error fault pushed => exact hpushed

theorem pinned_bind_runLoop (x : Exec Unit) (fuel : Nat) (m : Machine) :
    (stateAfter ((x >>= fun _ => runLoop fuel false) m)).pinned = (stateAfter (x m)).pinned := by
  rw [stateAfter_bind]
  cases x m with
  | error fault after => rfl
  | ok value after => exact (attached_runLoop fuel false after).pinned

theorem pinned_load (fuel : Nat) (unit : CodeUnit) (m : Machine) :
    (stateAfter (load fuel unit m)).pinned = m.pinned := by
  rw [load_eq, pinned_bind_runLoop]
  exact pinned_enterScript unit m

theorem sound_bind_runLoop {x : Exec Unit} {m : Machine} (hsound : (stateAfter (x m)).Sound)
    (fuel : Nat) : (stateAfter ((x >>= fun _ => runLoop fuel false) m)).Sound := by
  rw [stateAfter_bind]
  generalize x m = result at hsound ⊢
  cases result with
  | error fault after => exact hsound
  | ok value after => exact sound_runLoop hsound fuel false

theorem sound_load {m : Machine} (hsound : m.Sound) (fuel : Nat) (unit : CodeUnit) :
    (stateAfter (load fuel unit m)).Sound ∧ (stateAfter (load fuel unit m)).pinned = m.pinned := by
  refine ⟨?_, pinned_load fuel unit m⟩
  rw [load_eq]
  exact sound_bind_runLoop (sound_enterScript hsound unit) fuel

theorem sound_enterFunction {m : Machine} {arguments : List Value}
    (hsound : Sound { m with pinned := m.pinned ++ arguments }) (function : String) :
    (stateAfter (enterFunction function arguments { m with pinned := m.pinned ++ arguments })).Sound := by
  obtain ⟨ρ, hcorr⟩ := hsound
  refine (calm_enterFunction hcorr function ?_).sound
  refine List.forall₂_same.mpr fun value hvalue => ?_
  exact List.forall₂_same.mp hcorr.pinned value (List.mem_append_right _ hvalue)

/-- A step under pinned values, after which they are let go. -/
theorem sound_withPinned {α : Type} {values : List Value} {step : Exec α} {m : Machine}
    (hsound : (stateAfter (step { m with pinned := m.pinned ++ values })).Sound)
    (hpinned : (stateAfter (step { m with pinned := m.pinned ++ values })).pinned = m.pinned ++ values) :
    (stateAfter (withPinned values step m)).Sound := by
  simp only [withPinned]
  generalize step { m with pinned := m.pinned ++ values } = result at hsound hpinned ⊢
  have hkept : ∀ value ∈ m.pinned, value ∈ (stateAfter result).pinned := by
    intro value hvalue
    rw [hpinned]
    exact List.mem_append_left _ hvalue
  cases result with
  | ok value after => exact hsound.takePinned hkept
  | error fault after => exact hsound.takePinned hkept

theorem pinned_withPinned {α : Type} (values : List Value) (step : Exec α) (m : Machine) :
    (stateAfter (withPinned values step m)).pinned = m.pinned := by
  simp only [withPinned]
  cases step { m with pinned := m.pinned ++ values } <;> rfl

theorem attached_beginCall (function : String) (callee : Value) (arguments : List Value) (m : Machine) :
    Attached m (stateAfter (beginCall function callee arguments m)) := by
  have hstep : Attached m (stateAfter
      ((push callee >>= fun _ => pushAll arguments >>= fun _ => callValue callee arguments.length) m)) := by
    have hcall (m : Machine) : Attached m (stateAfter (callValue callee arguments.length m)) := by
      rcases stateAfter_callValue callee arguments.length m with ⟨closure, prototype, cells, -, h⟩ | h
      · rw [h]
        exact ⟨rfl, rfl, rfl, rfl, rfl⟩
      · rw [h]
        exact ⟨rfl, rfl, rfl, rfl, rfl⟩
    refine attached_bind (attached_push callee m) fun _ middle => attached_bind ?_ fun _ => hcall
    have hsteady : Steady (fun _ _ => True) middle (stateAfter (pushAll arguments middle)) :=
      steady_pushAll arguments
    exact hsteady.toAttached
  simp only [beginCall]
  generalize (push callee >>= fun _ => pushAll arguments >>= fun _ =>
    callValue callee arguments.length) m = result at hstep ⊢
  cases result with
  | ok value after => exact hstep
  | error fault after =>
    cases fault with
    | failure diagnostic => exact hstep.trans ⟨rfl, rfl, rfl, rfl, rfl⟩
    | exhausted request => exact hstep
    | stray => exact hstep
    | outOfFuel => exact hstep

theorem pinned_enterFunction (function : String) (arguments : List Value) (m : Machine) :
    (stateAfter (enterFunction function arguments m)).pinned = m.pinned := by
  simp only [enterFunction]
  rw [get_bind_apply]
  cases m.unit.entryPoints[function]? with
  | none => rfl
  | some slot =>
    dsimp only
    cases (m.globals[slot]?).join with
    | none => rfl
    | some callee =>
      dsimp only
      split
      · rfl
      · exact (attached_beginCall function callee arguments _).pinned

theorem sound_callGlobal {m : Machine} {arguments : List Value}
    (hsound : Sound { m with pinned := m.pinned ++ arguments }) (fuel : Nat) (function : String) :
    (stateAfter (callGlobal fuel function arguments m)).Sound := by
  rw [callGlobal_eq]
  have hafter := sound_bind_runLoop (sound_enterFunction hsound function) fuel
  exact sound_withPinned hafter ((pinned_bind_runLoop _ fuel _).trans (pinned_enterFunction function arguments _))

theorem stateAfter_discard {α : Type} (x : Exec α) (m : Machine) :
    stateAfter ((discard x : Exec Unit) m) = stateAfter (x m) := by
  change stateAfter (((fun _ => ()) <$> x : Exec Unit) m) = _
  rw [map_apply]
  cases x m <;> rfl

theorem sound_run {m : Machine} {arguments : List Value}
    (hsound : Sound { m with pinned := m.pinned ++ arguments }) (fuel : Nat) (unit : CodeUnit)
    (entry : String) : (stateAfter (run fuel unit entry arguments m)).Sound := by
  have hloaded := sound_load hsound fuel unit
  have hbody : (stateAfter ((load fuel unit >>= fun value =>
        if entry.isEmpty then pure value else callGlobal fuel entry arguments)
          { m with pinned := m.pinned ++ arguments })).Sound ∧
      (stateAfter ((load fuel unit >>= fun value =>
        if entry.isEmpty then pure value else callGlobal fuel entry arguments)
          { m with pinned := m.pinned ++ arguments })).pinned = m.pinned ++ arguments := by
    rw [stateAfter_bind]
    generalize load fuel unit { m with pinned := m.pinned ++ arguments } = result at hloaded ⊢
    cases result with
    | error fault after => exact hloaded
    | ok value after =>
      obtain ⟨hafter, hpinned⟩ := hloaded
      dsimp only
      split
      · exact ⟨hafter, hpinned⟩
      · refine ⟨sound_callGlobal (hafter.repin hpinned) fuel entry, ?_⟩
        rw [callGlobal_eq, pinned_withPinned]
        exact hpinned
  exact sound_withPinned hbody.1 hbody.2

theorem sound_serve {m : Machine} (hsound : m.Sound) {request : HostRequest}
    (haccepts : ∀ value ∈ request.arguments, m.Accepts value) (fuel : Nat) :
    (stateAfter (serve fuel request m)).Sound := by
  cases request with
  | makeString text =>
    simp only [serve, stateAfter_discard]
    exact sound_makeString hsound text
  | execute unit =>
    simp only [serve, stateAfter_discard]
    exact (sound_load hsound fuel unit).1
  | call function arguments =>
    simp only [serve, stateAfter_discard]
    exact sound_callGlobal (hsound.pin haccepts) fuel function
  | run unit entry arguments =>
    simp only [serve, stateAfter_discard]
    exact sound_run (hsound.pin haccepts) fuel unit entry
  | collect => exact hsound.collectGarbage

/-- The machine stays sound while a request is served. -/
theorem Passes.sound {request : HostRequest} {m after : Machine} (hpasses : Passes request m after)
    (hsound : Sound { m with pinned := m.pinned ++ request.arguments }) : after.Sound := by
  induction hpasses with
  | @script unit m start after retried hstart hturns =>
    have hentered := sound_enterScript (hsound.takePinned fun _ h => List.mem_append_left _ h) unit
    rw [hstart] at hentered
    exact hturns.sound hentered
  | @function name arguments m start after retried hstart hturns =>
    change Sound { m with pinned := m.pinned ++ arguments } at hsound
    have hentered := sound_enterFunction hsound name
    rw [hstart] at hentered
    exact hturns.sound hentered
  | @runScript unit entry arguments m after _ ih =>
    refine ih ?_
    simpa [HostRequest.arguments] using hsound
  | @runFunction unit entry arguments m loaded after fuel value hload _ _ ih =>
    change Sound { m with pinned := m.pinned ++ arguments } at hsound
    obtain ⟨hafter, hpinned⟩ := sound_load hsound fuel unit
    rw [hload] at hafter hpinned
    exact ih (hafter.repin hpinned)

/-- A host that hands in scalars and strings that are on the heap. -/
def handsInGoodValues (m : Machine) (request : HostRequest) : Prop :=
  ∀ value ∈ request.arguments, m.Accepts value

theorem Session.sound {allowed : Machine → HostRequest → Prop} {config : Config} {m : Machine}
    (hgood : ∀ before request, allowed before request → handsInGoodValues before request)
    (hsession : Session allowed config m) : m.Sound := by
  induction hsession with
  | fresh => exact sound_ofConfig config
  | next fuel _ hallowed ih => exact sound_serve ih (hgood _ _ hallowed) fuel

/-- The values handed in are good, and while the request is served every instruction names slots below the top
only. -/
def isServedBelow (m : Machine) (request : HostRequest) : Prop :=
  handsInGoodValues m request ∧ ServesBelow request m

/-- As long as instructions name slots below the top only, references never dangle, neither between the requests of a
host nor at any instruction boundary that the machine passes while it serves one. -/
theorem session_noDangling {config : Config} {m : Machine} (hsession : Session isServedBelow config m) :
    m.NoDangling ∧ ∀ request after, isServedBelow m request → Passes request m after → after.NoDangling := by
  have hsound : m.Sound := hsession.sound fun _ _ hserved => hserved.1
  refine ⟨hsound.noDangling, fun request after hserved hpasses => ?_⟩
  exact (hpasses.sound (hsound.pin hserved.1)).noDangling

/-- A host runs a script that makes a closure, and then runs it again on the same machine. -/
theorem session_noDangling_peek :
    (stateAfter (serve 20 (.run peekUnit "" []) (.ofConfig {}))).NoDangling ∧
      ∀ after, Passes (.run peekUnit "" []) (stateAfter (serve 20 (.run peekUnit "" []) (.ofConfig {}))) after →
        after.NoDangling := by
  have hserved {m : Machine} (hholds : scriptHolds Machine.isBelow peekUnit 20 m = true) :
      isServedBelow m (.run peekUnit "" []) :=
    ⟨nofun, fun _ hpasses _ => Machine.staysBelow_of_isBelow (hpasses.checked hholds)⟩
  have hnew : Session isServedBelow {} (.ofConfig {}) := .fresh
  obtain ⟨hbetween, hserving⟩ := session_noDangling (.next 20 hnew (hserved (by decide +kernel)))
  exact ⟨hbetween, fun after hpasses => hserving _ after (hserved (by decide +kernel)) hpasses⟩

/-- A function that binds its argument after it has taken it off the stack and pushed nil. -/
def belatedBinding : CodeUnit :=
  hindsightUnit (fun chunk => chunk.writeOp .pushNil {}) (.node .binding [])

/-- Above the top a reference outlives its object: on a machine that collects before every instruction the
next one names a slot there, and the object that its reference led to was given up. -/
theorem session_leftover_dangles :
    belatedBinding.verify = .ok () ∧
      ∃ after, Passes (.execute belatedBinding) (.ofConfig { heap := { stress := true } }) after ∧
        after.instruction? = some (.matchArgs, 0, 0) ∧ 2 ∈ after.namedSlots .matchArgs 0 ∧
        after.stack.size ≤ 2 ∧ ∃ ref, (after.leftovers.values[2]?.bind Value.ref?) = some ref ∧
          after.heap.get? ref = none := by
  have hverified : belatedBinding.verify = .ok () := by decide +kernel
  have hreached : (boundary belatedBinding 6 (.ofConfig { heap := { stress := true } })).map
      (fun m => (m.instruction?, m.namedSlots .matchArgs 0, m.stack.size,
        (m.leftovers.values[2]?.bind Value.ref?).map fun ref => (m.heap.get? ref).isNone)) =
      some (some (.matchArgs, 0, 0), [2], 2, some true) := by decide +kernel
  obtain ⟨after, hboundary, hfacts⟩ := Option.map_eq_some_iff.mp hreached
  simp only [Prod.mk.injEq, Option.map_eq_some_iff, Option.isNone_iff_eq_none] at hfacts
  obtain ⟨hinstruction, hnamed, hsize, ref, hleft, hgone⟩ := hfacts
  refine ⟨hverified, after, passes_boundary hboundary, hinstruction, ?_, hsize.le, ref, hleft, hgone⟩
  rw [hnamed]
  exact List.mem_singleton_self 2

end Exec

end OwnScript
