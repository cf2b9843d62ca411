import OwnScript.Proofs.Machine.Capture

/-!
The making of a closure, on both sides. Each side may give up at any of its allocations and leave
cells behind that a later attempt finds; when both get through, the closures are partners and the
machines correspond, whatever each had captured before.
-/

namespace OwnScript

open Stateful

namespace Exec

open Machine

/-- How capturing ends: with a cell for every capture, at a capture that leads nowhere, or at a slot
whose cell does not fit. -/
inductive CaptureOutcome (m : Machine) (base : Nat) (outer : Array (Option Ref))
    (captures : List Capture) (found : List (Option Ref)) :
    EStateM.Result Fault Machine (List (Option Ref)) → Prop where
  | ok {after : Machine} {cells : List (Option Ref)} :
      Captures m (capturedSlots base outer.size captures) after →
      List.Forall₂ (CapturedCell after base outer) captures cells →
      CaptureOutcome m base outer captures found (.ok (found.reverse ++ cells) after)
  | stray {after : Machine} {capture : Capture} :
      Captures m (capturedSlots base outer.size captures) after →
      capture ∈ captures → capture.isLocal = false → outer.size ≤ capture.index →
      CaptureOutcome m base outer captures found (.error .stray after)
  | full {middle after : Machine} {slot : Nat} (captured rest : List Nat) :
      capturedSlots base outer.size captures = captured ++ slot :: rest →
      Captures m captured middle → slot ∉ middle.openSlots → middle.limit < middle.live + 80 →
      middle.GaveUp after →
      CaptureOutcome m base outer captures found (.error (.exhausted ⟨80⟩) after)

variable {m : Machine} {base : Nat} {outer : Array (Option Ref)} {capture : Capture}
  {rest : List Capture} {found : List (Option Ref)}

/-- A captured slot in front of others. -/
theorem CaptureOutcome.cons_local {next : Machine} (entry : OpenCell)
    {result : EStateM.Result Fault Machine (List (Option Ref))} (hlocal : capture.isLocal = true)
    (hstep : ∀ slots after, Captures next slots after →
      Captures m ((base + capture.index) :: slots) after)
    (hentry : entry ∈ next.openCells) (hslot : entry.slot = base + capture.index)
    (hrest : CaptureOutcome next base outer rest (some entry.cell :: found) result) :
    CaptureOutcome m base outer (capture :: rest) found result := by
  have hslots : capturedSlots base outer.size (capture :: rest) =
      (base + capture.index) :: capturedSlots base outer.size rest := by
    simp [capturedSlots, hlocal]
  cases hrest with
  | @ok after cells hcaptures hcells =>
    have hfirst : CapturedCell after base outer capture (some entry.cell) := by
      rw [CapturedCell, if_pos hlocal]
      exact ⟨entry, hcaptures.kept_entry hentry, hslot, rfl⟩
    rw [List.reverse_cons, List.append_assoc, List.singleton_append]
    exact .ok (hslots ▸ hstep _ _ hcaptures) (.cons hfirst hcells)
  | stray hcaptures hmem hother hrange =>
    exact .stray (hslots ▸ hstep _ _ hcaptures) (List.mem_cons_of_mem _ hmem) hother hrange
  | full captured later heq hcaptures hclosed hlimit hgave =>
    exact .full ((base + capture.index) :: captured) later (by rw [hslots, heq]; rfl)
      (hstep _ _ hcaptures) hclosed hlimit hgave

/-- A capture from the running closure in front of others. -/
theorem CaptureOutcome.cons_outer {cell : Option Ref}
    {result : EStateM.Result Fault Machine (List (Option Ref))} (hlocal : capture.isLocal = false)
    (hcell : outer[capture.index]? = some cell)
    (hrest : CaptureOutcome m base outer rest (cell :: found) result) :
    CaptureOutcome m base outer (capture :: rest) found result := by
  obtain ⟨hrange, -⟩ := Array.getElem?_eq_some_iff.mp hcell
  have hslots : capturedSlots base outer.size (capture :: rest) = capturedSlots base outer.size rest := by
    simp [capturedSlots, hlocal, hrange]
  cases hrest with
  | @ok after cells hcaptures hcells =>
    have hfirst : CapturedCell after base outer capture cell := by
      rw [CapturedCell, if_neg (by simp [hlocal])]
      exact hcell
    rw [List.reverse_cons, List.append_assoc, List.singleton_append]
    exact .ok (hslots ▸ hcaptures) (.cons hfirst hcells)
  | stray hcaptures hmem hother hbeyond =>
    exact .stray (hslots ▸ hcaptures) (List.mem_cons_of_mem _ hmem) hother hbeyond
  | full captured later heq hcaptures hclosed hlimit hgave =>
    exact .full captured later (hslots.trans heq) hcaptures hclosed hlimit hgave

theorem captureAll_outcome (hsound : m.heap.Sound) (base : Nat) (outer : Array (Option Ref))
    (captures : List Capture) (found : List (Option Ref)) :
    CaptureOutcome m base outer captures found (captureAll base outer captures found m) := by
  induction captures generalizing m found with
  | nil =>
    have hdone : CaptureOutcome m base outer [] found (.ok (found.reverse ++ []) m) :=
      .ok (Captures.done m) .nil
    rwa [List.append_nil] at hdone
  | cons capture rest ih =>
    simp only [captureAll]
    cases hlocal : capture.isLocal with
    | true =>
      rw [if_pos rfl, bind_apply, map_apply]
      rcases captureCell_cases hsound (base + capture.index) with
        ⟨entry, hentry, hslot, hresult⟩ | ⟨hclosed, parked, halike, hfits, hresult⟩ |
          ⟨hclosed, hlimit, after, hgave, hresult⟩
      · rw [hresult]
        have hopen : base + capture.index ∈ m.openSlots := mem_openSlots.mpr ⟨entry, hentry, hslot⟩
        exact .cons_local entry hlocal (fun _ _ h => .shared hopen h) hentry hslot (ih hsound _)
      · rw [hresult]
        have hlinked : (m.capturing parked (base + capture.index)).heap.Sound :=
          (hsound.of_alike halike).link (by simp [Object.references])
        exact .cons_local ⟨base + capture.index, m.heap.nextRef⟩ hlocal
          (fun _ _ h => .opened hclosed halike hfits h) (mem_insertCell.mpr (.inl rfl)) rfl
          (ih hlinked _)
      · rw [hresult]
        refine .full [] (capturedSlots base outer.size rest) ?_ (Captures.done m) hclosed hlimit hgave
        simp [capturedSlots, hlocal]
    | false =>
      rw [if_neg (by simp), bind_apply]
      cases hcell : outer[capture.index]? with
      | some cell => exact .cons_outer hlocal hcell (ih hsound _)
      | none =>
        have hrange : outer.size ≤ capture.index := Array.getElem?_eq_none_iff.mp hcell
        have hnone : capturedSlots base outer.size (capture :: rest) = [] := by
          simp [capturedSlots, hlocal, hrange]
        exact .stray (hnone ▸ Captures.done m) (List.mem_cons_self ..) hlocal hrange

end Exec

namespace Machine

open Captures

/-- What an instruction that gave up leaves behind: garbage, and new cells for some of the slots that
it wanted. Once it has made a cell, the rest of its need is known to fit. -/
structure Residue (wanted : List Nat) (need : Nat) (m after : Machine) : Prop where
  rest : after = { m with heap := after.heap, openCells := after.openCells }
  similar : ∀ ρ other, Similar ρ m other → ∃ σ, Similar σ after other
  grows : ∀ slot ∈ m.openSlots, slot ∈ after.openSlots
  within : ∀ slot ∈ after.openSlots, slot ∈ m.openSlots ∨ slot ∈ wanted
  room : (missing m after.openSlots).Nonempty → after.heap.Addressable →
    m.heap.footprint + need + 80 * (missing m after.openSlots).card ≤ m.limit

/-- The slots that a new closure of a function would capture. -/
def closureSlots (m : Machine) (prototype : Prototype) : List Nat :=
  match m.frames.back? with
  | none => []
  | some frame =>
    match m.heap.get? frame.closure with
    | some (.closure _ cells) => capturedSlots frame.base cells.size prototype.captures.toList
    | _ => []

theorem GaveUp.similar {m after : Machine} (hgave : m.GaveUp after) {ρ : Renaming} {other : Machine}
    (hsim : Similar ρ m other) : Similar ρ after other := by
  have hheap := hsim.heap.alike_left hgave.heap
  rw [hgave.rest]
  exact { hsim with
    heap := hheap
    leftovers := hsim.leftovers.later (Renaming.le_refl ρ) hgave.heap.ages (.refl _)
    leftOpen := ⟨hsim.leftOpen.descending, fun entry hentry =>
      (hgave.heap.get? entry.cell).trans (hsim.leftOpen.opened entry hentry)⟩
    listed := fun a b slot hpair hopened =>
      hsim.listed a b slot hpair ((hgave.heap.get? a).symm.trans hopened) }

theorem GaveUp.openSlots {m after : Machine} (hgave : m.GaveUp after) : after.openSlots = m.openSlots := by
  rw [hgave.rest]
  rfl

theorem missing_self (m : Machine) : missing m m.openSlots = ∅ := by
  simp [missing]

theorem GaveUp.residue {m after : Machine} (hgave : m.GaveUp after) (wanted : List Nat) (need : Nat) :
    Residue wanted need m after where
  rest := by
    rw [hgave.rest]
  similar ρ other hsim := ⟨ρ, hgave.similar hsim⟩
  grows slot hslot := by
    rw [hgave.openSlots]
    exact hslot
  within slot hslot := by
    rw [hgave.openSlots] at hslot
    exact .inl hslot
  room hnew := by
    rw [hgave.openSlots, missing_self] at hnew
    exact absurd hnew (by simp)

/-- A new object on the left that nothing refers to. -/
theorem Similar.linkLeft {ρ : Renaming} {left right : Machine} (hsim : Similar ρ left right)
    {parked : Heap} (halike : Heap.Alike left.heap parked) {object : Object}
    (hrefs : object.references = []) :
    Similar ρ { left with heap := parked.link object } right := by
  have hother (ref : Ref) (hne : ref ≠ left.heap.nextRef) :
      (parked.link object).get? ref = left.heap.get? ref := by
    rw [Heap.get?_link, halike.nextRef, if_neg hne, halike.get?]
  exact { hsim with
    heap := (hsim.heap.alike_left halike).link_left (by simp [hrefs])
    leftovers := hsim.leftovers.later (Renaming.le_refl ρ) (halike.ages_link object) (.refl _)
    leftOpen := ⟨hsim.leftOpen.descending, fun entry hentry =>
      (hother _ (openCells_ne_nextRef hsim.leftOpen hsim.heap.leftSound.bounded hentry)).trans
        (hsim.leftOpen.opened entry hentry)⟩
    listed := fun a b slot hpair hopened =>
      hsim.listed a b slot hpair ((hother a (hsim.heap.ne_nextRef (.inr ⟨b, hpair⟩))).symm.trans hopened) }

end Machine

namespace Exec

open Machine Captures

/-- An instruction needs room for one object and for the cells of slots that have none. -/
structure Demands (wanted : List Nat) (need : Nat) (request : UInt64 → HeapExhausted) (m : Machine)
    (result : EStateM.Result Fault Machine Unit) : Prop where
  full : ∀ asked after, result = .error (.exhausted asked) after →
    m.limit < m.live + need + 80 * (missing m wanted).card ∧
      Residue wanted need m { after with ip := m.ip } ∧
      (after.heap.Addressable → asked =
        if m.live + need ≤ m.limit then ⟨80⟩ else request m.heap.statistics.bytesLive)
  fits : ¬ Full result → (stateAfter result).heap.Addressable →
    m.live + need + 80 * (missing m wanted).card ≤ m.limit

theorem Needs.demands {need : Nat} {request : UInt64 → HeapExhausted} {m : Machine}
    {result : EStateM.Result Fault Machine Unit} (hneeds : Needs need request m result) :
    Demands [] need request m result where
  full asked after hresult := by
    obtain ⟨hover, hasked, hgave⟩ := hneeds.full asked after hresult
    have hip : { after with ip := m.ip } = after := by
      rw [hgave.rest]
    refine ⟨by simpa [missing] using hover, by rw [hip]; exact hgave.residue _ _, fun _ => ?_⟩
    rw [hasked, if_neg (Nat.not_le.mpr hover)]
  fits hplain hspace := by simpa [missing] using hneeds.fits hplain hspace

/-- The second half of the making of a closure: its cells. -/
def bindClosure (prototype : Prototype) (closure : Ref) : Exec Unit := do
  let base := (← frame).base
  let cells ← captureAll base (← upvalues) prototype.captures.toList []
  modify fun m =>
    { m with heap := m.heap.update closure (.closure (some prototype) cells.toArray) }
  push (.ofRef closure)

theorem pushClosure_eq (prototype : Prototype) :
    pushClosure prototype =
      (onHeap (Heap.allocate (.unboundClosure (some prototype))) >>= bindClosure prototype) := rfl

theorem memorySize_unboundClosure (prototype : Prototype) {cells : Array (Option Ref)}
    (hsize : cells.size = prototype.captures.size) :
    (Object.closure (some prototype) cells).memorySize =
      (Object.unboundClosure (some prototype)).memorySize := by
  simp [Object.unboundClosure, Object.memorySize, Object.blockSize, Object.contentSize, hsize]

/-- The call that runs and what its closure has captured. -/
structure Running (m : Machine) (frame : Frame) (outer : Array (Option Ref)) : Prop where
  innermost : m.frames.back? = some frame
  closure : ∃ function, m.heap.get? frame.closure = some (.closure function outer)

theorem Running.closureSlots {m : Machine} {frame : Frame} {outer : Array (Option Ref)}
    (hrunning : Running m frame outer) (prototype : Prototype) :
    m.closureSlots prototype = capturedSlots frame.base outer.size prototype.captures.toList := by
  obtain ⟨function, hclosure⟩ := hrunning.closure
  simp [Machine.closureSlots, hrunning.innermost, hclosure]

/-- Gives a closure its cells and pushes it. -/
def finishClosure (prototype : Prototype) (closure : Ref) (cells : List (Option Ref)) : Exec Unit := do
  modify fun m =>
    { m with heap := m.heap.update closure (.closure (some prototype) cells.toArray) }
  push (.ofRef closure)

theorem Running.bindClosure {m : Machine} {frame : Frame} {outer : Array (Option Ref)}
    (hrunning : Running m frame outer) (prototype : Prototype) (closure : Ref) :
    bindClosure prototype closure m =
      (captureAll frame.base outer prototype.captures.toList [] >>= finishClosure prototype closure) m := by
  obtain ⟨function, hclosure⟩ := hrunning.closure
  simp [Exec.bindClosure, Exec.frame, bind_apply, hrunning.innermost, expect, upvalues, hclosure,
    finishClosure]

/-- Without a running closure there is nothing to capture from. -/
theorem bindClosure_of_not_running {m : Machine} (hnone : ∀ frame outer, ¬ Running m frame outer)
    (prototype : Prototype) (closure : Ref) :
    m.closureSlots prototype = [] ∧ bindClosure prototype closure m = .error .stray m := by
  cases hframe : m.frames.back? with
  | none =>
    refine ⟨by simp [Machine.closureSlots, hframe], ?_⟩
    simp [bindClosure, Exec.frame, bind_apply, hframe, expect]
  | some frame =>
    have hobject (function : Option Prototype) (outer : Array (Option Ref)) :
        m.heap.get? frame.closure ≠ some (.closure function outer) :=
      fun h => hnone frame outer ⟨hframe, function, h⟩
    have hupvalues : upvalues m = .error .stray m := by
      simp only [upvalues]
      rw [get_bind_apply, bind_apply]
      simp only [Exec.frame, bind_apply, get_apply, hframe, expect, pure_apply]
      generalize m.heap.get? frame.closure = found at hobject ⊢
      rcases found with _ | _ | _ | _ | ⟨function, cells⟩ | _
      · rfl
      · rfl
      · rfl
      · rfl
      · exact absurd rfl (hobject function cells)
      · rfl
    refine ⟨?_, by simp [bindClosure, Exec.frame, bind_apply, hframe, expect, hupvalues]⟩
    simp only [Machine.closureSlots, hframe]

/-- How the second half ends: all slots are captured, or one cell did not fit. -/
theorem bindClosure_outcome {m : Machine} (hsound : m.heap.Sound) (prototype : Prototype) {closure : Ref}
    (hclosure : m.heap.get? closure = some (.unboundClosure (some prototype))) :
    (∃ after, Captures m (m.closureSlots prototype) after ∧
      ¬ Full (bindClosure prototype closure m) ∧
      (stateAfter (bindClosure prototype closure m)).heap.footprint = after.heap.footprint) ∨
    (∃ captured rest slot middle after, m.closureSlots prototype = captured ++ slot :: rest ∧
      Captures m captured middle ∧ slot ∉ middle.openSlots ∧ middle.limit < middle.live + 80 ∧
      middle.GaveUp after ∧ bindClosure prototype closure m = .error (.exhausted ⟨80⟩) after) := by
  by_cases hrunning : ∃ frame outer, Running m frame outer
  · obtain ⟨frame, outer, hrunning⟩ := hrunning
    rw [hrunning.bindClosure, bind_apply, hrunning.closureSlots]
    have houtcome := captureAll_outcome hsound frame.base outer prototype.captures.toList []
    generalize captureAll frame.base outer prototype.captures.toList [] m = result at houtcome ⊢
    cases houtcome with
    | @ok after cells hcaptures hcells =>
      refine .inl ⟨after, hcaptures, (keepsHeap_push _ _).notFull, ?_⟩
      have hlength : cells.length = prototype.captures.size := by
        simpa using hcells.length_eq.symm
      have hkept := hcaptures.kept hsound hclosure
      have hupdated := Heap.footprint_update hkept (.closure (some prototype) cells.toArray)
      rw [memorySize_unboundClosure prototype (by simpa using hlength)] at hupdated
      refine (congrArg Heap.footprint (keepsHeap_push (.ofRef closure) _).heap).trans ?_
      exact Nat.add_right_cancel hupdated
    | stray hcaptures _ _ _ =>
      exact .inl ⟨_, hcaptures, fun ⟨_, _, h⟩ => (by cases h), rfl⟩
    | full captured rest heq hcaptures hclosed hlimit hgave =>
      exact .inr ⟨captured, rest, _, _, _, heq, hcaptures, hclosed, hlimit, hgave, rfl⟩
  · have hnone (frame : Frame) (outer : Array (Option Ref)) : ¬ Running m frame outer :=
      fun h => hrunning ⟨frame, outer, h⟩
    obtain ⟨hslots, hresult⟩ := bindClosure_of_not_running hnone prototype closure
    rw [hresult, hslots]
    exact .inl ⟨m, .done m, fun ⟨_, _, h⟩ => (by cases h), rfl⟩

theorem missing_append_cons {m middle : Machine} {captured : List Nat} {slot : Nat} (rest : List Nat)
    (hcaptures : Captures m captured middle) (hclosed : slot ∉ middle.openSlots) :
    (missing m captured).card + 1 ≤ (missing m (captured ++ slot :: rest)).card := by
  rw [hcaptures.mem_openSlots, not_or] at hclosed
  have hfresh : slot ∉ missing m captured := by simp [missing, hclosed.2]
  rw [← Finset.card_insert_of_notMem hfresh]
  refine Finset.card_le_card fun other hother => ?_
  simp only [missing, Finset.mem_insert, Finset.mem_sdiff, List.mem_toFinset, List.mem_append,
    List.mem_cons] at hother ⊢
  rcases hother with rfl | ⟨hmem, hnot⟩
  · exact ⟨.inr (.inl rfl), hclosed.1⟩
  · exact ⟨.inl hmem, hnot⟩

theorem missing_openSlots {m middle : Machine} {captured : List Nat}
    (hcaptures : Captures m captured middle) : missing m middle.openSlots = missing m captured := by
  ext slot
  simp only [missing, Finset.mem_sdiff, List.mem_toFinset, hcaptures.mem_openSlots]
  tauto

/-- The bytes in use are those of all objects, up to the width of a word. -/
theorem live_eq_mod {m : Machine} (hsound : m.heap.Sound) :
    m.live = m.heap.footprint % UInt64.size := by
  rw [live, hsound.accounted.bytesLive]
  rfl

/-- The machine that holds an unbound closure in addition. -/
theorem closureSlots_link {m : Machine} (hsound : m.heap.Sound)
    (hframes : ∀ frame ∈ m.frames.toList, frame.closure ∈ m.heap.refs) {parked : Heap}
    (halike : Heap.Alike m.heap parked) (object : Object) (prototype : Prototype) :
    closureSlots { m with heap := parked.link object } prototype = m.closureSlots prototype := by
  simp only [closureSlots]
  cases hback : m.frames.back? with
  | none => rfl
  | some frame =>
    have hmem : frame ∈ m.frames.toList := by
      rw [Array.mem_toList_iff]
      exact Array.mem_of_back? hback
    obtain ⟨found, hfound⟩ := Heap.mem_refs.mp (hframes frame hmem)
    have hne : frame.closure ≠ m.heap.nextRef := Nat.ne_of_lt (hsound.bounded _ _ hfound)
    simp only [Heap.get?_link, halike.nextRef, if_neg hne, halike.get?]

/-- The demand of the second half, counted from before the first. -/
theorem demands_bindClosure {m linked : Machine} {closure : Ref} {prototype : Prototype}
    (hsound : m.heap.Sound) (hlinked : linked.heap.Sound)
    (hclosure : linked.heap.get? closure = some (.unboundClosure (some prototype)))
    (hrest : linked = { m with heap := linked.heap }) (hlimit : linked.limit = m.limit)
    (hwanted : linked.closureSlots prototype = m.closureSlots prototype)
    (hgrown : linked.heap.footprint =
      m.heap.footprint + (Object.unboundClosure (some prototype)).memorySize)
    (hsim : ∀ ρ other, Similar ρ m other → Similar ρ linked other)
    (hfits : linked.heap.Addressable →
      m.live + allocationNeed (.unboundClosure (some prototype)) ≤ m.limit)
    (request : UInt64 → HeapExhausted) :
    Demands (m.closureSlots prototype) (allocationNeed (.unboundClosure (some prototype))) request m
      (bindClosure prototype closure linked) := by
  have hslots : linked.openSlots = m.openSlots := by
    rw [hrest]
    rfl
  have hmissing (slots : List Nat) : missing linked slots = missing m slots := by
    rw [missing, missing, hslots]
  have hlive := live_eq_mod hsound
  have hword : (Object.unboundClosure (some prototype)).memorySize % UInt64.size ≤
      allocationNeed (.unboundClosure (some prototype)) := le_max_right _ _
  have hneed (hspace : linked.heap.Addressable) :
      allocationNeed (.unboundClosure (some prototype)) =
        (Object.unboundClosure (some prototype)).memorySize := by
    unfold Heap.Addressable at hspace
    have hsize : UInt64.size = 2 ^ 64 := rfl
    have hwhole : (Object.unboundClosure (some prototype)).memorySize.toUInt64.toNat =
        (Object.unboundClosure (some prototype)).memorySize := Nat.mod_eq_of_lt (by omega)
    rw [allocationNeed, hwhole]
    refine max_eq_right ?_
    change 80 ≤ _
    simp only [Object.unboundClosure, Object.memorySize, Object.blockSize]
    omega
  rcases bindClosure_outcome hlinked prototype hclosure with
    ⟨after, hcaptures, hplain, hfootprint⟩ |
      ⟨captured, rest, slot, middle, after, hsplit, hcaptures, hclosed, hover, hgave, hresult⟩
  · rw [hwanted] at hcaptures
    refine ⟨fun asked other h => absurd ⟨asked, other, h⟩ hplain, fun _ hspace => ?_⟩
    have htotal := hcaptures.footprint hlinked
    rw [hmissing] at htotal
    unfold Heap.Addressable at hspace
    rw [hfootprint] at hspace
    have hfirst : linked.heap.Addressable := lt_of_le_of_lt (by omega) hspace
    by_cases hnew : (missing m (m.closureSlots prototype)).Nonempty
    · have hroom := hcaptures.room hlinked (by rw [hmissing]; exact hnew) hspace
      have hexact : m.live = m.heap.footprint :=
        hsound.accounted.toNat_bytesLive (show _ < _ by unfold Heap.Addressable at hfirst; omega)
      rw [hneed hfirst]
      omega
    · rw [Finset.not_nonempty_iff_eq_empty.mp hnew, Finset.card_empty]
      simpa using hfits hfirst
  · refine ⟨fun asked other h => ?_, fun hplain => absurd ⟨_, _, hresult⟩ hplain⟩
    rw [hresult] at h
    cases h
    have htotal := hcaptures.footprint hlinked
    rw [hmissing] at htotal
    have hmore := missing_append_cons rest hcaptures hclosed
    rw [← hsplit, hwanted, hmissing, hmissing] at hmore
    have hmiddle := live_eq_mod (hcaptures.sound hlinked)
    have hsame : after.openSlots = middle.openSlots := hgave.openSlots
    have hafter : after.heap.footprint = middle.heap.footprint := Heap.footprint_congr hgave.heap.get?
    refine ⟨?_, ?_, fun hspace => ?_⟩
    · have hle := hcaptures.limit_eq
      have hmod : middle.heap.footprint % UInt64.size ≤
          m.heap.footprint % UInt64.size +
            (Object.unboundClosure (some prototype)).memorySize % UInt64.size +
              80 * (missing m captured).card := by
        rw [htotal, hgrown]
        have h1 := Nat.mod_le (m.heap.footprint % UInt64.size +
          (Object.unboundClosure (some prototype)).memorySize % UInt64.size +
            80 * (missing m captured).card) UInt64.size
        have h2 : (m.heap.footprint + (Object.unboundClosure (some prototype)).memorySize +
            80 * (missing m captured).card) % UInt64.size =
          (m.heap.footprint % UInt64.size +
            (Object.unboundClosure (some prototype)).memorySize % UInt64.size +
              80 * (missing m captured).card) % UInt64.size := by simp [Nat.add_mod]
        omega
      omega
    · have hkept : after = { m with heap := after.heap, openCells := after.openCells } := by
        rw [hgave.rest, hcaptures.rest, hrest]
      have hip : { after with ip := m.ip } = after := by
        rw [hkept]
      rw [hip]
      refine ⟨hkept, fun ρ other h => ?_, fun other hother => ?_, fun other hother => ?_,
        fun hnew hspace => ?_⟩
      · obtain ⟨σ, -, hmid⟩ := hcaptures.similar (hsim ρ other h)
        exact ⟨σ, hgave.similar hmid⟩
      · rw [hsame, hcaptures.mem_openSlots, hslots]
        exact .inl hother
      · rw [hsame, hcaptures.mem_openSlots, hslots] at hother
        rw [← hwanted, hsplit]
        rcases hother with hother | hother
        · exact .inl hother
        · exact .inr (List.mem_append_left _ hother)
      · have hopened : missing m after.openSlots = missing m captured := by
          rw [hsame, ← hmissing, missing_openSlots hcaptures, hmissing]
        unfold Heap.Addressable at hspace
        rw [hafter] at hspace
        rw [hopened] at hnew ⊢
        have hroom := hcaptures.room hlinked (by rw [hmissing]; exact hnew) hspace
        have hfirst : linked.heap.Addressable := lt_of_le_of_lt (by omega) hspace
        rw [hneed hfirst]
        omega
    · unfold Heap.Addressable at hspace
      rw [hafter] at hspace
      have hfirst : linked.heap.Addressable := lt_of_le_of_lt (by omega) hspace
      rw [if_pos (hfits hfirst)]

theorem demands_pushClosure {m : Machine} (hsound : m.heap.Sound)
    (hframes : ∀ frame ∈ m.frames.toList, frame.closure ∈ m.heap.refs) (prototype : Prototype) :
    Demands (m.closureSlots prototype) (allocationNeed (.unboundClosure (some prototype)))
      (allocationRequest (.unboundClosure (some prototype)) m.heap.config.maxHeapBytes) m
      (pushClosure prototype m) := by
  rw [pushClosure_eq, bind_apply]
  rcases onHeap_allocate_cases (.unboundClosure (some prototype)) hsound with
    ⟨parked, halike, hresult, hfits⟩ | ⟨after, hgave, hresult, hfull⟩
  · rw [hresult]
    have hrefs : (Object.unboundClosure (some prototype)).references = [] := by
      simp [Object.unboundClosure, Object.references]
    have hlinked : (parked.link (.unboundClosure (some prototype))).Sound :=
      (hsound.of_alike halike).link (by simp [hrefs])
    have hgrown := Heap.footprint_link (hsound.of_alike halike).bounded
      (.unboundClosure (some prototype))
    rw [Heap.footprint_congr halike.get?] at hgrown
    exact demands_bindClosure hsound hlinked (by simp [Heap.get?_link, halike.nextRef]) rfl
      (congrArg (fun config => config.maxHeapBytes.toNat) halike.config)
      (closureSlots_link hsound hframes halike _ prototype) hgrown
      (fun _ _ hsim => hsim.linkLeft halike hrefs) hfits _
  · rw [hresult]
    refine ⟨fun asked other h => ?_, fun hplain => absurd ⟨_, _, rfl⟩ hplain⟩
    cases h
    have hip : { after with ip := m.ip } = after := by
      rw [hgave.rest]
    refine ⟨by omega, by rw [hip]; exact hgave.residue _ _, fun _ => ?_⟩
    rw [if_neg (Nat.not_le.mpr hfull)]

end Exec

namespace Machine

variable {ρ : Renaming} {left right : Machine}

/-- Similar machines with the same slots captured correspond. -/
theorem Similar.corresponds (hsim : Similar ρ left right)
    (hslots : ∀ slot, slot ∈ left.openSlots ↔ slot ∈ right.openSlots) : Corresponds ρ left right := by
  have hdescending {m : Machine} (hopen : OpenCellsSound m.heap m.openCells) :
      m.openSlots.Pairwise (· > ·) := List.pairwise_map.mpr hopen.descending
  have hleft := hdescending hsim.leftOpen
  have hright := hdescending hsim.rightOpen
  refine ⟨hsim, List.Perm.eq_of_pairwise' hleft hright ?_⟩
  exact (List.perm_ext_iff_of_nodup (hleft.imp fun h => Nat.ne_of_gt h)
    (hright.imp fun h => Nat.ne_of_gt h)).mpr hslots

theorem Corresponds.publish (hcorr : Corresponds ρ left right) {a b : Ref} (first second : Object)
    {oldLeft oldRight : Object} (hleft : left.heap.get? a = some oldLeft)
    (hright : right.heap.get? b = some oldRight) (hleftFree : ¬ ρ.Mentions a)
    (hrightFree : ¬ ρ.swap.Mentions b) (hleftSize : first.memorySize = oldLeft.memorySize)
    (hrightSize : second.memorySize = oldRight.memorySize) (hrel : Object.Related ρ first second)
    (hleftKind : ∀ state, oldLeft ≠ .upvalue state) (hrightKind : ∀ state, oldRight ≠ .upvalue state) :
    Corresponds (ρ.withObject a b) { left with heap := left.heap.update a first }
      { right with heap := right.heap.update b second } := by
  have hheap := hcorr.heap.publish hleft hright hleftFree hrightFree hleftSize hrightSize hrel
  refine ⟨hcorr.toSimilar.withHeap (ρ.le_withObject a b) hheap (Heap.ages_update ..) (Heap.ages_update ..)
    (fun _ _ h => h) (fun c d slot hpair hopened => ?_) (fun entry hentry => ?_) (fun entry hentry => ?_), hcorr.slots⟩
  · have hne : c ≠ a := fun h => hleftFree (h ▸ Or.inr ⟨d, hpair⟩)
    rwa [Heap.get?_update_of_ne hne] at hopened
  · exact Heap.get?_update_of_ne (hcorr.leftOpen.ne_of_get? hentry hleft (hleftKind _))
  · exact Heap.get?_update_of_ne (hcorr.rightOpen.ne_of_get? hentry hright (hrightKind _))

/-- The same slots are captured on both sides, and their cells are partners. -/
theorem capturedCells_related (hcorr : Corresponds ρ left right) {base : Nat}
    {leftOuter rightOuter : Array (Option Ref)}
    (houter : List.Forall₂ (CaptureRelated ρ) leftOuter.toList rightOuter.toList)
    {captures : List Capture} {leftCells rightCells : List (Option Ref)}
    (hleft : List.Forall₂ (CapturedCell left base leftOuter) captures leftCells)
    (hright : List.Forall₂ (CapturedCell right base rightOuter) captures rightCells) :
    List.Forall₂ (CaptureRelated ρ) leftCells rightCells := by
  induction hleft generalizing rightCells with
  | nil =>
    cases hright
    exact .nil
  | @cons capture leftCell _ _ hfirst _ ih =>
    cases hright with
    | @cons _ rightCell _ _ hsecond hrest =>
      refine .cons ?_ (ih hrest)
      cases hlocal : capture.isLocal with
      | true =>
        rw [CapturedCell, if_pos hlocal] at hfirst hsecond
        obtain ⟨entry, hentry, hslot, rfl⟩ := hfirst
        obtain ⟨other, hother, hsame, rfl⟩ := hsecond
        exact .some (hcorr.captured entry hentry other hother (hslot.trans hsame.symm))
      | false =>
        rw [CapturedCell, if_neg (by simp [hlocal])] at hfirst hsecond
        have hrel := rel_array_getElem? houter capture.index
        rw [hfirst, hsecond] at hrel
        cases hrel with
        | some h => exact h

theorem closure_mem_refs (hsim : Similar ρ left right) :
    ∀ frame ∈ left.frames.toList, frame.closure ∈ left.heap.refs := by
  intro frame hframe
  obtain ⟨other, _, hrel⟩ := exists_related_of_mem hsim.frames hframe
  exact hsim.heap.mem_refs_of_mentions (.inl ⟨other.closure, hrel.closure⟩)

theorem closureSlots_eq (hsim : Similar ρ left right) (prototype : Prototype) :
    left.closureSlots prototype = right.closureSlots prototype := by
  have hframes := rel_back? hsim.frames
  simp only [closureSlots]
  generalize left.frames.back? = x at hframes ⊢
  generalize right.frames.back? = y at hframes ⊢
  cases hframes with
  | none => rfl
  | some hframe =>
    obtain ⟨first, second, hfirst, hsecond, hrel⟩ := hsim.heap.objects _ _ hframe.closure
    simp only [hfirst, hsecond]
    cases hrel with
    | closure prototype h => simp only [hframe.base, rel_size h]
    | string text => rfl
    | record hcapacity h => rfl
    | array hcapacity h => rfl

end Machine

namespace Exec

open Machine Captures

variable {ρ : Renaming} {left right : Machine}

/-- When both sides capture all slots, they end up with the same slots captured. -/
theorem corresponds_of_captures {leftAfter rightAfter : Machine} {wanted : List Nat}
    (hsim : Similar ρ left right)
    (hslots : ∀ slot, slot ∉ wanted → (slot ∈ left.openSlots ↔ slot ∈ right.openSlots))
    (hleft : Captures left wanted leftAfter) (hright : Captures right wanted rightAfter) :
    ∃ σ, ρ.CellsGrow σ ∧ Corresponds σ leftAfter rightAfter := by
  obtain ⟨σ, hgrow, hfirst⟩ := hleft.similar hsim
  obtain ⟨τ, hgrow', hsecond⟩ := hright.similar hfirst.swap
  refine ⟨τ.swap, hgrow.trans hgrow'.swap, hsecond.swap.corresponds fun slot => ?_⟩
  rw [hleft.mem_openSlots, hright.mem_openSlots]
  by_cases hwanted : slot ∈ wanted
  · simp [hwanted]
  · simp [hwanted, hslots slot hwanted]

/-- Closures whose cells are partners become partners. -/
theorem calm_finishClosure (hcorr : Corresponds ρ left right) {prototype : Prototype} {a b : Ref}
    (hleft : left.heap.get? a = some (.unboundClosure (some prototype)))
    (hright : right.heap.get? b = some (.unboundClosure (some prototype)))
    (hleftFree : ∀ other, ¬ ρ.object a other) (hrightFree : ∀ other, ¬ ρ.object other b)
    {leftCells rightCells : List (Option Ref)}
    (hcells : List.Forall₂ (CaptureRelated ρ) leftCells rightCells)
    (hlength : leftCells.length = prototype.captures.size) :
    ∃ σ, Together σ (finishClosure prototype a leftCells left)
      (finishClosure prototype b rightCells right) := by
  have hnotCell (m : Machine) (ref : Ref) (hobject : m.heap.get? ref = some (.unboundClosure (some prototype)))
      (state : Upvalue) : m.heap.get? ref ≠ some (.upvalue state) := by
    rw [hobject]
    simp [Object.unboundClosure]
  have hleftMentions : ¬ ρ.Mentions a := by
    rintro (⟨other, hpair⟩ | ⟨other, hpair⟩)
    · exact hleftFree other hpair
    · obtain ⟨first, _, hfirst, _, _⟩ := hcorr.heap.cells a other hpair
      exact hnotCell left a hleft first hfirst
  have hrightMentions : ¬ ρ.swap.Mentions b := by
    rintro (⟨other, hpair⟩ | ⟨other, hpair⟩)
    · exact hrightFree other hpair
    · obtain ⟨_, second, _, hsecond, _⟩ := hcorr.heap.cells other b hpair
      exact hnotCell right b hright second hsecond
  have hpublished := hcorr.publish (.closure (some prototype) leftCells.toArray)
    (.closure (some prototype) rightCells.toArray) hleft hright hleftMentions hrightMentions
    (memorySize_unboundClosure prototype (by simpa using hlength))
    (memorySize_unboundClosure prototype (by simpa [← hcells.length_eq] using hlength))
    (.closure (some prototype) (by simpa using hcells)) (by simp [Object.unboundClosure])
    (by simp [Object.unboundClosure])
  refine ⟨_, (calm_modify hpublished).bind fun _ _ _ _ _ hnext => calm_push hnext ?_⟩
  exact Value.related_ofRef (.inr ⟨rfl, rfl⟩)

theorem running_of_similar (hsim : Similar ρ left right) {frame : Frame} {outer : Array (Option Ref)}
    (hrunning : Running left frame outer) :
    ∃ frame' outer', Running right frame' outer' ∧ frame.base = frame'.base ∧
      List.Forall₂ (CaptureRelated ρ) outer.toList outer'.toList := by
  have hframes := rel_back? hsim.frames
  rw [hrunning.innermost] at hframes
  generalize hright : right.frames.back? = found at hframes
  cases hframes with
  | @some _ frame' hframe =>
    obtain ⟨function, hclosure⟩ := hrunning.closure
    obtain ⟨first, second, hfirst, hsecond, hrel⟩ := hsim.heap.objects _ _ hframe.closure
    rw [hclosure, Option.some.injEq] at hfirst
    subst hfirst
    cases hrel with
    | closure _ h => exact ⟨frame', _, ⟨hright, function, hsecond⟩, hframe.base, h⟩

theorem calm_bindClosure (hsim : Similar ρ left right) {prototype : Prototype}
    (hslots : ∀ slot, slot ∉ left.closureSlots prototype →
      (slot ∈ left.openSlots ↔ slot ∈ right.openSlots))
    {a b : Ref} (hleft : left.heap.get? a = some (.unboundClosure (some prototype)))
    (hright : right.heap.get? b = some (.unboundClosure (some prototype)))
    (hleftFree : ∀ other, ¬ ρ.object a other) (hrightFree : ∀ other, ¬ ρ.object other b)
    (hfirst : ¬ Full (bindClosure prototype a left)) (hsecond : ¬ Full (bindClosure prototype b right)) :
    ∃ σ, Together σ (bindClosure prototype a left) (bindClosure prototype b right) := by
  have hsame := closureSlots_eq hsim prototype
  by_cases hrunning : ∃ frame outer, Running left frame outer
  · obtain ⟨frame, outer, hrunning⟩ := hrunning
    obtain ⟨frame', outer', hrunning', hbase, houter⟩ := running_of_similar hsim hrunning
    have hleftSlots := hrunning.closureSlots prototype
    have hrightSlots := hrunning'.closureSlots prototype
    rw [hrunning.bindClosure, bind_apply] at hfirst ⊢
    rw [hrunning'.bindClosure, bind_apply] at hsecond ⊢
    have hleftOutcome := captureAll_outcome hsim.heap.leftSound frame.base outer
      prototype.captures.toList []
    have hrightOutcome := captureAll_outcome hsim.heap.rightSound frame'.base outer'
      prototype.captures.toList []
    generalize captureAll frame.base outer prototype.captures.toList [] left = x
      at hleftOutcome hfirst ⊢
    generalize captureAll frame'.base outer' prototype.captures.toList [] right = y
      at hrightOutcome hsecond ⊢
    have hrange (capture : Capture) (cells : List (Option Ref)) (m : Machine) (base : Nat)
        (cells' : Array (Option Ref)) (hmem : capture ∈ prototype.captures.toList)
        (hother : capture.isLocal = false)
        (hcells : List.Forall₂ (CapturedCell m base cells') prototype.captures.toList cells) :
        capture.index < cells'.size := by
      obtain ⟨cell, _, hcell⟩ := exists_related_of_mem hcells hmem
      rw [CapturedCell, if_neg (by simp [hother])] at hcell
      exact (Array.getElem?_eq_some_iff.mp hcell).1
    cases hleftOutcome with
    | full => exact absurd ⟨_, _, rfl⟩ hfirst
    | stray hleftCaptures hmem hother hbeyond =>
      cases hrightOutcome with
      | full => exact absurd ⟨_, _, rfl⟩ hsecond
      | stray hrightCaptures =>
        rw [← hleftSlots] at hleftCaptures
        rw [← hrightSlots, ← hsame] at hrightCaptures
        obtain ⟨σ, -, hcorr⟩ := corresponds_of_captures hsim hslots hleftCaptures hrightCaptures
        exact ⟨σ, .fault (by simp [Fault.Plain]) hcorr⟩
      | ok _ hcells =>
        have hin := hrange _ _ _ _ _ hmem hother hcells
        rw [← rel_size houter] at hin
        omega
    | ok hleftCaptures hleftCells =>
      cases hrightOutcome with
      | full => exact absurd ⟨_, _, rfl⟩ hsecond
      | stray _ hmem hother hbeyond =>
        have hin := hrange _ _ _ _ _ hmem hother hleftCells
        rw [rel_size houter] at hin
        omega
      | ok hrightCaptures hrightCells =>
        rw [← hleftSlots] at hleftCaptures
        rw [← hrightSlots, ← hsame] at hrightCaptures
        obtain ⟨σ, hgrow, hcorr⟩ := corresponds_of_captures hsim hslots hleftCaptures hrightCaptures
        rw [← hbase] at hrightCells
        have hcells := capturedCells_related hcorr (houter.imp fun _ _ h => h.mono hgrow.le)
          hleftCells hrightCells
        refine calm_finishClosure hcorr (hleftCaptures.kept hsim.heap.leftSound hleft)
          (hrightCaptures.kept hsim.heap.rightSound hright) ?_ ?_ hcells ?_
        · rw [hgrow.object]
          exact hleftFree
        · rw [hgrow.object]
          exact hrightFree
        · simpa using hleftCells.length_eq.symm
  · have hnone (frame : Frame) (outer : Array (Option Ref)) : ¬ Running left frame outer :=
      fun h => hrunning ⟨frame, outer, h⟩
    have hnone' (frame : Frame) (outer : Array (Option Ref)) : ¬ Running right frame outer := by
      intro h
      obtain ⟨frame', outer', h', _, _⟩ := running_of_similar hsim.swap h
      exact hnone frame' outer' h'
    obtain ⟨hempty, hleftResult⟩ := bindClosure_of_not_running hnone prototype a
    obtain ⟨-, hrightResult⟩ := bindClosure_of_not_running hnone' prototype b
    rw [hleftResult, hrightResult]
    refine ⟨ρ, .fault (by simp [Fault.Plain]) (hsim.corresponds fun slot => hslots slot ?_)⟩
    simp [hempty]

/-- When neither side gives up, the new closures are partners. -/
theorem calm_pushClosure (hsim : Similar ρ left right) {prototype : Prototype}
    (hslots : ∀ slot, slot ∉ left.closureSlots prototype →
      (slot ∈ left.openSlots ↔ slot ∈ right.openSlots))
    (hfirst : ¬ Full (pushClosure prototype left)) (hsecond : ¬ Full (pushClosure prototype right)) :
    ∃ σ, Together σ (pushClosure prototype left) (pushClosure prototype right) := by
  rw [pushClosure_eq] at hfirst hsecond ⊢
  obtain ⟨leftParked, hleftAlike, hleftResult⟩ := allocated_of_not_full hsim.heap.leftSound hfirst
  obtain ⟨rightParked, hrightAlike, hrightResult⟩ := allocated_of_not_full hsim.heap.rightSound hsecond
  rw [hleftResult] at hfirst ⊢
  rw [hrightResult] at hsecond ⊢
  have hrefs : (Object.unboundClosure (some prototype)).references = [] := by
    simp [Object.unboundClosure, Object.references]
  have hlinked := ((hsim.linkLeft hleftAlike hrefs).swap.linkLeft hrightAlike hrefs).swap
  refine calm_bindClosure hlinked ?_ (by simp [Heap.get?_link, hleftAlike.nextRef])
    (by simp [Heap.get?_link, hrightAlike.nextRef]) (fun other hpair => ?_) (fun other hpair => ?_)
    hfirst hsecond
  · rw [closureSlots_link hsim.heap.leftSound (closure_mem_refs hsim) hleftAlike]
    exact hslots
  · exact hsim.heap.ne_nextRef (.inl ⟨other, hpair⟩) rfl
  · exact hsim.heap.swap.ne_nextRef (.inl ⟨other, hpair⟩) rfl

end Exec

end OwnScript
