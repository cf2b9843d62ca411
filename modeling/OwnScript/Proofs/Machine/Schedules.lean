import OwnScript.Proofs.Host.References

/-!
One instruction under two schedules of collections. A machine may collect before the instruction, and
it collects when the instruction gives up; then the instruction runs again. Two machines that
correspond end the instruction in the same way, whatever garbage each of them carries: after a
collection a machine takes no more room than the other, so it finds room wherever the other does.
-/

namespace OwnScript

open Stateful

namespace Machine

open Captures

variable {ρ : Renaming} {left right : Machine}

/-- A machine that stands right before an instruction. -/
def Poised (m : Machine) : Prop :=
  m.instructionStart = m.ip

theorem poised_safepoint (m : Machine) : m.safepoint.Poised := by
  obtain ⟨trace, hcollected | hsame⟩ := m.safepoint_cases
  · rw [hcollected]
    rfl
  · rw [hsame]
    rfl

theorem openCells_safepoint (m : Machine) : m.safepoint.openCells = m.openCells := by
  obtain ⟨trace, hcollected | hsame⟩ := m.safepoint_cases
  · rw [hcollected]
    rfl
  · rw [hsame]

/-- What a safepoint leaves apart from the place that it notes. -/
theorem Similar.base_left (hsim : Similar ρ left right) :
    ∃ σ base trace, Similar σ base right ∧
      left.safepoint = { base with instructionStart := left.ip, trace } := by
  obtain ⟨trace, hcollected | hsame⟩ := left.safepoint_cases
  · obtain ⟨σ, -, hafter⟩ := hsim.collectGarbage_left
    exact ⟨σ, left.collectGarbage, trace, hafter, hcollected⟩
  · exact ⟨ρ, left, trace, hsim, hsame⟩

/-- Before an instruction one side may collect while the other waits. -/
theorem Similar.safepoint_left (hsim : Similar ρ left right) (hpoised : right.Poised) :
    ∃ σ, Similar σ left.safepoint right := by
  obtain ⟨σ, base, trace, hbase, hsafepoint⟩ := hsim.base_left
  rw [hsafepoint]
  exact ⟨σ, { hbase with instructionStart := hsim.ip.trans hpoised.symm }⟩

theorem Similar.safepoint (hsim : Similar ρ left right) :
    ∃ σ, Similar σ left.safepoint right.safepoint := by
  obtain ⟨σ, leftBase, leftTrace, hfirst, hleft⟩ := hsim.base_left
  obtain ⟨τ, rightBase, rightTrace, hsecond, hright⟩ := hfirst.swap.base_left
  rw [hleft, hright]
  exact ⟨τ.swap, { hsecond.swap with instructionStart := hsim.ip }⟩

theorem Corresponds.safepoint (hcorr : Corresponds ρ left right) :
    ∃ σ, Corresponds σ left.safepoint right.safepoint := by
  obtain ⟨σ, hsim⟩ := hcorr.toSimilar.safepoint
  refine ⟨σ, hsim, ?_⟩
  rw [openSlots, openSlots, openCells_safepoint, openCells_safepoint]
  exact hcorr.slots

/-- A safepoint moves neither the slots nor the next instruction. -/
theorem StaysBelow.safepoint {m : Machine} (hbelow : m.StaysBelow) (hsound : m.Sound) :
    m.safepoint.StaysBelow := by
  obtain ⟨ρ, hcorr⟩ := hsound
  obtain ⟨σ, base, trace, hbase, hsafepoint⟩ := hcorr.toSimilar.base_left
  have hsame : base.StaysBelow := hbelow.similar hbase.swap
  rw [hsafepoint]
  exact hsame

theorem footprint_safepoint (m : Machine) (hidle : m.heap.Idle) :
    m.safepoint.heap.footprint ≤ m.heap.footprint := by
  obtain ⟨trace, hcollected | hsame⟩ := m.safepoint_cases
  · rw [hcollected]
    exact (Heap.collect_spec hidle m.roots).footprint_le
  · rw [hsame]

theorem Tidy.safepoint {m : Machine} (htidy : m.Tidy) (hidle : m.heap.Idle) : m.safepoint.Tidy := by
  obtain ⟨trace, hcollected | hsame⟩ := m.safepoint_cases
  · rw [hcollected]
    exact tidy_collectGarbage hidle
  · rw [hsame]
    exact htidy

/-- The active calls of similar machines read the same. -/
theorem Similar.activeCalls_eq (hsim : Similar ρ left right) {first second : List Frame}
    (hframes : List.Forall₂ (Frame.Related ρ) first second) (chunk : Option Chunk) (offset : Nat) :
    left.activeCalls first chunk offset = right.activeCalls second chunk offset := by
  induction hframes generalizing chunk offset with
  | nil => rfl
  | cons hframe _ ih =>
    simp only [activeCalls, functionName_eq hsim hframe.closure, hframe.caller, hframe.returnTo, ih]

theorem Similar.locate_eq (hsim : Similar ρ left right) (diagnostic : Diagnostic) :
    left.locate diagnostic = right.locate diagnostic := by
  have hcalls := hsim.activeCalls_eq (List.forall₂_reverse_iff.mpr hsim.frames) right.chunk
    right.instructionStart
  simp only [locate, hsim.chunk, hsim.instructionStart, hcalls]

theorem activeCalls_withIp (m : Machine) (ip : Nat) (frames : List Frame) (chunk : Option Chunk)
    (offset : Nat) :
    ({ m with ip } : Machine).activeCalls frames chunk offset = m.activeCalls frames chunk offset := by
  induction frames generalizing chunk offset with
  | nil => rfl
  | cons frame rest ih =>
    simp only [activeCalls, ih]
    rfl

/-- Two sets that agree outside a third. -/
theorem card_sdiff_balance {first second among : Finset Nat}
    (hagree : ∀ slot, slot ∉ among → (slot ∈ first ↔ slot ∈ second)) :
    (among \ first).card + (first \ second).card = (among \ second).card + (second \ first).card := by
  have hsplit {a b : Finset Nat} (hsub : ∀ slot, slot ∉ among → (slot ∈ a ↔ slot ∈ b)) :
      (among \ a).card = (among \ (a ∪ b)).card + (b \ a).card := by
    rw [← Finset.card_union_of_disjoint]
    · congr 1
      ext slot
      have := hsub slot
      simp only [Finset.mem_sdiff, Finset.mem_union]
      tauto
    · rw [Finset.disjoint_left]
      intro slot hfirst hsecond
      simp only [Finset.mem_sdiff, Finset.mem_union] at hfirst hsecond
      tauto
  have hfirst := hsplit hagree
  have hsecond := hsplit fun slot hslot => (hagree slot hslot).symm
  rw [Finset.union_comm second first] at hsecond
  omega

/-- Before the same instruction, a tidy machine has at least as much room as the other for the cells
that the instruction still needs. -/
theorem Ready.footprint_le (hready : Ready ρ left right) (htidy : left.Tidy) :
    left.heap.footprint + 80 * (missing left left.wanted).card ≤
      right.heap.footprint + 80 * (missing right right.wanted).card := by
  have hbound := hready.similar.footprint_le htidy
  have hbalance : (missing left left.wanted).card + (missing right left.openSlots).card =
      (missing right left.wanted).card + (missing left right.openSlots).card := by
    refine card_sdiff_balance fun slot hslot => ?_
    rw [List.mem_toFinset] at hslot
    rw [List.mem_toFinset, List.mem_toFinset]
    exact hready.slots slot hslot
  rw [← wanted_eq hready.similar]
  omega

end Machine

namespace Exec

open Machine Captures

variable {ρ : Renaming} {left right : Machine}

/-- What a program reads that is out of memory. -/
def outOfMemory (request : HeapExhausted) : Diagnostic :=
  .plain .outOfMemory s!"cannot allocate {request.requested.toNat} bytes after a full collection"

/-- The end of an instruction that did not find the heap full. -/
def conclude : EStateM.Result Fault Machine Unit → EStateM.Result Fault Machine Unit
  | .error (.failure diagnostic) m => raise diagnostic m
  | result => result

/-- The machine that stands before an instruction again after it gave the instruction up. -/
def again (after : Machine) : Machine :=
  { after with ip := after.instructionStart }.collectGarbage

/-- A whole instruction, with its second try if the first finds the heap full. -/
def complete (m : Machine) : EStateM.Result Fault Machine Unit :=
  match dispatch m.safepoint with
  | .error (.exhausted _) after =>
    match dispatch (again after).safepoint with
    | .error (.exhausted request) last => raise (outOfMemory request) last
    | result => conclude result
  | result => conclude result

theorem complete_of_not_full {m : Machine} (hplain : ¬ Full (dispatch m.safepoint)) :
    complete m = conclude (dispatch m.safepoint) := by
  unfold complete
  generalize dispatch m.safepoint = result at hplain ⊢
  cases result with
  | ok value after => rfl
  | error fault after =>
    cases fault with
    | exhausted request => exact absurd ⟨_, _, rfl⟩ hplain
    | failure diagnostic => rfl
    | stray => rfl
    | outOfFuel => rfl

theorem complete_of_retry {m after : Machine} {request : HeapExhausted}
    (hfull : dispatch m.safepoint = .error (.exhausted request) after)
    (hplain : ¬ Full (dispatch (again after).safepoint)) :
    complete m = conclude (dispatch (again after).safepoint) := by
  unfold complete
  rw [hfull]
  dsimp only
  generalize dispatch (again after).safepoint = result at hplain ⊢
  cases result with
  | ok value after => rfl
  | error fault after =>
    cases fault with
    | exhausted request => exact absurd ⟨_, _, rfl⟩ hplain
    | failure diagnostic => rfl
    | stray => rfl
    | outOfFuel => rfl

theorem complete_of_full {m after last : Machine} {first second : HeapExhausted}
    (hfull : dispatch m.safepoint = .error (.exhausted first) after)
    (hagain : dispatch (again after).safepoint = .error (.exhausted second) last) :
    complete m = raise (outOfMemory second) last := by
  unfold complete
  rw [hfull]
  dsimp only
  rw [hagain]

/-- Instructions that ended in the same way: both machines go on together, or both runs are over. -/
inductive Concluded : EStateM.Result Fault Machine Unit → EStateM.Result Fault Machine Unit → Prop where
  | ok {σ : Renaming} {left right : Machine} : Corresponds σ left right →
      Concluded (.ok () left) (.ok () right)
  | fault {fault : Fault} {left right : Machine} : left.output = right.output →
      Concluded (.error fault left) (.error fault right)

theorem Concluded.swap {first second : EStateM.Result Fault Machine Unit} (h : Concluded first second) :
    Concluded second first := by
  cases h with
  | ok hcorr => exact .ok hcorr.swap
  | fault houtput => exact .fault houtput.symm

theorem Calm.concluded {post : Unit → Unit → Prop} {first second : EStateM.Result Fault Machine Unit}
    (hcalm : Calm ρ post first second) : Concluded first second := by
  cases hcalm with
  | ok _ hcorr => exact .ok hcorr
  | fault _ hcorr => exact .fault hcorr.output

theorem concluded_raise (hsim : Similar ρ left right) (diagnostic : Diagnostic) :
    Concluded (raise diagnostic left) (raise diagnostic right) := by
  change Concluded (.error (.failure (left.locate diagnostic)) left.reset)
    (.error (.failure (right.locate diagnostic)) right.reset)
  rw [hsim.locate_eq]
  exact .fault hsim.output

/-- A failure is located by where the instruction starts, not by how far it was read. -/
theorem raise_withIp (diagnostic : Diagnostic) (m : Machine) (ip : Nat) :
    (raise diagnostic : Exec Unit) { m with ip } = raise diagnostic m := by
  change EStateM.Result.error (Fault.failure (locate { m with ip } diagnostic)) m.reset =
    EStateM.Result.error (Fault.failure (m.locate diagnostic)) m.reset
  simp only [locate, activeCalls_withIp]

theorem concluded_of_together {first second : EStateM.Result Fault Machine Unit}
    (htogether : Together ρ first second) : Concluded (conclude first) (conclude second) := by
  cases htogether with
  | ok _ hcorr => exact .ok hcorr
  | @fault fault _ _ hplain hcorr =>
    cases fault with
    | failure diagnostic => exact concluded_raise hcorr.toSimilar diagnostic
    | exhausted request => exact absurd rfl (hplain request)
    | stray => exact .fault hcorr.output
    | outOfFuel => exact .fault hcorr.output

theorem again_eq {wanted : List Nat} {need : Nat} {m after : Machine} (hpoised : m.Poised)
    (hresidue : Residue wanted need m { after with ip := m.ip }) :
    again after = { after with ip := m.ip }.collectGarbage := by
  have hstart := congrArg Machine.instructionStart hresidue.rest
  dsimp only at hstart
  rw [again, hstart, hpoised]

/-- A machine that gave up an instruction for want of some bytes and stands before it again. -/
structure Retried (need : Nat) (m after : Machine) : Prop where
  tidy : after.Tidy
  poised : after.Poised
  ready : ∀ ρ other, Ready ρ m other → other.Poised → ∃ σ, Ready σ after other
  grows : ∀ slot ∈ m.openSlots, slot ∈ after.openSlots
  room : (missing m after.openSlots).Nonempty → after.heap.footprint + need ≤ m.limit

theorem retried_of_full {need : Nat} {request : UInt64 → HeapExhausted} {m after : Machine}
    {asked : HeapExhausted} (hsound : m.Sound) (hpoised : m.Poised)
    (hdemands : Demands m.wanted need request m (dispatch m))
    (hfull : dispatch m = .error (.exhausted asked) after) (hspace : after.heap.Addressable) :
    Retried need m (again after).safepoint := by
  obtain ⟨-, hresidue, -⟩ := hdemands.full asked after hfull
  have hagain := again_eq hpoised hresidue
  have hslots : (again after).safepoint.openSlots = after.openSlots := by
    rw [openSlots, openCells_safepoint]
    rfl
  have hready (ρ : Renaming) (other : Machine) (hbefore : Ready ρ m other) (hother : other.Poised) :
      ∃ σ, Ready σ (again after).safepoint other := by
    obtain ⟨σ, hfirst⟩ := hresidue.similar ρ other hbefore.similar
    obtain ⟨τ, -, hsecond⟩ := hfirst.collectGarbage_left
    obtain ⟨υ, hthird⟩ := hsecond.safepoint_left hother
    rw [← hagain] at hthird
    refine ⟨υ, hthird, fun slot hslot => ?_⟩
    rw [wanted_eq hthird, ← wanted_eq hbefore.similar] at hslot
    rw [hslots, ← hbefore.slots slot hslot]
    exact ⟨fun h => (hresidue.within slot h).resolve_right hslot, hresidue.grows slot⟩
  have hleft : Sound { after with ip := m.ip } := hresidue.sound hsound
  have htidy : (again after).safepoint.Tidy := by
    rw [hagain]
    obtain ⟨ρ, hcorr⟩ := hleft
    obtain ⟨σ, hcollected⟩ := hcorr.collectGarbage
    exact (tidy_collectGarbage hcorr.heap.leftSound.idle).safepoint hcollected.heap.leftSound.idle
  refine ⟨htidy, poised_safepoint _, hready, ?_, fun hnew => ?_⟩
  · rw [hslots]
    exact hresidue.grows
  · obtain ⟨ρ, hcorr⟩ := hsound
    obtain ⟨σ, hself⟩ := hready ρ m hcorr.ready hpoised
    have hbound := hself.similar.footprint_le htidy
    rw [hslots] at hnew hbound
    have hroom := hresidue.room hnew hspace
    change m.heap.footprint + need + 80 * (missing m after.openSlots).card ≤ m.limit at hroom
    omega

theorem live_eq_footprint {m : Machine} (hsound : m.heap.Sound) (hspace : m.heap.Addressable) :
    m.live = m.heap.footprint :=
  hsound.accounted.toNat_bytesLive hspace

theorem limit_eq (hsim : Similar ρ left right) : left.limit = right.limit :=
  congrArg UInt64.toNat hsim.heap.limit

/-- A tidy machine finds room for an instruction if the other machine does. -/
theorem not_full_of_tidy {need : Nat} {request : UInt64 → HeapExhausted} (hready : Ready ρ left right)
    (htidy : left.Tidy) (hleft : Demands left.wanted need request left (dispatch left))
    (hright : Demands right.wanted need request right (dispatch right))
    (hleftSpace : left.heap.Addressable) (hrightSpace : right.heap.Addressable)
    (hafterSpace : (stateAfter (dispatch right)).heap.Addressable) (hplain : ¬ Full (dispatch right)) :
    ¬ Full (dispatch left) := by
  rintro ⟨asked, after, hfull⟩
  have hover := (hleft.full asked after hfull).1
  have hfits := hright.fits hplain hafterSpace
  have hbound := hready.footprint_le htidy
  rw [live_eq_footprint hready.similar.heap.leftSound hleftSpace, limit_eq hready.similar] at hover
  rw [live_eq_footprint hready.similar.heap.rightSound hrightSpace] at hfits
  omega

/-- Both machines find no room even after a collection: if one has cells that the other lacks, both
had room for the rest of the need. -/
theorem room_of_own_slot {need : Nat} {leftAgain rightAgain : Machine}
    (hcorr : Corresponds ρ left right) (hleft : Retried need left leftAgain)
    (hright : Retried need right rightAgain) {σ : Renaming} (hready : Ready σ leftAgain rightAgain)
    {slot : Nat} (hslot : slot ∈ leftAgain.openSlots) (hnot : slot ∉ rightAgain.openSlots) :
    leftAgain.heap.footprint + need ≤ left.limit ∧ rightAgain.heap.footprint + need ≤ left.limit := by
  have hnew : (missing left leftAgain.openSlots).Nonempty := by
    refine ⟨slot, Finset.mem_sdiff.mpr ⟨List.mem_toFinset.mpr hslot, fun hold => hnot ?_⟩⟩
    refine hright.grows slot ?_
    rw [← hcorr.slots]
    exact List.mem_toFinset.mp hold
  have hfirst := hleft.room hnew
  refine ⟨hfirst, ?_⟩
  by_cases hother : (missing right rightAgain.openSlots).Nonempty
  · rw [limit_eq hcorr.toSimilar]
    exact hright.room hother
  · have hnone : missing leftAgain rightAgain.openSlots = ∅ := by
      refine Finset.eq_empty_of_forall_notMem fun other hmem => ?_
      obtain ⟨hthere, hmissing⟩ := Finset.mem_sdiff.mp hmem
      have hbefore : other ∈ right.openSlots := by
        by_contra hopened
        exact hother ⟨other, Finset.mem_sdiff.mpr ⟨hthere, by simpa using hopened⟩⟩
      rw [← hcorr.slots] at hbefore
      exact hmissing (List.mem_toFinset.mpr (hleft.grows other hbefore))
    have hbound := hready.similar.swap.footprint_le hright.tidy
    rw [hnone, Finset.card_empty] at hbound
    omega

theorem missing_eq_empty {m : Machine} {slots : List Nat} (hopen : ∀ slot ∈ slots, slot ∈ m.openSlots) :
    missing m slots = ∅ := by
  rw [missing, Finset.sdiff_eq_empty_iff_subset]
  intro slot hslot
  exact List.mem_toFinset.mpr (hopen slot (List.mem_toFinset.mp hslot))

/-- Tidy machines with the same open slots have the same account. -/
theorem bytesLive_eq (hsim : Similar ρ left right) (hleft : left.Tidy) (hright : right.Tidy)
    (hslots : ∀ slot, slot ∈ left.openSlots ↔ slot ∈ right.openSlots) :
    left.heap.statistics.bytesLive = right.heap.statistics.bytesLive := by
  have hfirst := hsim.footprint_le hleft
  have hsecond := hsim.swap.footprint_le hright
  rw [missing_eq_empty fun slot h => (hslots slot).mpr h,
    missing_eq_empty fun slot h => (hslots slot).mp h] at hfirst hsecond
  have hsame : left.heap.footprint = right.heap.footprint := by omega
  rw [hsim.heap.leftSound.accounted.bytesLive, hsim.heap.rightSound.accounted.bytesLive, hsame]

/-- Machines that are both out of memory ask for the same number of bytes. -/
theorem same_request {need need' : Nat} {request : UInt64 → HeapExhausted}
    {leftAgain rightAgain leftLast rightLast : Machine} {first second : HeapExhausted} {σ : Renaming}
    (hcorr : Corresponds ρ left right) (hleft : Retried need left leftAgain)
    (hright : Retried need right rightAgain) (hready : Ready σ leftAgain rightAgain)
    (hneed : leftAgain.wanted ≠ [] → need' = need)
    (hleftDemands : Demands leftAgain.wanted need' request leftAgain (dispatch leftAgain))
    (hrightDemands : Demands rightAgain.wanted need' request rightAgain (dispatch rightAgain))
    (hleftFull : dispatch leftAgain = .error (.exhausted first) leftLast)
    (hrightFull : dispatch rightAgain = .error (.exhausted second) rightLast)
    (hleftSpace : leftAgain.heap.Addressable) (hrightSpace : rightAgain.heap.Addressable)
    (hleftLast : leftLast.heap.Addressable) (hrightLast : rightLast.heap.Addressable)
    (hlimit : left.limit = leftAgain.limit) : first = second := by
  have hsim := hready.similar
  rw [(hleftDemands.full first leftLast hleftFull).2.2 hleftLast,
    (hrightDemands.full second rightLast hrightFull).2.2 hrightLast]
  by_cases hslots : ∀ slot, slot ∈ leftAgain.openSlots ↔ slot ∈ rightAgain.openSlots
  · have hlive := bytesLive_eq hsim hleft.tidy hright.tidy hslots
    rw [show leftAgain.live = rightAgain.live from congrArg UInt64.toNat hlive, hlive, limit_eq hsim]
  · obtain ⟨slot, hslot⟩ := not_forall.mp hslots
    have hwanted : slot ∈ leftAgain.wanted := by
      by_contra hother
      exact hslot (hready.slots slot hother)
    have hsame : need' = need := hneed (List.ne_nil_of_mem hwanted)
    have hroom : leftAgain.heap.footprint + need ≤ left.limit ∧
        rightAgain.heap.footprint + need ≤ left.limit := by
      by_cases hthere : slot ∈ leftAgain.openSlots
      · exact room_of_own_slot hcorr hleft hright hready hthere fun h => hslot (iff_of_true hthere h)
      · have hother : slot ∈ rightAgain.openSlots := by
          by_contra hnot
          exact hslot (iff_of_false hthere hnot)
        have hswapped := room_of_own_slot hcorr.swap hright hleft hready.swap hother hthere
        rw [← limit_eq hcorr.toSimilar] at hswapped
        exact hswapped.symm
    rw [live_eq_footprint hsim.heap.leftSound hleftSpace, live_eq_footprint hsim.heap.rightSound hrightSpace,
      ← limit_eq hsim, ← hlimit, hsame, if_pos hroom.1, if_pos hroom.2]

/-- The objects fit into the address space before an instruction and after each try. -/
structure Roomy (m : Machine) : Prop where
  before : m.heap.Addressable
  tried : (stateAfter (dispatch m.safepoint)).heap.Addressable

theorem Roomy.safepoint {m : Machine} (hroomy : Roomy m) (hidle : m.heap.Idle) :
    m.safepoint.heap.Addressable :=
  lt_of_le_of_lt (footprint_safepoint m hidle) hroomy.before

theorem sound_again {m after : Machine} {request : HeapExhausted} (hsound : m.Sound)
    (hfull : dispatch m = .error (.exhausted request) after) : (again after).Sound := by
  have hafter := sound_dispatch hsound
  rw [hfull] at hafter
  exact (hafter.withIp _).collectGarbage

/-- One machine ran the instruction at once and the other after a collection. -/
theorem concluded_retry {need : Nat} {leftAgain : Machine} (hleft : Retried need left leftAgain)
    (hready : Ready ρ left right) (hpoised : right.Poised) (hbelow : right.StaysBelow)
    (hleftSpace : leftAgain.heap.Addressable) (hrightSpace : right.heap.Addressable)
    (hafterSpace : (stateAfter (dispatch right)).heap.Addressable) (hplain : ¬ Full (dispatch right)) :
    ¬ Full (dispatch leftAgain) ∧
      Concluded (conclude (dispatch leftAgain)) (conclude (dispatch right)) := by
  obtain ⟨σ, hagain⟩ := hleft.ready ρ right hready hpoised
  cases trial_dispatch hagain ((hbelow.similar hagain.similar.swap).namesAlike right) with
  | calm hcalm => exact ⟨hcalm.not_full.1, concluded_of_together hcalm⟩
  | demands hfirst hsecond _ htogether =>
    have hroom := not_full_of_tidy hagain hleft.tidy hfirst hsecond hleftSpace hrightSpace hafterSpace hplain
    obtain ⟨τ, hcalm⟩ := htogether hroom hplain
    exact ⟨hroom, concluded_of_together hcalm⟩

/-- What the machines of a run have at an instruction boundary: they are sound, and their objects fit
into the address space, also after the instruction has given up once. -/
structure Sturdy (m : Machine) : Prop where
  sound : m.Sound
  roomy : Roomy m
  again : ∀ request after, dispatch m.safepoint = .error (.exhausted request) after → Roomy (again after)

theorem Sturdy.retried {need : Nat} {request : UInt64 → HeapExhausted} {m after : Machine}
    {asked : HeapExhausted} (hsturdy : Sturdy m)
    (hdemands : Demands m.safepoint.wanted need request m.safepoint (dispatch m.safepoint))
    (hfull : dispatch m.safepoint = .error (.exhausted asked) after) :
    Retried need m.safepoint (Exec.again after).safepoint ∧
      (Exec.again after).safepoint.heap.Addressable := by
  have hspace := hsturdy.roomy.tried
  rw [hfull] at hspace
  refine ⟨retried_of_full hsturdy.sound.safepoint (poised_safepoint m) hdemands hfull hspace, ?_⟩
  have hsound := sound_again hsturdy.sound.safepoint hfull
  exact (hsturdy.again asked after hfull).safepoint hsound.idle

/-- One machine gave up and the other did not: they still end the instruction in the same way. -/
theorem concluded_of_one_full {need : Nat} {request : UInt64 → HeapExhausted}
    (hready : Ready ρ left.safepoint right.safepoint) (hbelow : right.safepoint.StaysBelow)
    (hleft : Sturdy left) (hright : Sturdy right)
    (hdemands : Demands left.safepoint.wanted need request left.safepoint (dispatch left.safepoint))
    (hfull : Full (dispatch left.safepoint)) (hplain : ¬ Full (dispatch right.safepoint)) :
    Concluded (complete left) (complete right) := by
  obtain ⟨asked, after, hfull⟩ := hfull
  obtain ⟨hretried, hspace⟩ := hleft.retried hdemands hfull
  obtain ⟨hroom, hconcluded⟩ := concluded_retry hretried hready (poised_safepoint right) hbelow hspace
    (hright.roomy.safepoint hright.sound.idle) hright.roomy.tried hplain
  rw [complete_of_retry hfull hroom, complete_of_not_full hplain]
  exact hconcluded

/-- Both machines gave up: both find room after a collection, or neither does and both say so. -/
theorem concluded_of_both_full {need : Nat} {request : UInt64 → HeapExhausted}
    (hcorr : Corresponds ρ left.safepoint right.safepoint) (hbelow : left.safepoint.StaysBelow)
    (hleft : Sturdy left) (hright : Sturdy right)
    (hneed : left.safepoint.wanted ≠ [] → need = left.safepoint.closureNeed)
    (hleftDemands : Demands left.safepoint.wanted need request left.safepoint (dispatch left.safepoint))
    (hrightDemands : Demands right.safepoint.wanted need request right.safepoint (dispatch right.safepoint))
    (hleftFull : Full (dispatch left.safepoint)) (hrightFull : Full (dispatch right.safepoint)) :
    Concluded (complete left) (complete right) := by
  obtain ⟨first, leftAfter, hleftFull⟩ := hleftFull
  obtain ⟨second, rightAfter, hrightFull⟩ := hrightFull
  obtain ⟨hleftRetried, hleftSpace⟩ := hleft.retried hleftDemands hleftFull
  obtain ⟨hrightRetried, hrightSpace⟩ := hright.retried hrightDemands hrightFull
  have hleftTried := (hleft.again first leftAfter hleftFull).tried
  have hrightTried := (hright.again second rightAfter hrightFull).tried
  obtain ⟨σ, hone⟩ := hleftRetried.ready ρ _ hcorr.ready (poised_safepoint right)
  obtain ⟨τ, htwo⟩ := hrightRetried.ready σ.swap _ hone.swap (poised_safepoint _)
  have hready := htwo.swap
  have hplain : ¬ Full (dispatch (Exec.again leftAfter).safepoint) →
      ¬ Full (dispatch (Exec.again rightAfter).safepoint) →
      (∃ υ, Together υ (dispatch (Exec.again leftAfter).safepoint)
        (dispatch (Exec.again rightAfter).safepoint)) → Concluded (complete left) (complete right) := by
    rintro hnotLeft hnotRight ⟨υ, htogether⟩
    rw [complete_of_retry hleftFull hnotLeft, complete_of_retry hrightFull hnotRight]
    exact concluded_of_together htogether
  have hstays := (hbelow.similar hcorr.toSimilar).similar hone.similar.swap
  cases trial_dispatch hready (hstays.namesAlike _) with
  | calm hcalm => exact hplain hcalm.not_full.1 hcalm.not_full.2 ⟨_, hcalm⟩
  | @demands need' request' hfirst hsecond hneed' htogether =>
    by_cases hfull : Full (dispatch (Exec.again leftAfter).safepoint)
    · have hother : Full (dispatch (Exec.again rightAfter).safepoint) := by
        by_contra hnot
        exact not_full_of_tidy hready hleftRetried.tidy hfirst hsecond hleftSpace hrightSpace
          hrightTried hnot hfull
      obtain ⟨asked, leftLast, hleftLast⟩ := hfull
      obtain ⟨asked', rightLast, hrightLast⟩ := hother
      rw [hleftLast] at hleftTried
      rw [hrightLast] at hrightTried
      have hagree : (Exec.again leftAfter).safepoint.wanted ≠ [] → need' = need := by
        intro hwanted
        rw [hneed' hwanted, closureNeed_eq hone.similar, ← closureNeed_eq hcorr.toSimilar]
        rw [wanted_eq hone.similar, ← wanted_eq hcorr.toSimilar] at hwanted
        exact (hneed hwanted).symm
      have hlimit : left.safepoint.limit = (Exec.again leftAfter).safepoint.limit :=
        (limit_eq hcorr.toSimilar).trans (limit_eq hone.similar).symm
      have hsame : asked = asked' := same_request hcorr hleftRetried hrightRetried hready hagree hfirst
        hsecond hleftLast hrightLast hleftSpace hrightSpace hleftTried hrightTried hlimit
      rw [complete_of_full hleftFull hleftLast, complete_of_full hrightFull hrightLast, hsame]
      obtain ⟨α, hleftSim⟩ := (hfirst.full asked leftLast hleftLast).2.1.similar _ _ hready.similar
      obtain ⟨β, hrightSim⟩ := (hsecond.full asked' rightLast hrightLast).2.1.similar _ _ hleftSim.swap
      have hraised := concluded_raise hrightSim.swap (outOfMemory asked')
      rw [raise_withIp _ leftLast, raise_withIp _ rightLast] at hraised
      exact hraised
    · have hother : ¬ Full (dispatch (Exec.again rightAfter).safepoint) :=
        not_full_of_tidy hready.swap hrightRetried.tidy hsecond hfirst hrightSpace hleftSpace
          hleftTried hfull
      exact hplain hfull hother (htogether hfull hother)

/-- Machines that correspond end an instruction in the same way, whenever each of them collects. The
instruction names slots below the top only: above it each machine finds what its own past has left. -/
theorem concluded_complete (hcorr : Corresponds ρ left right) (hbelow : left.safepoint.StaysBelow)
    (hleft : Sturdy left) (hright : Sturdy right) : Concluded (complete left) (complete right) := by
  obtain ⟨σ, hbefore⟩ := hcorr.safepoint
  have hother := hbelow.similar hbefore.toSimilar
  cases trial_dispatch hbefore.ready (hbelow.namesAlike _) with
  | calm hcalm =>
    rw [complete_of_not_full hcalm.not_full.1, complete_of_not_full hcalm.not_full.2]
    exact concluded_of_together hcalm
  | demands hfirst hsecond hneed htogether =>
    by_cases hleftFull : Full (dispatch left.safepoint)
    · by_cases hrightFull : Full (dispatch right.safepoint)
      · exact concluded_of_both_full hbefore hbelow hleft hright hneed hfirst hsecond hleftFull hrightFull
      · exact concluded_of_one_full hbefore.ready hother hleft hright hfirst hleftFull hrightFull
    · by_cases hrightFull : Full (dispatch right.safepoint)
      · exact (concluded_of_one_full hbefore.ready.swap hbelow hright hleft hsecond hrightFull
            hleftFull).swap
      · obtain ⟨τ, hcalm⟩ := htogether hleftFull hrightFull
        rw [complete_of_not_full hleftFull, complete_of_not_full hrightFull]
        exact concluded_of_together hcalm

end Exec

end OwnScript
