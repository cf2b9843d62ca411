import OwnScript.Proofs.Machine.Instructions

/-!
The instructions that need storage, closures apart. Whether one of them finds the heap full depends
on the bytes in use and on a need that both sides share; a machine that gives up has changed nothing
but what is parked for reuse.
-/

namespace OwnScript

open Stateful

namespace Machine

/-- The bytes in use. -/
def live (m : Machine) : Nat :=
  m.heap.statistics.bytesLive.toNat

/-- The largest number of bytes that may be in use. -/
def limit (m : Machine) : Nat :=
  m.heap.config.maxHeapBytes.toNat

/-- A machine that gave up an instruction because the heap was full. -/
structure GaveUp (m after : Machine) : Prop where
  rest : after = { m with heap := after.heap }
  heap : Heap.Alike m.heap after.heap

end Machine

namespace Exec

/-- The instruction found the heap full. -/
def Full {α : Type} (result : EStateM.Result Fault Machine α) : Prop :=
  ∃ request after, result = .error (.exhausted request) after

/-- The machine after a step. -/
def stateAfter {α : Type} : EStateM.Result Fault Machine α → Machine
  | .ok _ after => after
  | .error _ after => after

/-- An instruction needs a number of bytes: it gives up exactly when they do not fit, and then asks
for what the bytes in use determine. -/
structure Needs (need : Nat) (request : UInt64 → HeapExhausted) (m : Machine)
    (result : EStateM.Result Fault Machine Unit) : Prop where
  full : ∀ asked after, result = .error (.exhausted asked) after →
    m.limit < m.live + need ∧ asked = request m.heap.statistics.bytesLive ∧ m.GaveUp after
  fits : ¬ Full result → (stateAfter result).heap.Addressable → m.live + need ≤ m.limit

/-- An instruction tried on both sides: either it needs no storage this time, or it has the same
need on both sides and keeps the machines together when both have room. -/
inductive Attempt (left right : Machine) (first second : EStateM.Result Fault Machine Unit) : Prop where
  | calm {σ : Renaming} : Together σ first second → Attempt left right first second
  | needs {need : Nat} {request : UInt64 → HeapExhausted} : Needs need request left first →
      Needs need request right second →
      (¬ Full first → ¬ Full second → ∃ σ, Together σ first second) → Attempt left right first second

variable {ρ : Renaming} {left right : Machine}

theorem Reads.bind_attempt {α β : Type} {post : α → β → Prop} {x : Exec α} {y : Exec β}
    {f : α → Exec Unit} {g : β → Exec Unit} (hfirst : Reads left right post (x left) (y right))
    (hcorr : Machine.Corresponds ρ left right)
    (hnext : ∀ a b, post a b → Attempt left right (f a left) (g b right)) :
    Attempt left right ((x >>= f) left) ((y >>= g) right) := by
  rw [bind_apply, bind_apply]
  generalize x left = first at hfirst ⊢
  generalize y right = second at hfirst ⊢
  cases hfirst with
  | ok hpost => exact hnext _ _ hpost
  | fault hplain => exact .calm (.fault hplain hcorr)

theorem Calm.not_full {α β : Type} {post : α → β → Prop} {first : EStateM.Result Fault Machine α}
    {second : EStateM.Result Fault Machine β} (hcalm : Calm ρ post first second) :
    ¬ Full first ∧ ¬ Full second := by
  cases hcalm with
  | ok =>
    refine ⟨fun ⟨_, _, h⟩ => ?_, fun ⟨_, _, h⟩ => ?_⟩
    · cases h
    · cases h
  | fault hplain =>
    refine ⟨fun ⟨request, _, h⟩ => ?_, fun ⟨request, _, h⟩ => ?_⟩
    · cases h
      exact hplain request rfl
    · cases h
      exact hplain request rfl

/-- The bytes that an allocation asks for when it fails. -/
def allocationRequest (object : Object) (limit live : UInt64) : HeapExhausted :=
  if limit < live + object.blockSize.toUInt64 then ⟨object.blockSize.toUInt64⟩
  else ⟨object.memorySize.toUInt64⟩

/-- The bytes that an allocation needs, as the account counts them. -/
def allocationNeed (object : Object) : Nat :=
  max object.blockSize.toUInt64.toNat object.memorySize.toUInt64.toNat

theorem lt_of_add_overflow {limit live size : UInt64} (hover : limit < live + size) :
    limit.toNat < live.toNat + size.toNat := by
  rw [UInt64.lt_iff_toNat_lt, UInt64.toNat_add] at hover
  have hmod := Nat.mod_le (live.toNat + size.toNat) (2 ^ 64)
  omega

/-- An allocation enters its object, or gives up. -/
theorem onHeap_allocate_cases (object : Object) {m : Machine} (hsound : m.heap.Sound) :
    (∃ parked, Heap.Alike m.heap parked ∧
      onHeap (Heap.allocate object) m = .ok m.heap.nextRef { m with heap := parked.link object } ∧
      ((parked.link object).Addressable → m.live + allocationNeed object ≤ m.limit)) ∨
    (∃ after, m.GaveUp after ∧
      onHeap (Heap.allocate object) m = .error (.exhausted
        (allocationRequest object m.heap.config.maxHeapBytes m.heap.statistics.bytesLive)) after ∧
      m.limit < m.live + allocationNeed object) := by
  have hneed : object.memorySize.toUInt64.toNat ≤ allocationNeed object := le_max_right _ _
  rcases Heap.allocate_cases object m.heap with
    ⟨parked, halike, hblock, hsize, hresult⟩ | ⟨hblock, hresult⟩ | ⟨parked, halike, hblock, hsize, hresult⟩
  · refine .inl ⟨parked, halike, by simp [onHeap, hresult], fun hspace => ?_⟩
    have hparked := hsound.of_alike halike
    have htotal := Heap.footprint_link hparked.bounded object
    rw [Heap.footprint_congr halike.get?] at htotal
    have hword : UInt64.size = 2 ^ 64 := rfl
    unfold Heap.Addressable at hspace
    have hlive : m.live = m.heap.footprint :=
      hsound.accounted.toNat_bytesLive (show m.heap.footprint < _ by omega)
    have hwhole : object.memorySize.toUInt64.toNat = object.memorySize :=
      Nat.mod_eq_of_lt (by omega)
    have hpart : object.blockSize.toUInt64.toNat = object.blockSize := by
      refine Nat.mod_eq_of_lt ?_
      simp only [Object.memorySize] at htotal
      omega
    have hle : object.blockSize ≤ object.memorySize := Nat.le_add_right _ _
    rw [UInt64.le_iff_toNat_le, UInt64.toNat_add, hwhole, Nat.mod_eq_of_lt] at hsize
    · rw [allocationNeed, hwhole, hpart, max_eq_right hle]
      exact hsize
    · change m.live + _ < _
      omega
  · refine .inr ⟨m, ⟨rfl, Heap.Alike.refl _⟩, by simp [onHeap, hresult, allocationRequest, hblock], ?_⟩
    have hover := lt_of_add_overflow hblock
    have hmax : object.blockSize.toUInt64.toNat ≤ allocationNeed object := le_max_left _ _
    change m.limit < m.live + _ at hover
    omega
  · refine .inr ⟨{ m with heap := parked }, ⟨rfl, halike⟩, ?_, ?_⟩
    · simp [onHeap, hresult, allocationRequest, UInt64.not_lt.mpr hblock]
    · have hover := lt_of_add_overflow hsize
      change m.limit < m.live + _ at hover
      omega

/-- A test for room passes, or gives up. -/
theorem onHeap_ensureHeadroom_cases (bytes : UInt64) (m : Machine) :
    (onHeap (Heap.ensureHeadroom bytes) m = .ok () m ∧ m.live + bytes.toNat ≤ m.limit) ∨
    (onHeap (Heap.ensureHeadroom bytes) m = .error (.exhausted ⟨bytes⟩) m ∧
      m.limit < m.live + bytes.toNat) := by
  rcases Heap.ensureHeadroom_cases bytes m.heap with ⟨hbytes, hlive, hresult⟩ | ⟨hfull, hresult⟩
  · refine .inl ⟨by simp [onHeap, hresult], ?_⟩
    rw [UInt64.le_iff_toNat_le, UInt64.toNat_sub_of_le _ _ hbytes] at hlive
    rw [UInt64.le_iff_toNat_le] at hbytes
    change m.live ≤ m.limit - _ at hlive
    change _ ≤ m.limit at hbytes
    omega
  · refine .inr ⟨by simp [onHeap, hresult], ?_⟩
    change m.heap.config.maxHeapBytes.toNat < m.heap.statistics.bytesLive.toNat + _
    rcases hfull with hbytes | hlive
    · rw [UInt64.lt_iff_toNat_lt] at hbytes
      omega
    · by_cases hle : bytes ≤ m.heap.config.maxHeapBytes
      · rw [UInt64.lt_iff_toNat_lt, UInt64.toNat_sub_of_le _ _ hle] at hlive
        omega
      · rw [UInt64.not_le, UInt64.lt_iff_toNat_lt] at hle
        omega

theorem allocated_of_not_full {object : Object} {k : Ref → Exec Unit} {m : Machine}
    (hsound : m.heap.Sound) (hplain : ¬ Full ((onHeap (Heap.allocate object) >>= k) m)) :
    ∃ parked, Heap.Alike m.heap parked ∧ (onHeap (Heap.allocate object) >>= k) m =
      k m.heap.nextRef { m with heap := parked.link object } := by
  rw [bind_apply] at hplain ⊢
  rcases onHeap_allocate_cases object hsound with ⟨parked, halike, hresult, -⟩ | ⟨after, -, hresult, -⟩
  · exact ⟨parked, halike, by rw [hresult]⟩
  · rw [hresult] at hplain
    exact absurd ⟨_, _, rfl⟩ hplain

theorem roomy_of_not_full {bytes : UInt64} {k : Exec Unit} {m : Machine}
    (hplain : ¬ Full ((onHeap (Heap.ensureHeadroom bytes) >>= fun _ => k) m)) :
    (onHeap (Heap.ensureHeadroom bytes) >>= fun _ => k) m = k m := by
  rw [bind_apply] at hplain ⊢
  rcases onHeap_ensureHeadroom_cases bytes m with ⟨hresult, -⟩ | ⟨hresult, -⟩
  · rw [hresult]
  · rw [hresult] at hplain
    exact absurd ⟨_, _, rfl⟩ hplain

/-- A step that leaves the heap alone. -/
structure KeepsHeap (m : Machine) (result : EStateM.Result Fault Machine Unit) : Prop where
  notFull : ¬ Full result
  heap : (stateAfter result).heap = m.heap

theorem keepsHeap_push (value : Value) (m : Machine) : KeepsHeap m (push value m) := by
  simp only [push]
  rw [get_bind_apply]
  split
  · refine ⟨?_, rfl⟩
    rintro ⟨_, _, h⟩
    simp [fail] at h
  · refine ⟨?_, rfl⟩
    rintro ⟨_, _, h⟩
    simp at h

theorem keepsHeap_replaceTop (count : Nat) (value : Value) (m : Machine) :
    KeepsHeap m (replaceTop count value m) := by
  have hpush := keepsHeap_push value (m.cut (m.stack.size - count))
  exact ⟨hpush.notFull, hpush.heap⟩

/-- An allocation followed by steps that only use the new object. -/
theorem needs_allocate {object : Object} {k : Ref → Exec Unit} {m : Machine} (hsound : m.heap.Sound)
    (hnext : ∀ parked, Heap.Alike m.heap parked →
      ¬ Full (k m.heap.nextRef { m with heap := parked.link object }) ∧
      (parked.link object).footprint ≤
        (stateAfter (k m.heap.nextRef { m with heap := parked.link object })).heap.footprint) :
    Needs (allocationNeed object) (allocationRequest object m.heap.config.maxHeapBytes) m
      ((onHeap (Heap.allocate object) >>= k) m) := by
  rw [bind_apply]
  rcases onHeap_allocate_cases object hsound with
    ⟨parked, halike, hresult, hfits⟩ | ⟨after, hgave, hresult, hfull⟩
  · obtain ⟨hplain, hgrown⟩ := hnext parked halike
    rw [hresult]
    refine ⟨fun asked after h => absurd ⟨asked, after, h⟩ hplain, fun _ hspace => hfits ?_⟩
    exact lt_of_le_of_lt hgrown hspace
  · rw [hresult]
    refine ⟨fun asked other h => ?_, fun hnot => absurd ⟨_, _, rfl⟩ hnot⟩
    cases h
    exact ⟨hfull, rfl, hgave⟩

end Exec

namespace Machine

variable {ρ : Renaming} {left right : Machine}

theorem openCells_ne_nextRef {m : Machine} (hopen : OpenCellsSound m.heap m.openCells)
    (hbounded : m.heap.Bounded) {entry : OpenCell} (hentry : entry ∈ m.openCells) :
    entry.cell ≠ m.heap.nextRef :=
  Nat.ne_of_lt (hbounded _ _ (hopen.opened entry hentry))

/-- New objects that agree, entered on both sides. -/
theorem Corresponds.withLink (hcorr : Corresponds ρ left right) {leftParked rightParked : Heap}
    (hleft : Heap.Alike left.heap leftParked) (hright : Heap.Alike right.heap rightParked)
    {first second : Object} (hrel : Object.Related ρ first second) :
    Corresponds (ρ.withObject left.heap.nextRef right.heap.nextRef)
      { left with heap := leftParked.link first } { right with heap := rightParked.link second } := by
  have hheap := (hcorr.heap.alike hleft hright).link_objects hrel
  rw [hleft.nextRef, hright.nextRef] at hheap
  refine ⟨hcorr.toSimilar.withHeap (ρ.le_withObject _ _) hheap (hleft.ages_link first)
    (hright.ages_link second) (fun _ _ h => h) (fun a b slot hpair hopened => ?_) (fun entry hentry => ?_)
      (fun entry hentry => ?_), hcorr.slots⟩
  · have hne := hcorr.heap.ne_nextRef (.inr ⟨b, hpair⟩)
    rwa [Heap.get?_link, hleft.nextRef, if_neg hne, hleft.get?] at hopened
  · have hne := openCells_ne_nextRef hcorr.leftOpen hcorr.heap.leftSound.bounded hentry
    rw [Heap.get?_link, hleft.nextRef, if_neg hne, hleft.get?]
  · have hne := openCells_ne_nextRef hcorr.rightOpen hcorr.heap.rightSound.bounded hentry
    rw [Heap.get?_link, hright.nextRef, if_neg hne, hright.get?]

end Machine

namespace Exec

variable {ρ : Renaming} {left right : Machine}

theorem attempt_string (hcorr : Machine.Corresponds ρ left right) (text : String) :
    Attempt left right
      ((onHeap (Heap.allocate (.string text)) >>= fun ref => push (.ofRef ref)) left)
      ((onHeap (Heap.allocate (.string text)) >>= fun ref => push (.ofRef ref)) right) := by
  have hneeds {m : Machine} (hsound : m.heap.Sound) :
      Needs (allocationNeed (.string text))
        (allocationRequest (.string text) m.heap.config.maxHeapBytes) m
        ((onHeap (Heap.allocate (.string text)) >>= fun ref => push (.ofRef ref)) m) := by
    refine needs_allocate hsound fun parked _ => ?_
    have hpush := keepsHeap_push (.ofRef m.heap.nextRef) { m with heap := parked.link (.string text) }
    exact ⟨hpush.notFull, by rw [hpush.heap]⟩
  have hleft := hneeds hcorr.heap.leftSound
  rw [hcorr.heap.limit] at hleft
  refine .needs hleft (hneeds hcorr.heap.rightSound) fun hfirst hsecond => ?_
  obtain ⟨leftParked, hleftAlike, hleftResult⟩ := allocated_of_not_full hcorr.heap.leftSound hfirst
  obtain ⟨rightParked, hrightAlike, hrightResult⟩ := allocated_of_not_full hcorr.heap.rightSound hsecond
  rw [hleftResult, hrightResult]
  refine ⟨_, calm_push (hcorr.withLink hleftAlike hrightAlike (.string text)) ?_⟩
  exact Value.related_ofRef (.inr ⟨rfl, rfl⟩)

/-- A test for room before a step that may itself give up. -/
theorem needs_headroom {bytes : UInt64} {k : Exec Unit} {need : Nat} {request : UInt64 → HeapExhausted}
    {m : Machine} (hnext : Needs need request m (k m)) :
    Needs (max bytes.toNat need)
      (fun used => if m.limit < used.toNat + bytes.toNat then ⟨bytes⟩ else request used) m
      ((onHeap (Heap.ensureHeadroom bytes) >>= fun _ => k) m) := by
  rw [bind_apply]
  rcases onHeap_ensureHeadroom_cases bytes m with ⟨hresult, hroom⟩ | ⟨hresult, hfull⟩
  · rw [hresult]
    refine ⟨fun asked after h => ?_, fun hplain hspace => ?_⟩
    · obtain ⟨hover, hasked, hgave⟩ := hnext.full asked after h
      exact ⟨by omega, hasked.trans (if_neg (Nat.not_lt.mpr hroom)).symm, hgave⟩
    · have hfits := hnext.fits hplain hspace
      omega
  · rw [hresult]
    refine ⟨fun asked after h => ?_, fun hplain => absurd ⟨_, _, rfl⟩ hplain⟩
    cases h
    refine ⟨by omega, (if_pos hfull).symm, rfl, Heap.Alike.refl _⟩

/-- A test for room before a step that never gives up. -/
theorem needs_headroom_only {bytes : UInt64} {k : Exec Unit} {m : Machine} (hnext : ¬ Full (k m)) :
    Needs bytes.toNat (fun _ => ⟨bytes⟩) m ((onHeap (Heap.ensureHeadroom bytes) >>= fun _ => k) m) := by
  rw [bind_apply]
  rcases onHeap_ensureHeadroom_cases bytes m with ⟨hresult, hroom⟩ | ⟨hresult, hfull⟩
  · rw [hresult]
    exact ⟨fun asked after h => absurd ⟨asked, after, h⟩ hnext, fun _ _ => hroom⟩
  · rw [hresult]
    refine ⟨fun asked after h => ?_, fun hplain => absurd ⟨_, _, rfl⟩ hplain⟩
    cases h
    exact ⟨hfull, rfl, rfl, Heap.Alike.refl _⟩

/-- Fills a new container and puts it in the place of its parts. -/
def fill (object : Object) (count : Nat) (ref : Ref) : Exec Unit := do
  modify fun m => { m with heap := m.heap.store ref object }
  replaceTop count (.ofRef ref)

/-- Builds a container: room for all of it, an empty one, then its contents. -/
def build (bytes : UInt64) (empty object : Object) (count : Nat) : Exec Unit := do
  onHeap (Heap.ensureHeadroom bytes)
  let ref ← onHeap (Heap.allocate empty)
  fill object count ref

theorem needs_build (bytes : UInt64) {empty object : Object}
    (hsize : empty.memorySize ≤ object.memorySize) (count : Nat) {m : Machine} (hsound : m.heap.Sound) :
    Needs (max bytes.toNat (allocationNeed empty))
      (fun used => if m.limit < used.toNat + bytes.toNat then ⟨bytes⟩
        else allocationRequest empty m.heap.config.maxHeapBytes used) m
      (build bytes empty object count m) := by
  refine needs_headroom (needs_allocate hsound fun parked halike => ?_)
  have hfilled := keepsHeap_replaceTop count (.ofRef m.heap.nextRef)
    { m with heap := (parked.link empty).store m.heap.nextRef object }
  refine ⟨hfilled.notFull, ?_⟩
  have hentered : (parked.link empty).get? m.heap.nextRef = some empty := by
    simp [Heap.get?_link, halike.nextRef]
  have hstored := Heap.footprint_store hentered object
  change _ ≤ (stateAfter (replaceTop count (.ofRef m.heap.nextRef)
    { m with heap := (parked.link empty).store m.heap.nextRef object })).heap.footprint
  rw [hfilled.heap]
  change _ ≤ ((parked.link empty).store m.heap.nextRef object).footprint
  omega

theorem attempt_build (hcorr : Machine.Corresponds ρ left right) (bytes : UInt64)
    (empty first second : Object) (hempty : Object.Related ρ empty empty)
    (hrel : Object.Related ρ first second) (hsize : empty.memorySize ≤ first.memorySize) (count : Nat) :
    Attempt left right (build bytes empty first count left) (build bytes empty second count right) := by
  have hleft := needs_build bytes hsize count hcorr.heap.leftSound
  have hright := needs_build bytes (hrel.memorySize ▸ hsize) count hcorr.heap.rightSound
  have hlimit : left.limit = right.limit := congrArg UInt64.toNat hcorr.heap.limit
  rw [hlimit, hcorr.heap.limit] at hleft
  refine .needs hleft hright fun hfirst hsecond => ?_
  unfold build at hfirst hsecond ⊢
  have hleftRoom := roomy_of_not_full hfirst
  have hrightRoom := roomy_of_not_full hsecond
  rw [hleftRoom] at hfirst ⊢
  rw [hrightRoom] at hsecond ⊢
  obtain ⟨leftParked, hleftAlike, hleftResult⟩ := allocated_of_not_full hcorr.heap.leftSound hfirst
  obtain ⟨rightParked, hrightAlike, hrightResult⟩ := allocated_of_not_full hcorr.heap.rightSound hsecond
  rw [hleftResult, hrightResult]
  have hlinked := hcorr.withLink hleftAlike hrightAlike hempty
  have hpair : (ρ.withObject left.heap.nextRef right.heap.nextRef).object
      left.heap.nextRef right.heap.nextRef := .inr ⟨rfl, rfl⟩
  have hstored := hlinked.withStore hpair (hrel.mono (ρ.le_withObject _ _))
  refine ⟨_, (calm_modify hstored).bind fun _ _ _ _ _ hnext => ?_⟩
  exact calm_replaceTop hnext count (Value.related_ofRef hpair)

/-- Fields with partners that agree are partners. -/
theorem replaceFirst_related {name : String} {a b : Value} (hab : Value.Related ρ a b)
    {first second : List (String × Value)} (hrel : List.Forall₂ (FieldRelated ρ) first second) :
    List.Forall₂ (FieldRelated ρ) (Fields.replaceFirst name a first)
      (Fields.replaceFirst name b second) := by
  induction hrel with
  | nil => exact .nil
  | @cons x y _ _ hfield hrest ih =>
    simp only [Fields.replaceFirst, hfield.1]
    split
    · exact .cons ⟨rfl, hab⟩ hrest
    · exact .cons hfield ih

theorem any_name_eq {name : String} {first second : List (String × Value)}
    (hrel : List.Forall₂ (FieldRelated ρ) first second) :
    first.any (fun entry => entry.1 == name) = second.any (fun entry => entry.1 == name) := by
  induction hrel with
  | nil => rfl
  | cons hfield _ ih => simp only [List.any_cons, hfield.1, ih]

theorem ofLiteral_related (names : List String) {first second : List Value}
    (hrel : List.Forall₂ (Value.Related ρ) first second) :
    List.Forall₂ (FieldRelated ρ) (Fields.ofLiteral names first).entries
      (Fields.ofLiteral names second).entries := by
  have hzip : ∀ (names : List String) {xs ys : List Value}, List.Forall₂ (Value.Related ρ) xs ys →
      List.Forall₂ (FieldRelated ρ) (names.zip xs) (names.zip ys) := by
    intro names
    induction names with
    | nil => intro xs ys _; simp
    | cons name rest ih =>
      intro xs ys h
      cases h with
      | nil => simp
      | cons hfirst hrest => exact .cons ⟨rfl, hfirst⟩ (ih hrest)
  refine List.rel_foldl (P := List.Forall₂ (FieldRelated ρ)) (fun xs ys hxys x y hxy => ?_) .nil
    (hzip names hrel)
  rw [any_name_eq hxys, hxy.1]
  split
  · exact replaceFirst_related hxy.2 hxys
  · exact List.rel_append hxys (.cons hxy .nil)

theorem attempt_buildRecord (hcorr : Machine.Corresponds ρ left right) (names : List String) :
    Attempt left right (buildRecord names left) (buildRecord names right) := by
  refine (reads_topValues hcorr.toSimilar names.length).bind_attempt hcorr fun xs ys hxys => ?_
  refine attempt_build hcorr _ (.record {}) (.record (.ofLiteral names xs.toList))
    (.record (.ofLiteral names ys.toList)) (.record rfl .nil)
      (.record rfl (ofLiteral_related names hxys)) ?_ names.length
  simp [Object.memorySize, Object.blockSize, Object.contentSize, textsCapacity]

theorem attempt_buildArray (hcorr : Machine.Corresponds ρ left right) (count : Nat) :
    Attempt left right (buildArray count left) (buildArray count right) := by
  refine (reads_topValues hcorr.toSimilar count).bind_attempt hcorr fun xs ys hxys => ?_
  refine attempt_build hcorr _ (.array {}) (.array (.exactly xs)) (.array (.exactly ys))
    (.array rfl .nil) (.array (rel_size hxys) hxys) ?_ count
  simp [Object.memorySize, Object.blockSize, Object.contentSize]

theorem replaceFirst_names (name : String) (value : Value) (entries : List (String × Value)) :
    (Fields.replaceFirst name value entries).map (·.1) = entries.map (·.1) := by
  induction entries with
  | nil => rfl
  | cons entry rest ih =>
    simp only [Fields.replaceFirst]
    split
    · simp_all
    · simp [ih]

/-- A field that is there takes its new value without needing room. -/
theorem calm_replaceField (hcorr : Machine.Corresponds ρ left right) {first second : Ref × Fields}
    (hrecord : RecordRelated ρ left right first second) (name : String) {a b : Value}
    (hab : Value.Related ρ a b) :
    Together ρ
      (((modify fun m => { m with
          heap := m.heap.update first.1 (.record (first.2.replace name a)) } : Exec Unit) >>=
        fun _ => replaceTop 2 a) left)
      (((modify fun m => { m with
          heap := m.heap.update second.1 (.record (second.2.replace name b)) } : Exec Unit) >>=
        fun _ => replaceTop 2 b) right) := by
  refine (calm_modify (hcorr.withUpdate hrecord.pair ?_ hrecord.left ?_)).bind
    fun _ _ _ _ _ hnext => calm_replaceTop hnext 2 hab
  · exact .record hrecord.capacity (replaceFirst_related hab hrecord.entries)
  · simp [Object.memorySize, Object.blockSize, Object.contentSize, Fields.replace, replaceFirst_names]

/-- A field that is not there yet needs room for itself. -/
theorem attempt_appendField (hcorr : Machine.Corresponds ρ left right) {first second : Ref × Fields}
    (hrecord : RecordRelated ρ left right first second) (name : String) {a b : Value}
    (hab : Value.Related ρ a b) (bytes : UInt64) :
    Attempt left right
      ((onHeap (Heap.ensureHeadroom bytes) >>= fun _ =>
        (modify fun m => { m with heap := m.heap.store first.1 (.record (first.2.append name a)) }) >>=
          fun _ => replaceTop 2 a) left)
      ((onHeap (Heap.ensureHeadroom bytes) >>= fun _ =>
        (modify fun m => { m with heap := m.heap.store second.1 (.record (second.2.append name b)) }) >>=
          fun _ => replaceTop 2 b) right) := by
  have hroom : first.2.roomForOneMore = second.2.roomForOneMore := by
    simp only [Fields.roomForOneMore, hrecord.capacity, hrecord.entries.length_eq]
  have hrel : Object.Related ρ (.record (first.2.append name a)) (.record (second.2.append name b)) :=
    .record hroom (List.rel_append hrecord.entries (.cons ⟨rfl, hab⟩ .nil))
  refine .needs (needs_headroom_only (keepsHeap_replaceTop 2 a _).notFull)
    (needs_headroom_only (keepsHeap_replaceTop 2 b _).notFull) fun hfirst hsecond => ?_
  rw [roomy_of_not_full hfirst, roomy_of_not_full hsecond]
  refine ⟨ρ, (calm_modify (hcorr.withStore hrecord.pair hrel)).bind fun _ _ _ _ _ hnext => ?_⟩
  exact calm_replaceTop hnext 2 hab

theorem attempt_setField (hcorr : Machine.Corresponds ρ left right) (name : String) :
    Attempt left right (setField name left) (setField name right) := by
  refine (reads_peek hcorr.toSimilar 0).bind_attempt hcorr fun a b hab => ?_
  refine (reads_peek hcorr.toSimilar 1).bind_attempt hcorr fun x y hxy => ?_
  refine (reads_expectRecord hcorr.toSimilar hxy _).bind_attempt hcorr fun first second hrecord => ?_
  have hcontains : first.2.contains name = second.2.contains name := any_name_eq hrecord.entries
  have hbytes : (first.2.roomForOneMore - first.2.capacity) * fieldBytes + textCapacity name =
      (second.2.roomForOneMore - second.2.capacity) * fieldBytes + textCapacity name := by
    simp only [Fields.roomForOneMore, hrecord.capacity, hrecord.entries.length_eq]
  simp only [hcontains, hbytes]
  split
  · exact .calm (calm_replaceField hcorr hrecord name hab)
  · exact attempt_appendField hcorr hrecord name hab _

/-- Every instruction but the making of closures. -/
theorem attempt_execute (hcorr : Machine.Corresponds ρ left right) {op : Opcode} (hop : op ≠ .closure)
    (a b : Nat) (hseen : ∀ slot ∈ left.namedSlots op a, Machine.SeenAlike left right slot) :
    Attempt left right (execute op a b left) (execute op a b right) := by
  by_cases hstorage : op.needsStorage = false
  · exact .calm (calm_execute hcorr hstorage a b hseen)
  · cases op with
    | closure => exact absurd rfl hop
    | string =>
      refine (reads_chunk hcorr.toSimilar).bind_attempt hcorr fun first second hchunk => ?_
      subst hchunk
      refine (reads_expect_same _).bind_attempt hcorr fun text other htext => ?_
      subst htext
      exact attempt_string hcorr text
    | record =>
      refine (reads_chunk hcorr.toSimilar).bind_attempt hcorr fun first second hchunk => ?_
      subst hchunk
      refine (reads_expect_same _).bind_attempt hcorr fun names other hnames => ?_
      subst hnames
      exact attempt_buildRecord hcorr names
    | setField =>
      refine (reads_chunk hcorr.toSimilar).bind_attempt hcorr fun first second hchunk => ?_
      subst hchunk
      refine (reads_expect_same _).bind_attempt hcorr fun name other hname => ?_
      subst hname
      exact attempt_setField hcorr name
    | array => exact attempt_buildArray hcorr a
    | _ => exact absurd rfl hstorage

end Exec

end OwnScript
