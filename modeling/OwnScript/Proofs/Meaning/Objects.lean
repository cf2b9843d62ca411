import OwnScript.Proofs.Meaning.Operations

/-!
The instructions that make, read and change objects. The evaluation enters an object in one step; a machine may
build it in several, with room set aside first, and may give up on the way. Either way both heaps agree afterwards
on all that values lead to.
-/

namespace OwnScript

open Stateful Machine

namespace Heap.Corresponds

variable {ρ : Renaming} {left right parked : Heap} {first second old empty : Object} {a b : Ref}

/-- An object that one side enters in one step is entered empty on the other side and filled there. -/
theorem build (hcorr : Corresponds ρ left right) (halike : Alike right parked) (hempty : empty.references = [])
    (hrel : Object.Related ρ first second) :
    Corresponds (ρ.withObject left.nextRef right.nextRef) (left.link first)
      ((parked.link empty).store right.nextRef second) := by
  have hentered : Corresponds ρ.swap (parked.link empty) left :=
    (hcorr.swap.alike_left halike).link_left (by simp [hempty])
  have hthere : (parked.link empty).get? right.nextRef = some empty := by simp [get?_link, halike.nextRef]
  have hfilled : Corresponds ρ.swap ((parked.link empty).store right.nextRef second) left := by
    refine hentered.of_left (fun ref href => ?_)
      (hentered.leftSound.store hthere (hentered.references_object hrel.swap)) ?_
    · rw [get?_store, if_neg (hcorr.swap.ne_nextRef href)]
    · unfold store recordSize
      split
      · rfl
      · split <;> rfl
  have hlinked := hfilled.swap.link_left (hcorr.references_object hrel)
  refine hlinked.pair_objects (a := left.nextRef) (b := right.nextRef) (by simp [get?_link])
    (by simp [get?_store, hthere]) hrel (fun other hpair => ?_) fun other hpair => ?_
  · exact hcorr.ne_nextRef (.inl ⟨other, hpair⟩) rfl
  · exact hcorr.swap.ne_nextRef (.inl ⟨other, hpair⟩) rfl

/-- An object is replaced on both sides, on one of them without its size being taken again, since that stays. -/
theorem store_update (hcorr : Corresponds ρ left right) (hpair : ρ.object a b) (hrel : Object.Related ρ first second)
    (hold : right.get? b = some old) (hsize : second.memorySize = old.memorySize) :
    Corresponds ρ (left.store a first) (right.update b second) := by
  refine ((hcorr.store_objects hpair hrel).swap.of_left (fun ref _ => ?_)
    (hcorr.rightSound.update hold hsize (hcorr.swap.references_object hrel.swap)) ?_).swap
  · rw [get?_update, get?_store]
  · unfold store recordSize
    split
    · rfl
    · split <;> rfl

/-- A value leads to partners, or to nothing on both sides. -/
theorem objectOf?_cases (hcorr : Corresponds ρ left right) {value other : Value} (hrel : Value.Related ρ value other) :
    (∃ ref partner first second, value.ref? = some ref ∧ other.ref? = some partner ∧ ρ.object ref partner ∧
      left.objectOf? value = some first ∧ right.objectOf? other = some second ∧ Object.Related ρ first second) ∨
    (left.objectOf? value = none ∧ right.objectOf? other = none) := by
  cases hrel with
  | scalar value => exact .inr ⟨rfl, rfl⟩
  | object hrefs =>
    cases hrefs with
    | none => exact .inr ⟨rfl, rfl⟩
    | @some ref partner hpair =>
      obtain ⟨first, second, hfirst, hsecond, hobject⟩ := hcorr.objects ref partner hpair
      exact .inl ⟨ref, partner, first, second, rfl, rfl, hpair, hfirst, hsecond, hobject⟩

/-- A value that leads to a record on one side leads to its partner on the other. -/
theorem record_left (hcorr : Corresponds ρ left right) {value other : Value} (hrel : Value.Related ρ value other)
    {others : Fields} (hother : right.objectOf? other = some (.record others)) :
    ∃ ref partner fields, value.ref? = some ref ∧ other.ref? = some partner ∧ ρ.object ref partner ∧
      left.objectOf? value = some (.record fields) ∧ fields.capacity = others.capacity ∧
      List.Forall₂ (FieldRelated ρ) fields.entries others.entries := by
  rcases hcorr.objectOf?_cases hrel with
    ⟨ref, partner, first, second, href, hpartner, hpair, hfirst, hsecond, hobject⟩ | ⟨-, hsecond⟩
  · cases hsecond.symm.trans hother
    cases hobject with
    | record hcapacity hentries => exact ⟨ref, partner, _, href, hpartner, hpair, hfirst, hcapacity, hentries⟩
  · cases hsecond.symm.trans hother

/-- A value that leads to an array on one side leads to its partner on the other. -/
theorem array_left (hcorr : Corresponds ρ left right) {value other : Value} (hrel : Value.Related ρ value other)
    {others : Elements} (hother : right.objectOf? other = some (.array others)) :
    ∃ ref partner elements, value.ref? = some ref ∧ other.ref? = some partner ∧ ρ.object ref partner ∧
      left.objectOf? value = some (.array elements) ∧ elements.capacity = others.capacity ∧
      List.Forall₂ (Value.Related ρ) elements.values.toList others.values.toList := by
  rcases hcorr.objectOf?_cases hrel with
    ⟨ref, partner, first, second, href, hpartner, hpair, hfirst, hsecond, hobject⟩ | ⟨-, hsecond⟩
  · cases hsecond.symm.trans hother
    cases hobject with
    | array hcapacity hvalues => exact ⟨ref, partner, _, href, hpartner, hpair, hfirst, hcapacity, hvalues⟩
  · cases hsecond.symm.trans hother

end Heap.Corresponds

/-- Results that agree: both fail in the same way, or both succeed and the results stand in a relation. -/
def Agree {α β : Type} (relation : α → β → Prop) (first : Except ErrorKind α) (second : Except ErrorKind β) : Prop :=
  (∃ value other, first = .ok value ∧ second = .ok other ∧ relation value other) ∨
    ∃ kind, first = .error kind ∧ second = .error kind

theorem Agree.of_ok {α β : Type} {relation : α → β → Prop} {first : Except ErrorKind α} {second : Except ErrorKind β}
    (hagree : Agree relation first second) {other : β} (hsecond : second = .ok other) :
    ∃ value, first = .ok value ∧ relation value other := by
  rcases hagree with ⟨value, found, hfirst, hfound, hrel⟩ | ⟨kind, -, hfound⟩
  · cases hfound.symm.trans hsecond
    exact ⟨value, hfirst, hrel⟩
  · cases hfound.symm.trans hsecond

theorem Agree.of_error {α β : Type} {relation : α → β → Prop} {first : Except ErrorKind α}
    {second : Except ErrorKind β} (hagree : Agree relation first second) {kind : ErrorKind}
    (hsecond : second = .error kind) : first = .error kind := by
  rcases hagree with ⟨value, found, -, hfound, -⟩ | ⟨_, hfirst, hfound⟩
  · cases hfound.symm.trans hsecond
  · cases hfound.symm.trans hsecond
    exact hfirst

namespace Heap.Corresponds

variable {ρ : Renaming} {left right : Heap} {value other index place : Value}

theorem field (hcorr : Corresponds ρ left right) (hrel : Value.Related ρ value other) (name : String) :
    Agree (Value.Related ρ) (left.field value name) (right.field other name) := by
  unfold Heap.field
  rcases hcorr.objectOf?_cases hrel with ⟨_, _, first, second, -, -, -, hfirst, hsecond, hobject⟩ | ⟨hfirst, hsecond⟩
  · rw [hfirst, hsecond]
    cases hobject with
    | @record fields others hcapacity hentries =>
      have hfound := find? name hentries
      dsimp only
      generalize fields.find? name = inner at hfound ⊢
      generalize others.find? name = copy at hfound ⊢
      cases hfound with
      | none => exact .inr ⟨_, rfl, rfl⟩
      | some hvalue => exact .inl ⟨_, _, rfl, rfl, hvalue⟩
    | string | array | closure => exact .inr ⟨_, rfl, rfl⟩
  · rw [hfirst, hsecond]
    exact .inr ⟨_, rfl, rfl⟩

theorem position {elements others : Elements} (hsize : elements.values.size = others.values.size)
    (hindex : Value.Related ρ index place) : elements.position index = others.position place := by
  cases hindex with
  | scalar value => cases value <;> simp only [Elements.position, hsize]
  | object => rfl

theorem element (hcorr : Corresponds ρ left right) (hrel : Value.Related ρ value other)
    (hindex : Value.Related ρ index place) :
    Agree (Value.Related ρ) (left.element value index) (right.element other place) := by
  unfold Heap.element
  rcases hcorr.objectOf?_cases hrel with ⟨_, _, first, second, -, -, -, hfirst, hsecond, hobject⟩ | ⟨hfirst, hsecond⟩
  · rw [hfirst, hsecond]
    cases hobject with
    | @array elements others hcapacity hvalues =>
      dsimp only
      have hsize : elements.values.size = others.values.size := by simpa using hvalues.length_eq
      rw [position hsize hindex]
      cases others.position place with
      | error kind => exact .inr ⟨kind, rfl, rfl⟩
      | ok position =>
        refine .inl ⟨_, _, rfl, rfl, ?_⟩
        dsimp only
        have hfound := rel_getElem? hvalues position
        rw [Array.getElem?_toList, Array.getElem?_toList] at hfound
        generalize elements.values[position]? = inner at hfound ⊢
        generalize others.values[position]? = copy at hfound ⊢
        cases hfound with
        | none => exact Value.related_nil ρ
        | some hvalue => exact hvalue
    | string | record | closure => exact .inr ⟨_, rfl, rfl⟩
  · rw [hfirst, hsecond]
    exact .inr ⟨_, rfl, rfl⟩

end Heap.Corresponds

namespace Mirrors

variable {T : Translation} {ρ σ : Renaming} {stack : List Value} {w : World} {m : Machine}

/-- New heaps under the same values. -/
theorem withHeap (hmirrors : Mirrors T ρ stack w m) (hle : ρ ≤ σ) {first second : Heap} {config : HeapConfig}
    (hheap : Heap.Corresponds σ { first with config } second) :
    Mirrors T σ stack { w with heap := first } { m with heap := second } := by
  obtain ⟨script, values, hstack, hvalues⟩ := hmirrors.stack
  exact { hmirrors with
    heap := ⟨config, hheap⟩
    stack := ⟨script, values, hstack, hvalues.imp fun _ _ h => h.mono hle⟩
    globals := fun id slot hslot => by
      obtain ⟨found, hfound, hrel⟩ := hmirrors.globals id slot hslot
      exact ⟨found, hfound, relImp hrel fun _ _ h => h.mono hle⟩ }

end Mirrors

namespace Exec

variable {T : Translation} {ρ : Renaming} {stack : List Value} {w : World} {m : Machine} {next : Nat}
  {fails : Option ErrorKind} {goal : Machine → Prop} {object value other index : Value} {a : Nat}

section Allocation

theorem comesOut_allocate {new : Object} {k : Ref → Exec Unit} (hsound : m.heap.Sound)
    (hnext : ∀ parked, Heap.Alike m.heap parked →
      ComesOut fails goal m (k m.heap.nextRef { m with heap := parked.link new })) :
    ComesOut fails goal m ((onHeap (Heap.allocate new) >>= k) m) := by
  rw [bind_apply]
  rcases onHeap_allocate_cases new hsound with ⟨parked, halike, hresult, -⟩ | ⟨after, hgave, hresult, -⟩
  · rw [hresult]
    exact hnext parked halike
  · rw [hresult]
    exact .full hgave

theorem comesOut_headroom {bytes : UInt64} {k : Exec Unit} (hnext : ComesOut fails goal m (k m)) :
    ComesOut fails goal m ((onHeap (Heap.ensureHeadroom bytes) >>= fun _ => k) m) := by
  rw [bind_apply]
  rcases onHeap_ensureHeadroom_cases bytes m with ⟨hresult, -⟩ | ⟨hresult, -⟩
  · rw [hresult]
    exact hnext
  · rw [hresult]
    exact .full ⟨rfl, .refl _⟩

theorem always_string {text : String} (htext : T.code.chunk.strings[a]? = some text) (b : Nat) :
    Always T stack w next none
      (Stands T next (.ofRef w.heap.nextRef :: stack) { w with heap := w.heap.link (.string text) })
      (execute .string a b) := by
  intro ρ m hmirrors hip
  obtain ⟨config, hheap⟩ := hmirrors.heap
  simp only [execute]
  rw [chunk_bind hmirrors, htext, expect_bind]
  refine comesOut_allocate hheap.rightSound fun parked halike => ?_
  refine comesOut_push rfl rfl rfl ⟨hip, ρ.withObject w.heap.nextRef m.heap.nextRef, ?_⟩
  have hlinked := (hheap.alike (.refl _) halike).link_objects (.string text)
  rw [halike.nextRef] at hlinked
  exact (hmirrors.withHeap (ρ.le_withObject _ _) hlinked).push (Value.related_ofRef (.inr ⟨rfl, rfl⟩))

/-- A container is built from the values on top of the stack. -/
theorem comesOut_build {bytes : UInt64} {empty new copy : Object} {script : Value} {tops values : List Value}
    {count : Nat} (hmirrors : Mirrors T ρ stack w (m.cut (values.length + 1))) (hip : m.ip = next)
    (hstack : m.stack = pile script (tops ++ values)) (hcount : tops.length = count) (hempty : empty.references = [])
    (hrel : Object.Related ρ new copy) :
    ComesOut none (Stands T next (.ofRef w.heap.nextRef :: stack) { w with heap := w.heap.link new }) m
      (build bytes empty copy count m) := by
  obtain ⟨config, hheap⟩ := hmirrors.heap
  unfold build
  refine comesOut_headroom (comesOut_allocate hheap.rightSound fun parked halike => ?_)
  unfold fill
  rw [bind_apply, modify_apply]
  dsimp only
  rw [replaceTop_pile tops (m := { m with heap := (parked.link empty).store m.heap.nextRef copy }) hstack hcount]
  refine comesOut_push rfl rfl rfl ⟨hip, ρ.withObject w.heap.nextRef m.heap.nextRef, ?_⟩
  have hbuilt := hheap.build halike hempty hrel
  exact (hmirrors.withHeap (ρ.le_withObject _ _) hbuilt).push (Value.related_ofRef (.inr ⟨rfl, rfl⟩))

theorem topValues_pile {script : Value} {tops values : List Value} {count : Nat}
    (hstack : m.stack = pile script (tops ++ values)) (hcount : tops.length = count) :
    topValues count m = .ok tops.reverse.toArray m := by
  have hsize : m.stack.size = tops.length + values.length + 1 := by
    rw [hstack, size_pile, List.length_append]
  have hbottom : tops.length + values.length + 1 - count = values.length + 1 := by omega
  simp only [topValues]
  rw [get_bind_apply, hsize, if_neg (by omega), hbottom, hstack, extract_pile]
  rfl

/-- A record of the values on top of the stack, which were pushed in order. -/
theorem always_record {names : List String} (hnames : T.code.chunk.shapes[a]? = some names) (b : Nat)
    {values : List Value} (hcount : values.length = names.length) :
    Always T (values.reverse ++ stack) w next none
      (Stands T next (.ofRef w.heap.nextRef :: stack)
        { w with heap := w.heap.link (.record (.ofLiteral names values)) }) (execute .record a b) := by
  intro ρ m hmirrors hip
  obtain ⟨script, tops, others, hstack, htops, -, hrest⟩ := hmirrors.split values.reverse
  have hlength : tops.length = names.length := by simpa [hcount] using htops.length_eq.symm
  have hvalues : List.Forall₂ (Value.Related ρ) values tops.reverse := by
    simpa using List.forall₂_reverse_iff.mpr htops
  simp only [execute]
  rw [chunk_bind hmirrors, hnames, expect_bind]
  simp only [buildRecord]
  rw [bind_apply, topValues_pile hstack hlength]
  exact comesOut_build hrest hip hstack hlength rfl (.record rfl (ofLiteral_related names hvalues))

/-- An array of the values on top of the stack, which were pushed in order. -/
theorem always_array {values : List Value} (hcount : values.length = a) (b : Nat) :
    Always T (values.reverse ++ stack) w next none
      (Stands T next (.ofRef w.heap.nextRef :: stack)
        { w with heap := w.heap.link (.array (.exactly values.toArray)) }) (execute .array a b) := by
  intro ρ m hmirrors hip
  obtain ⟨script, tops, others, hstack, htops, -, hrest⟩ := hmirrors.split values.reverse
  have hlength : tops.length = a := by simpa [hcount] using htops.length_eq.symm
  have hvalues : List.Forall₂ (Value.Related ρ) values tops.reverse := by
    simpa using List.forall₂_reverse_iff.mpr htops
  simp only [execute, buildArray]
  rw [bind_apply, topValues_pile hstack hlength]
  refine comesOut_build hrest hip hstack hlength rfl (.array ?_ hvalues)
  simpa [Elements.exactly] using hvalues.length_eq

end Allocation

section Reading

variable {script : Value} {values : List Value}

theorem expectRecord_eq {ref : Ref} {fields : Fields} (href : value.ref? = some ref)
    (hobject : m.heap.objectOf? value = some (.record fields)) (what : String) :
    expectRecord value what m = .ok (ref, fields) m := by
  simp only [expectRecord]
  rw [get_bind_apply]
  simp only [href, hobject]
  rfl

theorem expectArray_eq {ref : Ref} {elements : Elements} (href : value.ref? = some ref)
    (hobject : m.heap.objectOf? value = some (.array elements)) (what : String) :
    expectArray value what m = .ok (ref, elements) m := by
  simp only [expectArray]
  rw [get_bind_apply]
  simp only [href, hobject]
  rfl

/-- What a complaint about a value of another type is. -/
def Mistyped (diagnostic : Diagnostic) : Prop :=
  diagnostic.kind = .typeError ∧ diagnostic.location = {}

theorem expectRecord_other (hother : ∀ fields, m.heap.objectOf? value ≠ some (.record fields)) (what : String) :
    ∃ diagnostic, Mistyped diagnostic ∧ expectRecord value what m = .error (.failure diagnostic) m := by
  refine ⟨typeError s!"{what} expects a Record, got {m.heap.typeName value}", ⟨rfl, rfl⟩, ?_⟩
  simp only [expectRecord]
  rw [get_bind_apply]
  generalize m.heap.objectOf? value = found at hother
  cases value.ref? with
  | none => rfl
  | some ref =>
    cases found with
    | none => rfl
    | some object =>
      cases object with
      | record fields => exact absurd rfl (hother fields)
      | _ => rfl

theorem expectArray_other (hother : ∀ elements, m.heap.objectOf? value ≠ some (.array elements)) (what : String) :
    ∃ diagnostic, Mistyped diagnostic ∧ expectArray value what m = .error (.failure diagnostic) m := by
  refine ⟨typeError s!"{what} expects an Array, got {m.heap.typeName value}", ⟨rfl, rfl⟩, ?_⟩
  simp only [expectArray]
  rw [get_bind_apply]
  generalize m.heap.objectOf? value = found at hother
  cases value.ref? with
  | none => rfl
  | some ref =>
    cases found with
    | none => rfl
    | some object =>
      cases object with
      | array elements => exact absurd rfl (hother elements)
      | _ => rfl

theorem ref?_of_objectOf? {heap : Heap} {found : Object} (hobject : heap.objectOf? value = some found) :
    ∃ ref, value.ref? = some ref := by
  obtain ⟨ref, href, -⟩ := Option.bind_eq_some_iff.mp hobject
  exact ⟨ref, href⟩

theorem getField_cases (hstack : m.stack = pile script (value :: values)) (name : String) :
    (∃ result, m.heap.field value name = .ok result ∧
      getField name m = push result (m.cut (values.length + 1))) ∨
    ∃ diagnostic, m.heap.field value name = .error diagnostic.kind ∧ diagnostic.location = {} ∧
      getField name m = .error (.failure diagnostic) m := by
  simp only [getField]
  rw [bind_apply, peek_pile 0 hstack rfl]
  dsimp only
  by_cases hrecord : ∃ fields, m.heap.objectOf? value = some (.record fields)
  · obtain ⟨fields, hobject⟩ := hrecord
    obtain ⟨ref, href⟩ := ref?_of_objectOf? hobject
    rw [bind_apply, expectRecord_eq href hobject]
    simp only [Heap.field, hobject]
    cases fields.find? name with
    | some result => exact .inl ⟨result, rfl, replaceTop_pile [value] hstack rfl result⟩
    | none => exact .inr ⟨_, rfl, rfl, rfl⟩
  · have hother (fields : Fields) : m.heap.objectOf? value ≠ some (.record fields) := fun h => hrecord ⟨fields, h⟩
    obtain ⟨diagnostic, ⟨hkind, hplace⟩, hfails⟩ := expectRecord_other hother "field access"
    rw [bind_apply, hfails]
    refine .inr ⟨diagnostic, ?_, hplace, rfl⟩
    rw [hkind]
    unfold Heap.field
    split
    · rename_i hobject
      exact absurd hobject (hother _)
    · rfl

theorem answers_getField {name : String} (hname : T.code.chunk.strings[a]? = some name) (b : Nat) :
    Answers T (object :: stack) w next (w.heap.field object name) (fun result => Stands T next (result :: stack) w)
      (execute .getField a b) := by
  refine answers_intro fun ρ m hmirrors hip => ?_
  obtain ⟨script, other, values, hstack, hrel, hrest⟩ := hmirrors.top
  obtain ⟨config, hheap⟩ := hmirrors.heap
  have hagree : Agree (Value.Related ρ) (w.heap.field object name) (m.heap.field other name) := hheap.field hrel name
  simp only [execute]
  rw [chunk_bind hmirrors, hname, expect_bind]
  rcases getField_cases hstack name with ⟨copy, hfound, hread⟩ | ⟨diagnostic, hfound, hplace, hread⟩
  · obtain ⟨result, hresult, hcopy⟩ := hagree.of_ok hfound
    refine .inl ⟨result, hresult, ?_⟩
    rw [hread]
    exact comesOut_push rfl rfl rfl ⟨hip, ρ, hrest.push hcopy⟩
  · exact .inr ⟨diagnostic, hagree.of_error hfound, hplace, hread⟩

/-- What a machine says about an index outside of an array. -/
def outOfRange (elements : Elements) (i : Int64) : Diagnostic :=
  .plain .indexOutOfRange s!"index {i.toInt} out of range for array of length {elements.values.size}"

theorem checkedIndex_int (elements : Elements) (i : Int64) (m : Machine) :
    checkedIndex elements (.scalar (.int i)) m =
      if 0 ≤ i.toInt ∧ i.toInt < elements.values.size then .ok i.toInt.toNat m
      else .error (.failure (outOfRange elements i)) m := by
  have hrange : (decide (i < 0) || decide ((elements.values.size : Int) ≤ i.toInt)) = true ↔
      ¬ (0 ≤ i.toInt ∧ i.toInt < elements.values.size) := by
    rw [Bool.or_eq_true, decide_eq_true_eq, decide_eq_true_eq, Int64.lt_iff_toInt_lt]
    change i.toInt < 0 ∨ _ ↔ _
    omega
  simp only [checkedIndex, hrange]
  by_cases hinside : 0 ≤ i.toInt ∧ i.toInt < elements.values.size
  · rw [if_neg (not_not.mpr hinside), if_pos hinside]
    rfl
  · rw [if_pos hinside, if_neg hinside]
    rfl

theorem checkedIndex_cases (elements : Elements) (index : Value) (m : Machine) :
    (∃ position, elements.position index = .ok position ∧ position < elements.values.size ∧
      checkedIndex elements index m = .ok position m) ∨
    ∃ diagnostic, elements.position index = .error diagnostic.kind ∧ diagnostic.location = {} ∧
      checkedIndex elements index m = .error (.failure diagnostic) m := by
  have hother (hindex : ∀ i, index ≠ .scalar (.int i)) :
      ∃ diagnostic, elements.position index = .error diagnostic.kind ∧ diagnostic.location = {} ∧
        checkedIndex elements index m = .error (.failure diagnostic) m := by
    refine ⟨typeError s!"array index must be Int, got {m.heap.typeName index}", ?_, rfl, ?_⟩
    · unfold Elements.position
      split
      · exact absurd rfl (hindex _)
      · rfl
    · unfold checkedIndex
      split
      · exact absurd rfl (hindex _)
      · rfl
  by_cases hindex : ∃ i, index = .scalar (.int i)
  · obtain ⟨i, rfl⟩ := hindex
    rw [checkedIndex_int]
    simp only [Elements.position]
    split
    · rename_i hrange
      exact .inl ⟨_, rfl, by omega, rfl⟩
    · exact .inr ⟨outOfRange elements i, rfl, rfl, rfl⟩
  · exact .inr (hother fun i h => hindex ⟨i, h⟩)

theorem getIndex_cases (hstack : m.stack = pile script (index :: value :: values)) :
    (∃ result, m.heap.element value index = .ok result ∧
      getIndex m = push result (m.cut (values.length + 1))) ∨
    ∃ diagnostic, m.heap.element value index = .error diagnostic.kind ∧ diagnostic.location = {} ∧
      getIndex m = .error (.failure diagnostic) m := by
  simp only [getIndex]
  rw [bind_apply, peek_pile 0 hstack rfl]
  dsimp only
  rw [bind_apply, peek_pile 1 hstack rfl]
  dsimp only
  by_cases harray : ∃ elements, m.heap.objectOf? value = some (.array elements)
  · obtain ⟨elements, hobject⟩ := harray
    obtain ⟨ref, href⟩ := ref?_of_objectOf? hobject
    rw [bind_apply, expectArray_eq href hobject]
    simp only [Heap.element, hobject]
    rw [bind_apply]
    rcases checkedIndex_cases elements index m with
      ⟨position, hposition, hsize, hchecked⟩ | ⟨diagnostic, hposition, hplace, hchecked⟩
    · rw [hposition, hchecked]
      refine .inl ⟨elements.values[position], ?_, ?_⟩
      · simp [Except.map, Array.getElem?_eq_getElem hsize]
      · dsimp only
        rw [Array.getElem?_eq_getElem hsize, expect_bind]
        exact replaceTop_pile [index, value] hstack rfl _
    · rw [hposition, hchecked]
      exact .inr ⟨diagnostic, rfl, hplace, rfl⟩
  · have hother (elements : Elements) : m.heap.objectOf? value ≠ some (.array elements) :=
      fun h => harray ⟨elements, h⟩
    obtain ⟨diagnostic, ⟨hkind, hplace⟩, hfails⟩ := expectArray_other hother "indexing"
    rw [bind_apply, hfails]
    refine .inr ⟨diagnostic, ?_, hplace, rfl⟩
    rw [hkind]
    unfold Heap.element
    split
    · rename_i hobject
      exact absurd hobject (hother _)
    · rfl

theorem answers_getIndex (a b : Nat) :
    Answers T (index :: object :: stack) w next (w.heap.element object index)
      (fun result => Stands T next (result :: stack) w) (execute .getIndex a b) := by
  refine answers_intro fun ρ m hmirrors hip => ?_
  obtain ⟨script, place, other, values, hstack, hindex, hrel, hrest⟩ := hmirrors.topTwo
  obtain ⟨config, hheap⟩ := hmirrors.heap
  have hagree : Agree (Value.Related ρ) (w.heap.element object index) (m.heap.element other place) :=
    hheap.element hrel hindex
  simp only [execute]
  rcases getIndex_cases hstack with ⟨copy, hfound, hread⟩ | ⟨diagnostic, hfound, hplace, hread⟩
  · obtain ⟨result, hresult, hcopy⟩ := hagree.of_ok hfound
    refine .inl ⟨result, hresult, ?_⟩
    rw [hread]
    exact comesOut_push rfl rfl rfl ⟨hip, ρ, hrest.push hcopy⟩
  · exact .inr ⟨diagnostic, hagree.of_error hfound, hplace, hread⟩

end Reading

section Writing

theorem withField_eq (heap : Heap) {ref : Ref} {fields : Fields} (href : object.ref? = some ref)
    (hobject : heap.objectOf? object = some (.record fields)) (name : String) (value : Value) :
    heap.withField object name value = .ok (heap.store ref (.record (fields.put name value))) := by
  simp only [Heap.withField, href, hobject]

theorem withField_other {heap : Heap} (hother : ∀ fields, heap.objectOf? object ≠ some (.record fields))
    (name : String) (value : Value) : heap.withField object name value = .error .typeError := by
  unfold Heap.withField
  split
  · rename_i hrecord
    exact absurd hrecord (hother _)
  · rfl

theorem withElement_eq (heap : Heap) {ref : Ref} {elements : Elements} (href : object.ref? = some ref)
    (hobject : heap.objectOf? object = some (.array elements)) (index value : Value) :
    heap.withElement object index value = (elements.position index).map fun position =>
      heap.store ref (.array { elements with values := elements.values.setIfInBounds position value }) := by
  simp only [Heap.withElement, href, hobject]

theorem withElement_other {heap : Heap} (hother : ∀ elements, heap.objectOf? object ≠ some (.array elements))
    (index value : Value) : heap.withElement object index value = .error .typeError := by
  unfold Heap.withElement
  split
  · rename_i harray
    exact absurd harray (hother _)
  · rfl

theorem withConfig_store (heap : Heap) (config : HeapConfig) (ref : Ref) (object : Object) :
    ({ heap with config } : Heap).store ref object = { heap.store ref object with config } := by
  simp only [Heap.store, Heap.recordSize, Heap.update]
  split
  · rfl
  · split <;> rfl

/-- The object that a value refers to was changed on both sides; the operands of the instruction give way to the
value that was stored. -/
theorem comesOut_changed {ref : Ref} {new : Object} {heap : Heap} {config : HeapConfig} {script : Value}
    {values : List Value} {count : Nat} (tops : List Value)
    (hrest : Mirrors T ρ stack w (m.cut (values.length + 1))) (hip : m.ip = next)
    (hstack : m.stack = pile script (tops ++ values)) (hcount : tops.length = count)
    (hrel : Value.Related ρ value other) (hheap : Heap.Corresponds ρ (Heap.store { w.heap with config } ref new) heap) :
    ComesOut none (Stands T next (value :: stack) { w with heap := w.heap.store ref new }) m
      (replaceTop count other { m with heap }) := by
  rw [withConfig_store] at hheap
  rw [replaceTop_pile tops (m := { m with heap }) hstack hcount]
  exact comesOut_push rfl rfl rfl ⟨hip, ρ, (hrest.withHeap (Renaming.le_refl ρ) hheap).push hrel⟩

theorem size_replace (fields : Fields) (name : String) (value : Value) :
    (Object.record (fields.replace name value)).memorySize = (Object.record fields).memorySize := by
  simp [Object.memorySize, Object.blockSize, Object.contentSize, Fields.replace, replaceFirst_names]

theorem size_setIfInBounds (elements : Elements) (position : Nat) (value : Value) :
    (Object.array { elements with values := elements.values.setIfInBounds position value }).memorySize =
      (Object.array elements).memorySize := by
  simp [Object.memorySize, Object.blockSize, Object.contentSize]

/-- A field takes a new value, or the record gets one field more. -/
theorem answers_setField {name : String} (hname : T.code.chunk.strings[a]? = some name) (b : Nat) :
    Answers T (value :: object :: stack) w next (w.heap.withField object name value)
      (fun heap => Stands T next (value :: stack) { w with heap }) (execute .setField a b) := by
  refine answers_intro fun ρ m hmirrors hip => ?_
  obtain ⟨script, copy, other, values, hstack, hcopy, hrel, hrest⟩ := hmirrors.topTwo
  obtain ⟨config, hheap⟩ := hmirrors.heap
  simp only [execute]
  rw [chunk_bind hmirrors, hname, expect_bind]
  simp only [setField]
  rw [bind_apply, peek_pile 0 hstack rfl]
  dsimp only
  rw [bind_apply, peek_pile 1 hstack rfl]
  dsimp only
  rw [bind_apply]
  by_cases hrecord : ∃ fields, m.heap.objectOf? other = some (.record fields)
  · obtain ⟨others, hsecond⟩ := hrecord
    obtain ⟨ref, partner, fields, href, hpartner, hpair, hfirst, hcapacity, hentries⟩ := hheap.record_left hrel hsecond
    have hresult := withField_eq w.heap href hfirst name value
    rw [expectRecord_eq hpartner hsecond]
    dsimp only
    refine .inl ⟨_, hresult, ?_⟩
    have hcontains : fields.contains name = others.contains name := any_name_eq hentries
    unfold Fields.put
    rw [hcontains]
    split
    · rw [bind_apply, modify_apply]
      have hget : m.heap.get? partner = some (.record others) := by
        simpa [Heap.objectOf?, hpartner] using hsecond
      refine comesOut_changed [copy, other] hrest hip hstack rfl hcopy (hheap.store_update hpair ?_ hget ?_)
      · exact .record hcapacity (replaceFirst_related hcopy hentries)
      · exact size_replace others name copy
    · refine comesOut_headroom ?_
      rw [bind_apply, modify_apply]
      refine comesOut_changed [copy, other] hrest hip hstack rfl hcopy (hheap.store_objects hpair ?_)
      refine .record ?_ (List.rel_append hentries (.cons ⟨rfl, hcopy⟩ .nil))
      simp only [Fields.append, Fields.roomForOneMore, hcapacity, hentries.length_eq]
  · have hsecond (fields : Fields) : m.heap.objectOf? other ≠ some (.record fields) := fun h => hrecord ⟨fields, h⟩
    have hfirst (fields : Fields) : w.heap.objectOf? object ≠ some (.record fields) := fun h => by
      obtain ⟨_, _, others, -, -, -, hothers, -⟩ := hheap.swap.record_left hrel.swap h
      exact hsecond others hothers
    obtain ⟨diagnostic, ⟨hkind, hplace⟩, hfails⟩ := expectRecord_other hsecond "field assignment"
    rw [hfails]
    refine .inr ⟨diagnostic, ?_, hplace, rfl⟩
    rw [hkind]
    exact withField_other hfirst name value

/-- An element takes a new value. -/
theorem answers_setIndex (a b : Nat) :
    Answers T (value :: index :: object :: stack) w next (w.heap.withElement object index value)
      (fun heap => Stands T next (value :: stack) { w with heap }) (execute .setIndex a b) := by
  refine answers_intro fun ρ m hmirrors hip => ?_
  obtain ⟨script, tops, values, hstack, htops, -, hrest⟩ := hmirrors.split [value, index, object]
  obtain ⟨copy, place, other, rfl, hcopy, hindex, hrel⟩ : ∃ copy place other, tops = [copy, place, other] ∧
      Value.Related ρ value copy ∧ Value.Related ρ index place ∧ Value.Related ρ object other := by
    cases htops with
    | cons hcopy htops =>
      cases htops with
      | cons hindex htops =>
        cases htops with
        | cons hrel htops =>
          cases htops
          exact ⟨_, _, _, rfl, hcopy, hindex, hrel⟩
  obtain ⟨config, hheap⟩ := hmirrors.heap
  simp only [execute, setIndex]
  rw [bind_apply, peek_pile 0 hstack rfl]
  dsimp only
  rw [bind_apply, peek_pile 1 hstack rfl]
  dsimp only
  rw [bind_apply, peek_pile 2 hstack rfl]
  dsimp only
  rw [bind_apply]
  by_cases harray : ∃ elements, m.heap.objectOf? other = some (.array elements)
  · obtain ⟨others, hsecond⟩ := harray
    obtain ⟨ref, partner, elements, href, hpartner, hpair, hfirst, hcapacity, hvalues⟩ := hheap.array_left hrel hsecond
    have hresult := withElement_eq w.heap href hfirst index value
    have hsize : elements.values.size = others.values.size := by simpa using hvalues.length_eq
    rw [hresult, expectArray_eq hpartner hsecond, Heap.Corresponds.position hsize hindex]
    dsimp only
    rw [bind_apply]
    rcases checkedIndex_cases others place m with
      ⟨position, hposition, -, hchecked⟩ | ⟨diagnostic, hposition, hplace, hchecked⟩
    · rw [hposition, hchecked]
      refine .inl ⟨_, rfl, ?_⟩
      dsimp only
      rw [bind_apply, modify_apply]
      have hget : m.heap.get? partner = some (.array others) := by
        simpa [Heap.objectOf?, hpartner] using hsecond
      refine comesOut_changed [copy, place, other] hrest hip hstack rfl hcopy (hheap.store_update hpair ?_ hget ?_)
      · refine .array hcapacity ?_
        exact rel_setIfInBounds hvalues position hcopy
      · exact size_setIfInBounds others position copy
    · rw [hposition, hchecked]
      exact .inr ⟨diagnostic, rfl, hplace, rfl⟩
  · have hsecond (elements : Elements) : m.heap.objectOf? other ≠ some (.array elements) :=
      fun h => harray ⟨elements, h⟩
    have hfirst (elements : Elements) : w.heap.objectOf? object ≠ some (.array elements) := fun h => by
      obtain ⟨_, _, others, -, -, -, hothers, -⟩ := hheap.swap.array_left hrel.swap h
      exact hsecond others hothers
    obtain ⟨diagnostic, ⟨hkind, hplace⟩, hfails⟩ := expectArray_other hsecond "index assignment"
    rw [hfails]
    refine .inr ⟨diagnostic, ?_, hplace, rfl⟩
    rw [hkind]
    exact withElement_other hfirst index value

end Writing

end Exec

end OwnScript
