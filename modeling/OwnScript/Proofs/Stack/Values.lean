import OwnScript.Proofs.Host.References

/-!
What a program can get at. The values on the stack and inside objects may be restricted to those that lead
to closures of allowed functions only: no operation makes another value out of them. The lowest slot of the
stack is left out. It holds the closure of the script, which no code can name.
-/

namespace OwnScript

open Stateful

/-- The values that an object holds. -/
def Object.contents : Object → List Value
  | .record fields => fields.entries.map (·.2)
  | .array elements => elements.values.toList
  | .upvalue (.closed value) => [value]
  | _ => []

variable {allowed : Option Prototype → Prop}

namespace Heap

variable {heap middle after : Heap} {value : Value}

/-- A value that leads to no closure but one of an allowed function, also later. -/
def Admits (allowed : Option Prototype → Prop) (heap : Heap) (value : Value) : Prop :=
  ∀ ref, value.ref? = some ref → ref < heap.nextRef ∧
    ∀ prototype cells, heap.get? ref = some (.closure prototype cells) → allowed prototype

/-- A heap later on: new closures are those of allowed functions. -/
structure Follows (allowed : Option Prototype → Prop) (heap after : Heap) : Prop where
  nextRef : heap.nextRef ≤ after.nextRef
  closures : ∀ ref prototype cells, after.get? ref = some (.closure prototype cells) →
    heap.get? ref = some (.closure prototype cells) ∨ allowed prototype

/-- The values inside the objects of a heap are admitted. -/
def Offers (allowed : Option Prototype → Prop) (heap : Heap) : Prop :=
  ∀ ref object, heap.get? ref = some object → ∀ value ∈ object.contents, heap.Admits allowed value

theorem admits_scalar (scalar : Scalar) : heap.Admits allowed (.scalar scalar) := by
  intro ref href
  cases href

theorem admits_nil : heap.Admits allowed .nil := admits_scalar .nil

theorem admits_ofBool (flag : Bool) : heap.Admits allowed (.ofBool flag) := admits_scalar (.bool flag)

theorem Follows.refl (heap : Heap) : heap.Follows allowed heap := ⟨le_rfl, fun _ _ _ => .inl⟩

theorem Follows.trans (hfirst : heap.Follows allowed middle) (hsecond : middle.Follows allowed after) :
    heap.Follows allowed after where
  nextRef := hfirst.nextRef.trans hsecond.nextRef
  closures ref prototype cells h :=
    (hsecond.closures ref prototype cells h).elim (hfirst.closures ref prototype cells) .inr

theorem Admits.follows (hadmits : heap.Admits allowed value) (hfollows : heap.Follows allowed after) :
    after.Admits allowed value := by
  intro ref href
  obtain ⟨hold, hclosure⟩ := hadmits ref href
  refine ⟨hold.trans_le hfollows.nextRef, fun prototype cells h => ?_⟩
  exact (hfollows.closures ref prototype cells h).elim (hclosure prototype cells) id

theorem follows_alike (halike : Heap.Alike heap after) : heap.Follows allowed after :=
  ⟨halike.nextRef.ge, fun ref _ _ h => .inl ((halike.get? ref).symm.trans h)⟩

theorem Offers.alike (hoffers : heap.Offers allowed) (halike : Heap.Alike heap after) :
    after.Offers allowed := by
  intro ref object hobject value hvalue
  rw [halike.get?] at hobject
  exact (hoffers ref object hobject value hvalue).follows (follows_alike halike)

/-- A new object. -/
theorem follows_link {object : Object}
    (hallowed : ∀ prototype cells, object = .closure prototype cells → allowed prototype) :
    heap.Follows allowed (heap.link object) := by
  refine ⟨Nat.le_succ _, fun ref prototype cells h => ?_⟩
  rw [get?_link] at h
  split at h
  · exact .inr (hallowed prototype cells (Option.some.inj h))
  · exact .inl h

theorem Offers.link (hoffers : heap.Offers allowed) {object : Object}
    (hallowed : ∀ prototype cells, object = .closure prototype cells → allowed prototype)
    (hcontents : ∀ value ∈ object.contents, heap.Admits allowed value) : (heap.link object).Offers allowed := by
  intro ref found hfound value hvalue
  rw [get?_link] at hfound
  refine Admits.follows ?_ (follows_link hallowed)
  split at hfound
  · cases hfound
    exact hcontents value hvalue
  · exact hoffers ref found hfound value hvalue

/-- Values that are there already do not lead to a new object. -/
theorem Admits.link {value : Value} (hadmits : heap.Admits allowed value) (object : Object) :
    (heap.link object).Admits allowed value := by
  intro ref href
  obtain ⟨hold, hclosure⟩ := hadmits ref href
  refine ⟨hold.trans (Nat.lt_succ_self _), fun prototype cells h => ?_⟩
  rw [get?_link, if_neg (Nat.ne_of_lt hold)] at h
  exact hclosure prototype cells h

/-- A new object that holds no values, be it the closure of whatever function. -/
theorem Offers.link_bare (hoffers : heap.Offers allowed) {object : Object} (hbare : object.contents = []) :
    (heap.link object).Offers allowed := by
  intro ref found hfound value hvalue
  rw [get?_link] at hfound
  split at hfound
  · cases hfound
    rw [hbare] at hvalue
    cases hvalue
  · exact (hoffers ref found hfound value hvalue).link object

/-- An object is replaced by another. -/
theorem follows_replace {target : Ref} {object : Object} (hnext : after.nextRef = heap.nextRef)
    (hget : ∀ ref, after.get? ref =
      if ref = target then (heap.get? ref).map (fun _ => object) else heap.get? ref)
    (hallowed : ∀ prototype cells, object = .closure prototype cells → allowed prototype) :
    heap.Follows allowed after := by
  refine ⟨hnext.ge, fun ref prototype cells h => ?_⟩
  rw [hget] at h
  split at h
  · obtain ⟨_, -, hobject⟩ := Option.map_eq_some_iff.mp h
    exact .inr (hallowed prototype cells hobject)
  · exact .inl h

theorem Offers.replace (hoffers : heap.Offers allowed) {target : Ref} {object : Object}
    (hnext : after.nextRef = heap.nextRef)
    (hget : ∀ ref, after.get? ref =
      if ref = target then (heap.get? ref).map (fun _ => object) else heap.get? ref)
    (hallowed : ∀ prototype cells, object = .closure prototype cells → allowed prototype)
    (hcontents : ∀ value ∈ object.contents, heap.Admits allowed value) : after.Offers allowed := by
  intro ref found hfound value hvalue
  refine Admits.follows ?_ (follows_replace hnext hget hallowed)
  rw [hget] at hfound
  split at hfound
  · obtain ⟨_, -, rfl⟩ := Option.map_eq_some_iff.mp hfound
    exact hcontents value hvalue
  · exact hoffers ref found hfound value hvalue

/-- A heap later on with new closures of one function. Whatever functions are allowed, what was admitted before
still is: it does not lead to the new closures. -/
structure Gains (function : Option Prototype) (heap after : Heap) : Prop extends Follows (· = function) heap after where
  admits : ∀ (allowed : Option Prototype → Prop) value, heap.Admits allowed value → after.Admits allowed value
  offers : ∀ allowed : Option Prototype → Prop, heap.Offers allowed → after.Offers allowed

theorem Gains.refl (function : Option Prototype) (heap : Heap) : heap.Gains function heap :=
  ⟨.refl heap, fun _ _ => id, fun _ => id⟩

theorem Gains.trans {function : Option Prototype} (hfirst : heap.Gains function middle)
    (hsecond : middle.Gains function after) : heap.Gains function after :=
  ⟨hfirst.toFollows.trans hsecond.toFollows, fun allowed value h =>
    hsecond.admits allowed value (hfirst.admits allowed value h),
    fun allowed h => hsecond.offers allowed (hfirst.offers allowed h)⟩

theorem gains_alike (halike : Heap.Alike heap after) (function : Option Prototype) : heap.Gains function after :=
  ⟨follows_alike halike, fun _ _ h => h.follows (follows_alike halike), fun _ h => h.alike halike⟩

/-- A new object without values. -/
theorem gains_link {object : Object} (hbare : object.contents = []) {function : Option Prototype}
    (hclosure : ∀ prototype cells, object = .closure prototype cells → prototype = function) :
    heap.Gains function (heap.link object) :=
  ⟨follows_link hclosure, fun _ _ h => h.link object, fun _ h => h.link_bare hbare⟩

/-- A closure gets its cells. -/
theorem gains_rebind {target : Ref} {function : Option Prototype} {cells : Array (Option Ref)}
    (hclosure : heap.get? target = some (.closure function cells)) (others : Array (Option Ref)) :
    heap.Gains function (heap.update target (.closure function others)) := by
  have hget := get?_update heap target (.closure function others)
  have hadmits (allowed : Option Prototype → Prop) (value : Value) (h : heap.Admits allowed value) :
      (heap.update target (.closure function others)).Admits allowed value := by
    intro ref href
    obtain ⟨hold, hallowed⟩ := h ref href
    refine ⟨hold, fun prototype found hfound => ?_⟩
    rw [hget] at hfound
    split at hfound
    · rename_i hsame
      subst hsame
      rw [hclosure] at hfound
      cases hfound
      exact hallowed function cells hclosure
    · exact hallowed prototype found hfound
  refine ⟨follows_replace rfl hget fun _ _ h => by cases h; rfl, hadmits,
    fun allowed h ref object hobject value hvalue => ?_⟩
  rw [hget] at hobject
  split at hobject
  · obtain ⟨_, -, rfl⟩ := Option.map_eq_some_iff.mp hobject
    cases hvalue
  · exact hadmits allowed value (h ref object hobject value hvalue)

theorem follows_collect (hidle : heap.Idle) (roots : List Value) :
    heap.Follows allowed (heap.collect roots).1 := by
  have hspec := Heap.collect_spec hidle roots
  refine ⟨hspec.nextRef.ge, fun ref prototype cells h => ?_⟩
  by_cases hreach : heap.Reachable roots ref
  · rw [hspec.reached ref hreach] at h
    exact .inl h
  · rw [hspec.lost ref hreach] at h
    cases h

theorem Offers.collect (hoffers : heap.Offers allowed) (hidle : heap.Idle) (roots : List Value) :
    (heap.collect roots).1.Offers allowed := by
  have hspec := Heap.collect_spec hidle roots
  intro ref object hobject value hvalue
  refine Admits.follows ?_ (follows_collect hidle roots)
  by_cases hreach : heap.Reachable roots ref
  · rw [hspec.reached ref hreach] at hobject
    exact hoffers ref object hobject value hvalue
  · rw [hspec.lost ref hreach] at hobject
    cases hobject

end Heap

namespace Machine

/-- The values that the code of a machine can get at on the stack and inside objects are admitted. -/
structure Offers (allowed : Option Prototype → Prop) (m : Machine) : Prop where
  heap : m.heap.Offers allowed
  stack : ∀ (i : Nat) value, 0 < i → m.stack[i]? = some value → m.heap.Admits allowed value

/-- A machine later on: its values are admitted, new closures are those of allowed functions, and new
values of globals are admitted. -/
structure Tends (allowed : Option Prototype → Prop) (start m : Machine) : Prop where
  offers : m.Offers allowed
  follows : start.heap.Follows allowed m.heap
  globals : ∀ (slot : Nat) value, m.globals[slot]? = some (some value) →
    start.globals[slot]? = some (some value) ∨ m.heap.Admits allowed value

/-- A machine during an operation that works with the values of its function alone. -/
structure Upholds (allowed : Option Prototype → Prop) (start m : Machine) : Prop extends Tends allowed start m where
  openCells : m.openCells = start.openCells
  frames : m.frames = start.frames

variable {start m : Machine}

theorem Offers.tends (hoffers : m.Offers allowed) : Tends allowed m m where
  offers := hoffers
  follows := .refl _
  globals _ _ := .inl

theorem Offers.upholds (hoffers : m.Offers allowed) : Upholds allowed m m where
  toTends := hoffers.tends
  openCells := rfl
  frames := rfl

theorem Tends.withHeap (htends : Tends allowed start m) {heap : Heap} (hfollows : m.heap.Follows allowed heap)
    (hoffers : heap.Offers allowed) : Tends allowed start { m with heap } where
  offers := ⟨hoffers, fun i value hi hvalue => (htends.offers.stack i value hi hvalue).follows hfollows⟩
  follows := htends.follows.trans hfollows
  globals slot value h := (htends.globals slot value h).imp_right fun h => h.follows hfollows

/-- A new stack with admitted values, whatever is left above it. -/
theorem Upholds.withStack (hupholds : Upholds allowed start m) {stack : Array Value} {leftovers : Leftovers}
    (hstack : ∀ (i : Nat) value, 0 < i → stack[i]? = some value → m.heap.Admits allowed value) :
    Upholds allowed start { m with stack, leftovers } :=
  { hupholds with offers := ⟨hupholds.offers.heap, hstack⟩ }

theorem Upholds.withHeap (hupholds : Upholds allowed start m) {heap : Heap} (hfollows : m.heap.Follows allowed heap)
    (hoffers : heap.Offers allowed) : Upholds allowed start { m with heap } where
  toTends := hupholds.toTends.withHeap hfollows hoffers
  openCells := hupholds.openCells
  frames := hupholds.frames

theorem Upholds.alike (hupholds : Upholds allowed start m) {heap : Heap} (halike : Heap.Alike m.heap heap) :
    Upholds allowed start { m with heap } :=
  hupholds.withHeap (Heap.follows_alike halike) (hupholds.offers.heap.alike halike)

theorem Upholds.gaveUp (hupholds : Upholds allowed start m) {after : Machine} (hgave : m.GaveUp after) :
    Upholds allowed start after := by
  rw [hgave.rest]
  exact hupholds.alike hgave.heap

/-- The values on the stack below a height. -/
theorem Offers.shrink (hoffers : m.Offers allowed) (height : Nat) :
    ∀ i value, 0 < i → (m.stack.shrink height)[i]? = some value → m.heap.Admits allowed value := by
  intro i value hi hvalue
  refine hoffers.stack i value hi ?_
  obtain ⟨hlt, hvalue⟩ := Array.getElem?_eq_some_iff.mp hvalue
  rw [Array.getElem_shrink] at hvalue
  rw [Array.size_shrink] at hlt
  rw [Array.getElem?_eq_getElem (by omega), hvalue]

end Machine

namespace Exec

open Machine

variable {α β : Type} {start m : Machine} {good : Machine → Prop}

/-- The faults that a program of good shape may run into. -/
def Ordinary : Fault → Prop
  | .failure diagnostic => diagnostic.kind ≠ .malformedBytecode
  | .exhausted _ => True
  | .stray | .outOfFuel => False

/-- A step does what is wanted or runs into an ordinary fault; the machine is a good one either way. -/
def EndsWell (good : Machine → Prop) (post : α → Machine → Prop) : EStateM.Result Fault Machine α → Prop
  | .ok value after => good after ∧ post value after
  | .error fault after => good after ∧ Ordinary fault

theorem EndsWell.bind {x : Exec α} {f : α → Exec β} {middle : α → Machine → Prop} {post : β → Machine → Prop}
    (hfirst : EndsWell good middle (x m))
    (hnext : ∀ value after, good after → middle value after → EndsWell good post (f value after)) :
    EndsWell good post ((x >>= f) m) := by
  rw [bind_apply]
  generalize x m = result at hfirst ⊢
  cases result with
  | ok value after => exact hnext value after hfirst.1 hfirst.2
  | error fault after => exact hfirst

/-- A look at the machine, after which it is the same. -/
theorem EndsWell.look {x : Exec α} {f : α → Exec β} {middle : α → Prop} {post : β → Machine → Prop}
    (hfirst : EndsWell good (fun value after => after = m ∧ middle value) (x m))
    (hnext : ∀ value, middle value → EndsWell good post (f value m)) :
    EndsWell good post ((x >>= f) m) := by
  refine hfirst.bind fun value after _ h => ?_
  obtain ⟨rfl, hmiddle⟩ := h
  exact hnext value hmiddle

theorem EndsWell.mono {post wider : α → Machine → Prop} {result : EStateM.Result Fault Machine α}
    (hends : EndsWell good post result) (hwider : ∀ value after, good after → post value after → wider value after) :
    EndsWell good wider result := by
  cases result with
  | ok value after => exact ⟨hends.1, hwider value after hends.1 hends.2⟩
  | error fault after => exact hends

/-- A step that is known to end well. -/
theorem EndsWell.upgrade {post wider : α → Machine → Prop} {result : EStateM.Result Fault Machine α}
    (hends : EndsWell good post result) {better : Machine → Prop}
    (hbetter : ∀ after, good after → better after)
    (hwider : ∀ value after, result = .ok value after → good after → post value after → wider value after) :
    EndsWell better wider result := by
  cases result with
  | ok value after => exact ⟨hbetter after hends.1, hwider value after rfl hends.1 hends.2⟩
  | error fault after => exact ⟨hbetter after hends.1, hends.2⟩

theorem ends_fail {diagnostic : Diagnostic} (hgood : good m) (hkind : diagnostic.kind ≠ .malformedBytecode)
    {post : α → Machine → Prop} : EndsWell good post ((fail diagnostic : Exec α) m) :=
  ⟨hgood, hkind⟩

theorem ends_expect {found : Option α} {value : α} (hgood : good m) (hfound : found = some value) :
    EndsWell good (fun got after => after = m ∧ got = value) (expect found m) := by
  subst hfound
  exact ⟨hgood, rfl, rfl⟩

/-- The result of an operator, whose complaints are never about the code. -/
theorem ends_ofExcept {result : Except Diagnostic α} (hgood : good m)
    (hkind : ∀ diagnostic, result = .error diagnostic → diagnostic.kind ≠ .malformedBytecode) :
    EndsWell good (fun got after => after = m ∧ result = .ok got) (ofExcept result m) := by
  cases result with
  | ok value => exact ⟨hgood, rfl, rfl⟩
  | error diagnostic => exact ⟨hgood, hkind diagnostic rfl⟩

theorem ends_frame {frame : Frame} (hgood : good m) (hframe : m.frames.back? = some frame) :
    EndsWell good (fun got after => after = m ∧ got = frame) (Exec.frame m) :=
  ends_expect hgood hframe

theorem ends_chunk {chunk : Chunk} (hgood : good m) (hchunk : m.chunk = some chunk) :
    EndsWell good (fun got after => after = m ∧ got = chunk) (Exec.chunk m) :=
  ends_expect hgood hchunk

theorem ends_push (hupholds : Upholds allowed start m) {value : Value} (hvalue : m.heap.Admits allowed value) :
    EndsWell (Upholds allowed start) (fun _ after => after = { m with stack := m.stack.push value })
      (push value m) := by
  simp only [push]
  rw [get_bind_apply]
  split
  · exact ends_fail hupholds (by decide)
  · refine ⟨hupholds.withStack fun i found hi hfound => ?_, rfl⟩
    rw [Array.getElem?_push] at hfound
    split at hfound
    · cases hfound
      exact hvalue
    · exact hupholds.offers.stack i found hi hfound

theorem ends_pushAll (hupholds : Upholds allowed start m) {values : List Value}
    (hvalues : ∀ value ∈ values, m.heap.Admits allowed value) :
    EndsWell (Upholds allowed start)
      (fun _ after => after = { m with stack := after.stack } ∧ after.stack.size = m.stack.size + values.length)
      (pushAll values m) := by
  induction values generalizing m with
  | nil => exact ⟨hupholds, rfl, rfl⟩
  | cons value rest ih =>
    refine (ends_push hupholds (hvalues value (List.mem_cons_self ..))).bind fun _ after hafter h => ?_
    subst h
    refine (ih hafter fun other hother => hvalues other (List.mem_cons_of_mem _ hother)).mono ?_
    intro _ after _ h
    refine ⟨h.1, ?_⟩
    rw [h.2, Array.size_push, List.length_cons]
    omega

theorem ends_peek (hupholds : Upholds allowed start m) {distance : Nat} (hdistance : distance + 1 < m.stack.size) :
    EndsWell (Upholds allowed start) (fun value after => after = m ∧ m.heap.Admits allowed value)
      (peek distance m) := by
  have hin : m.stack.size - 1 - distance < m.stack.size := by omega
  rw [peek_eq, Array.getElem?_eq_getElem hin]
  dsimp only
  rw [if_pos (by omega)]
  exact ⟨hupholds, rfl, hupholds.offers.stack _ _ (by omega) (Array.getElem?_eq_getElem hin)⟩

theorem ends_pop (hupholds : Upholds allowed start m) (hsize : 1 < m.stack.size) :
    EndsWell (Upholds allowed start)
      (fun value after => after = m.cut (m.stack.size - 1) ∧ m.heap.Admits allowed value) (pop m) := by
  have hin : m.stack.size - 1 < m.stack.size := by omega
  have hback : m.stack.back? = some m.stack[m.stack.size - 1] := by
    rw [Array.back?_eq_getElem?, Array.getElem?_eq_getElem hin]
  rw [pop_eq, hback]
  refine ⟨hupholds.withStack (hupholds.offers.shrink _), rfl, ?_⟩
  exact hupholds.offers.stack _ _ (by omega) (Array.getElem?_eq_getElem hin)

theorem ends_replaceTop (hupholds : Upholds allowed start m) {count : Nat} (hcount : count ≤ m.stack.size)
    {value : Value} (hvalue : m.heap.Admits allowed value) :
    EndsWell (Upholds allowed start)
      (fun _ after => after = { m with stack := after.stack, leftovers := after.leftovers } ∧
        after.stack.size = m.stack.size - count + 1) (replaceTop count value m) := by
  have hshrunk : Upholds allowed start (m.cut (m.stack.size - count)) :=
    hupholds.withStack (hupholds.offers.shrink _)
  refine (ends_push hshrunk hvalue).mono fun _ after _ h => ?_
  subst h
  refine ⟨rfl, ?_⟩
  rw [Array.size_push, stack_cut, Array.size_shrink]
  omega

theorem ends_readSlot (hupholds : Upholds allowed start m) {slot : Nat} (hpos : 0 < slot)
    (hslot : slot < m.stack.size) :
    EndsWell (Upholds allowed start) (fun value after => after = m ∧ m.heap.Admits allowed value)
      (readSlot slot m) := by
  refine (ends_expect hupholds (slot?_of_lt hslot)).mono fun value after _ h => ?_
  obtain ⟨rfl, rfl⟩ := h
  exact ⟨rfl, hupholds.offers.stack slot _ hpos (Array.getElem?_eq_getElem hslot)⟩

theorem ends_writeSlot (hupholds : Upholds allowed start m) {slot : Nat} (hslot : slot < m.stack.size) {value : Value}
    (hvalue : m.heap.Admits allowed value) :
    EndsWell (Upholds allowed start) (fun _ after => after.stack.size = m.stack.size) (writeSlot slot value m) := by
  simp only [writeSlot]
  rw [get_bind_apply, if_pos hslot]
  refine ⟨hupholds.withStack fun i found hi hfound => ?_, by simp⟩
  rw [Array.getElem?_setIfInBounds] at hfound
  split at hfound
  · cases hfound
    exact hvalue
  · exact hupholds.offers.stack i found hi hfound

theorem ends_localIndex (hupholds : Upholds allowed start m) {frame : Frame} (hframe : m.frames.back? = some frame)
    {slot : Nat} (hslot : frame.base + slot < m.stack.size) :
    EndsWell (Upholds allowed start) (fun index after => after = m ∧ index = frame.base + slot)
      (localIndex slot m) := by
  refine (ends_frame hupholds hframe).look fun got hgot => ?_
  subst hgot
  rw [get_bind_apply, if_pos hslot]
  exact ⟨hupholds, rfl, rfl⟩

theorem ends_topValues (hupholds : Upholds allowed start m) {count : Nat} (hcount : count < m.stack.size) :
    EndsWell (Upholds allowed start)
      (fun values after => after = m ∧ ∀ value ∈ values, m.heap.Admits allowed value) (topValues count m) := by
  simp only [topValues]
  rw [get_bind_apply, if_neg (by omega)]
  refine ⟨hupholds, rfl, fun value hvalue => ?_⟩
  obtain ⟨i, hi, hfound⟩ := Array.getElem_of_mem hvalue
  rw [Array.getElem_extract] at hfound
  rw [Array.size_extract] at hi
  refine hupholds.offers.stack (m.stack.size - count + i) value (by omega) ?_
  rw [Array.getElem?_eq_getElem (by omega), hfound]

/-- A new object that is no closure and holds admitted values. -/
theorem ends_allocate (hupholds : Upholds allowed start m) (hsound : m.heap.Sound) {object : Object}
    (hclosure : ∀ prototype cells, object = .closure prototype cells → allowed prototype)
    (hcontents : ∀ value ∈ object.contents, m.heap.Admits allowed value) :
    EndsWell (Upholds allowed start)
      (fun ref after => after = { m with heap := after.heap } ∧ m.heap.Follows allowed after.heap ∧
        ref < after.heap.nextRef ∧ after.heap.get? ref = some object)
      (onHeap (Heap.allocate object) m) := by
  rcases onHeap_allocate_cases object hsound with ⟨parked, halike, hresult, -⟩ | ⟨after, hgave, hresult, -⟩
  · rw [hresult]
    have hfollows : m.heap.Follows allowed (parked.link object) :=
      (Heap.follows_alike halike).trans (Heap.follows_link hclosure)
    refine ⟨hupholds.withHeap hfollows ((hupholds.offers.heap.alike halike).link hclosure ?_), rfl, hfollows, ?_, ?_⟩
    · exact fun value hvalue => (hcontents value hvalue).follows (Heap.follows_alike halike)
    · rw [Heap.nextRef_link, halike.nextRef]
      exact Nat.lt_succ_self _
    · rw [Heap.get?_link, if_pos halike.nextRef.symm]
  · rw [hresult]
    exact ⟨hupholds.gaveUp hgave, trivial⟩

theorem ends_ensureHeadroom (hupholds : Upholds allowed start m) (bytes : UInt64) :
    EndsWell (Upholds allowed start) (fun _ after => after = m) (onHeap (Heap.ensureHeadroom bytes) m) := by
  rcases onHeap_ensureHeadroom_cases bytes m with ⟨hresult, -⟩ | ⟨hresult, -⟩
  · rw [hresult]
    exact ⟨hupholds, rfl⟩
  · rw [hresult]
    exact ⟨hupholds, trivial⟩

end Exec

end OwnScript
