import OwnScript.Proofs.Stack.Operations

/-!
The operations that do more than take and give values: those that open and close cells, match values, and
enter and leave calls. What they leave is said by the height of the stack and by the slots that have a cell.
-/

namespace OwnScript

open Stateful

variable {allowed : Option Prototype → Prop}

namespace Heap

variable {heap : Heap}

mutual

/-- A match binds as many values as its matcher says, and they come out of the value that is matched. -/
theorem matchValue_some (hoffers : heap.Offers allowed) (matcher : Matcher) {value : Value} {bound : List Value}
    (hvalue : heap.Admits allowed value) (hmatch : heap.matchValue matcher value = some bound) :
    bound.length = matcher.bindingCount ∧ ∀ found ∈ bound, heap.Admits allowed found := by
  obtain ⟨test, fields⟩ := matcher
  cases test with
  | wildcard =>
    cases hmatch
    exact ⟨rfl, fun _ h => by cases h⟩
  | binding =>
    cases hmatch
    refine ⟨rfl, fun found h => ?_⟩
    obtain rfl := List.mem_singleton.mp h
    exact hvalue
  | literal scalar =>
    rw [matchValue] at hmatch
    split at hmatch
    · cases hmatch
      exact ⟨rfl, fun _ h => by cases h⟩
    · cases hmatch
  | text text =>
    rw [matchValue] at hmatch
    split at hmatch
    · split at hmatch
      · cases hmatch
        exact ⟨rfl, fun _ h => by cases h⟩
      · cases hmatch
    · cases hmatch
  | destructure =>
    rw [matchValue] at hmatch
    split at hmatch
    · rename_i record hrecord
      obtain ⟨ref, -, hget⟩ := Option.bind_eq_some_iff.mp hrecord
      refine matchFields_some hoffers fields (fun name found hfound => ?_) hmatch
      obtain ⟨entry, hentry, rfl⟩ := Option.map_eq_some_iff.mp hfound
      exact hoffers ref _ hget _ (List.mem_map_of_mem (List.mem_of_find?_eq_some hentry))
    · cases hmatch
termination_by structural matcher

theorem matchFields_some (hoffers : heap.Offers allowed) (fields : List (String × Matcher)) {record : Fields}
    {bound : List Value} (hrecord : ∀ name found, record.find? name = some found → heap.Admits allowed found)
    (hmatch : heap.matchFields fields record = some bound) :
    bound.length = Matcher.bindingCounts fields ∧ ∀ found ∈ bound, heap.Admits allowed found := by
  cases fields with
  | nil =>
    cases hmatch
    exact ⟨rfl, fun _ h => by cases h⟩
  | cons field rest =>
    obtain ⟨name, matcher⟩ := field
    rw [matchFields] at hmatch
    split at hmatch
    · cases hmatch
    · rename_i value hvalue
      split at hmatch
      · cases hmatch
      · rename_i first hfirst
        obtain ⟨others, hothers, rfl⟩ := Option.map_eq_some_iff.mp hmatch
        obtain ⟨hcount, hfound⟩ := matchValue_some hoffers matcher (hrecord name value hvalue) hfirst
        obtain ⟨hcounts, hfounds⟩ := matchFields_some hoffers rest hrecord hothers
        refine ⟨by rw [List.length_append, hcount, hcounts]; rfl, fun found h => ?_⟩
        exact (List.mem_append.mp h).elim (hfound found) (hfounds found)
termination_by structural fields

end

end Heap

namespace Machine

variable {start m : Machine}

theorem slotOrNil_admits (hoffers : m.Offers allowed) {slot : Nat} (hpos : 0 < slot) :
    m.heap.Admits allowed (m.slotOrNil slot) := by
  rw [slotOrNil]
  cases hvalue : m.stack[slot]? with
  | none => exact Heap.admits_nil
  | some value => exact hoffers.stack slot value hpos hvalue

/-- The cells of a machine stand for slots of calls. -/
def CellsAbove (m : Machine) : Prop :=
  ∀ entry ∈ m.openCells, 0 < entry.slot

/-- Cells take the values of their slots. -/
theorem Tends.closeCells (htends : Tends allowed start m) (habove : m.CellsAbove) (slot : Nat) :
    Tends allowed start (m.closeCells slot) := by
  have hclose (closing : List OpenCell) (hpos : ∀ entry ∈ closing, 0 < entry.slot) (heap : Heap)
      (hfollows : m.heap.Follows allowed heap) (hoffers : heap.Offers allowed) :
      m.heap.Follows allowed (closing.foldl (fun heap entry =>
        heap.update entry.cell (.upvalue (.closed (m.slotOrNil entry.slot)))) heap) ∧
      (closing.foldl (fun heap entry =>
        heap.update entry.cell (.upvalue (.closed (m.slotOrNil entry.slot)))) heap).Offers allowed := by
    induction closing generalizing heap with
    | nil => exact ⟨hfollows, hoffers⟩
    | cons entry rest ih =>
      have hget := Heap.get?_update heap entry.cell (.upvalue (.closed (m.slotOrNil entry.slot)))
      refine ih (fun other hother => hpos other (List.mem_cons_of_mem _ hother)) _
        (hfollows.trans (Heap.follows_replace rfl hget fun _ _ h => by cases h))
        (hoffers.replace rfl hget (fun _ _ h => by cases h) fun value hvalue => ?_)
      obtain rfl := List.mem_singleton.mp hvalue
      exact (slotOrNil_admits htends.offers (hpos entry (List.mem_cons_self ..))).follows hfollows
  rw [closeCells_eq]
  obtain ⟨hfollows, hoffers⟩ := hclose (m.openCells.takeWhile (fun entry => slot ≤ entry.slot))
    (fun entry hentry => habove entry ((List.takeWhile_prefix _).subset hentry)) m.heap (.refl _) htends.offers.heap
  have hafter := htends.withHeap hfollows hoffers
  exact ⟨⟨hafter.offers.heap, hafter.offers.stack⟩, hafter.follows, hafter.globals⟩

/-- The slots that stay captured when cells are closed. -/
theorem mem_openSlots_closeCells (hopen : OpenCellsSound m.heap m.openCells) {slot other : Nat} :
    other ∈ (m.closeCells slot).openSlots ↔ other ∈ m.openSlots ∧ other < slot := by
  obtain ⟨-, hdrop⟩ := span_descending slot hopen.descending
  rw [closeCells_eq, mem_openSlots, mem_openSlots]
  simp only [hdrop, List.mem_filter, decide_eq_true_eq]
  constructor
  · rintro ⟨entry, ⟨hentry, hlow⟩, rfl⟩
    exact ⟨⟨entry, hentry, rfl⟩, hlow⟩
  · rintro ⟨⟨entry, hentry, rfl⟩, hlow⟩
    exact ⟨entry, ⟨hentry, hlow⟩, rfl⟩

theorem Tends.withStack (htends : Tends allowed start m) {stack : Array Value} {leftovers : Leftovers}
    (hstack : ∀ (i : Nat) value, 0 < i → stack[i]? = some value → m.heap.Admits allowed value) :
    Tends allowed start { m with stack, leftovers } :=
  ⟨⟨htends.offers.heap, hstack⟩, htends.follows, htends.globals⟩

/-- A machine later on with new closures of one function. What was on the stack before does not lead to them. -/
structure Gains (function : Option Prototype) (m after : Machine) : Prop where
  heap : m.heap.Gains function after.heap
  globals : after.globals = m.globals
  stack : ∀ (i : Nat) value, after.stack[i]? = some value →
    m.stack[i]? = some value ∨ after.heap.Admits (· = function) value

theorem Gains.tends {function : Option Prototype} {after : Machine} (hgains : m.Gains function after)
    (hoffers : m.Offers allowed) (hallowed : allowed function) : Tends allowed m after where
  offers :=
    { heap := hgains.heap.offers allowed hoffers.heap
      stack := fun i value hi hvalue => by
        rcases hgains.stack i value hvalue with h | h
        · exact hgains.heap.admits allowed value (hoffers.stack i value hi h)
        · intro ref href
          obtain ⟨hold, hclosure⟩ := h ref href
          refine ⟨hold, fun prototype cells h => ?_⟩
          obtain rfl : prototype = function := hclosure prototype cells h
          exact hallowed }
  follows := ⟨hgains.heap.nextRef, fun ref prototype cells h =>
    (hgains.heap.closures ref prototype cells h).imp_right fun hsame => by
      obtain rfl : prototype = function := hsame
      exact hallowed⟩
  globals slot value h := .inl (hgains.globals ▸ h)

/-- New cells hold no values. -/
theorem Captures.gains {after : Machine} {slots : List Nat} (hcaptures : Captures m slots after)
    (function : Option Prototype) : m.heap.Gains function after.heap := by
  induction hcaptures with
  | done => exact .refl ..
  | shared _ _ ih => exact ih
  | opened _ halike _ _ ih =>
    exact ((Heap.gains_alike halike function).trans (Heap.gains_link rfl fun _ _ h => by cases h)).trans ih

end Machine

namespace Exec

open Machine

variable {start m : Machine}

/-- The innermost variable is closed and dropped. -/
theorem ends_closeUpvalue (hoffers : m.Offers allowed) (habove : m.CellsAbove) (hsize : 1 < m.stack.size)
    (hopen : OpenCellsSound m.heap m.openCells) (a b : Nat) :
    EndsWell (Tends allowed m)
      (fun _ after => after.stack.size = m.stack.size - 1 ∧
        ∀ slot, slot ∈ after.openSlots ↔ slot ∈ m.openSlots ∧ slot < m.stack.size - 1)
      (execute .closeUpvalue a b m) := by
  have hback : m.stack.back? = some m.stack[m.stack.size - 1] := by
    rw [Array.back?_eq_getElem?, Array.getElem?_eq_getElem (by omega)]
  have hempty : m.stack.isEmpty = false := by
    rw [Array.isEmpty_eq_false_iff]
    intro h
    rw [h] at hsize
    cases hsize
  have hclosed := hoffers.tends.closeCells habove (m.stack.size - 1)
  have hpop : execute .closeUpvalue a b m =
      .ok () ((m.closeCells (m.stack.size - 1)).cut (m.stack.size - 1)) := by
    simp only [execute]
    rw [bind_apply, modify_apply, hempty]
    simp only [Bool.false_eq_true, if_false]
    rw [bind_apply, pop_eq, closeCells_eq, hback]
    rfl
  rw [hpop]
  refine ⟨hclosed.withStack (hclosed.offers.shrink _), ?_, fun slot => ?_⟩
  · rw [stack_cut, closeCells_eq, shrink_pred, Array.size_pop]
  · exact mem_openSlots_closeCells hopen

/-- A closure is pushed, which leads to its function. What it captures from the frame has a cell from then on. -/
theorem gains_pushClosure (hsound : m.heap.Sound) {frame : Frame} {outer : Array (Option Ref)}
    (hrunning : Running m frame outer) {prototype : Prototype}
    (hcells : ∀ capture ∈ prototype.captures, capture.isLocal = false → capture.index < outer.size) :
    EndsWell (m.Gains (some prototype))
      (fun _ after => (∃ value, after.stack = m.stack.push value ∧ after.heap.Admits (· = some prototype) value) ∧
        ∀ slot, slot ∈ after.openSlots ↔ slot ∈ m.openSlots ∨ slot ∈ m.closureSlots prototype)
      (pushClosure prototype m) := by
  rw [pushClosure_eq, hrunning.closureSlots, bind_apply]
  have hsame (after : Machine) (hheap : m.heap.Gains (some prototype) after.heap) (hglobals : after.globals = m.globals)
      (hstack : after.stack = m.stack) : m.Gains (some prototype) after :=
    ⟨hheap, hglobals, fun i value h => .inl (hstack ▸ h)⟩
  rcases onHeap_allocate_cases (.unboundClosure (some prototype)) hsound with
    ⟨parked, halike, hresult, -⟩ | ⟨after, hgave, hresult, -⟩
  · rw [hresult]
    dsimp only
    have hlinked : m.heap.Gains (some prototype) (parked.link (.unboundClosure (some prototype))) :=
      (Heap.gains_alike halike _).trans (Heap.gains_link rfl fun _ _ h => by cases h; rfl)
    have hstill : Running { m with heap := parked.link (.unboundClosure (some prototype)) } frame outer := by
      obtain ⟨function, hget⟩ := hrunning.closure
      refine ⟨hrunning.innermost, function, ?_⟩
      change (parked.link _).get? _ = _
      rw [Heap.get?_link, halike.nextRef, if_neg (Nat.ne_of_lt (hsound.bounded _ _ hget)), halike.get?]
      exact hget
    have hsoundLinked : (parked.link (.unboundClosure (some prototype))).Sound :=
      (hsound.of_alike halike).link (by simp [Object.unboundClosure, Object.references])
    rw [hstill.bindClosure, bind_apply]
    have houtcome := @captureAll_outcome { m with heap := parked.link (.unboundClosure (some prototype)) }
      hsoundLinked frame.base outer prototype.captures.toList []
    generalize captureAll frame.base outer prototype.captures.toList []
      { m with heap := parked.link (.unboundClosure (some prototype)) } = result at houtcome ⊢
    cases houtcome with
    | @ok captured cells hcaptures _ =>
      have hfresh : captured.heap.get? m.heap.nextRef = some (.unboundClosure (some prototype)) := by
        refine hcaptures.kept hsoundLinked ?_
        change (parked.link _).get? _ = _
        rw [Heap.get?_link, if_pos halike.nextRef.symm]
      have hbound := (hlinked.trans (hcaptures.gains _)).trans (Heap.gains_rebind hfresh cells.toArray)
      have hstack : captured.stack = m.stack := by rw [hcaptures.rest]
      have hglobals : captured.globals = m.globals := by rw [hcaptures.rest]
      have hvalue : (captured.heap.update m.heap.nextRef (.closure (some prototype) cells.toArray)).Admits
          (· = some prototype) (.ofRef m.heap.nextRef) := by
        intro ref href
        cases href
        refine ⟨(hcaptures.sound hsoundLinked).bounded _ _ hfresh, fun other others h => ?_⟩
        rw [Heap.get?_update, if_pos rfl] at h
        obtain ⟨_, -, h⟩ := Option.map_eq_some_iff.mp h
        cases h
        rfl
      have hslots (slot : Nat) : slot ∈ captured.openSlots ↔ slot ∈ m.openSlots ∨
          slot ∈ capturedSlots frame.base outer.size prototype.captures.toList := hcaptures.mem_openSlots
      change EndsWell _ _ (push (.ofRef m.heap.nextRef)
        { captured with heap := captured.heap.update m.heap.nextRef (.closure (some prototype) cells.toArray) })
      simp only [push]
      rw [get_bind_apply]
      split
      · exact ⟨hsame _ hbound hglobals hstack, by simp [Ordinary, Diagnostic.plain]⟩
      · refine ⟨⟨hbound, hglobals, fun i value hfound => ?_⟩, ⟨_, by rw [← hstack], hvalue⟩, hslots⟩
        rw [Array.getElem?_push] at hfound
        split at hfound
        · cases hfound
          exact .inr hvalue
        · exact .inl (hstack ▸ hfound)
    | @stray captured capture hcaptures hmem hother hrange =>
      have := hcells capture (Array.mem_toList_iff.mp hmem) hother
      omega
    | @full middle after slot captured rest heq hcaptures _ _ hgave =>
      have hcaptured := hlinked.trans (hcaptures.gains (some prototype))
      refine ⟨?_, trivial⟩
      rw [hgave.rest]
      exact hsame _ (hcaptured.trans (Heap.gains_alike hgave.heap _)) (by rw [hcaptures.rest]) (by rw [hcaptures.rest])
  · rw [hresult]
    refine ⟨?_, trivial⟩
    rw [hgave.rest]
    exact hsame _ (Heap.gains_alike hgave.heap _) rfl rfl

/-- A closure of an allowed function is pushed. What it captures from the frame has a cell from then on. -/
theorem ends_pushClosure (hoffers : m.Offers allowed) (hsound : m.heap.Sound) {frame : Frame}
    {outer : Array (Option Ref)} (hrunning : Running m frame outer) {prototype : Prototype}
    (hallowed : allowed (some prototype))
    (hcells : ∀ capture ∈ prototype.captures, capture.isLocal = false → capture.index < outer.size) :
    EndsWell (Tends allowed m)
      (fun _ after => after.stack.size = m.stack.size + 1 ∧
        ∀ slot, slot ∈ after.openSlots ↔ slot ∈ m.openSlots ∨ slot ∈ m.closureSlots prototype)
      (pushClosure prototype m) := by
  refine (gains_pushClosure hsound hrunning hcells).upgrade
    (fun after h => h.tends hoffers hallowed) fun _ after _ _ h => ?_
  obtain ⟨⟨value, hstack, -⟩, hslots⟩ := h
  exact ⟨by rw [hstack, Array.size_push], hslots⟩

/-- The value on top and whether it is true. -/
def TopIs (flag : Bool) (m : Machine) : Prop :=
  ∃ value, m.stack.back? = some value ∧ value.truthy = flag

theorem ends_pushFlag (hupholds : Upholds allowed start m) (flag : Bool) :
    EndsWell (Upholds allowed start)
      (fun _ after => after.stack.size = m.stack.size + 1 ∧ TopIs flag after) (push (.ofBool flag) m) := by
  refine (ends_push hupholds (Heap.admits_ofBool flag)).mono fun _ after _ h => ?_
  subst h
  refine ⟨Array.size_push .., _, Array.back?_push .., ?_⟩
  cases flag <;> rfl

/-- What a match has bound is pushed and true on top of it, or false alone. -/
theorem ends_pushMatch (hupholds : Upholds allowed start m) {bound : Option (List Value)} {count : Nat}
    (hbound : ∀ values, bound = some values → values.length = count ∧ ∀ value ∈ values, m.heap.Admits allowed value) :
    EndsWell (Upholds allowed start)
      (fun _ after => (bound.isSome = true ∧ after.stack.size = m.stack.size + count + 1 ∧ TopIs true after) ∨
        (after.stack.size = m.stack.size + 1 ∧ TopIs false after))
      (pushMatch bound m) := by
  cases bound with
  | none => exact (ends_pushFlag hupholds false).mono fun _ after _ h => .inr h
  | some values =>
    obtain ⟨hcount, hvalues⟩ := hbound values rfl
    refine (ends_pushAll hupholds hvalues).bind fun _ pushed hpushed h => ?_
    refine (ends_pushFlag hpushed true).mono fun _ after _ hflag => .inl ⟨rfl, ?_, hflag.2⟩
    rw [hflag.1, h.2, hcount]

theorem ends_matchValue (hoffers : m.Offers allowed) {frame : Frame} (hframe : m.frames.back? = some frame)
    (hbase : 0 < frame.base) {chunk : Chunk} (hchunk : m.chunk = some chunk) {a b : Nat} {matcher : Matcher}
    (hmatcher : chunk.matchers[a]? = some matcher) (hslot : frame.base + b < m.stack.size) :
    EndsWell (Upholds allowed m)
      (fun _ after => (after.stack.size = m.stack.size + matcher.bindingCount + 1 ∧ TopIs true after) ∨
        (after.stack.size = m.stack.size + 1 ∧ TopIs false after))
      (execute .matchValue a b m) := by
  have hupholds := hoffers.upholds
  refine (ends_chunk hupholds hchunk).look fun got hgot => ?_
  subst hgot
  refine (ends_expect hupholds hmatcher).look fun got hgot => ?_
  subst hgot
  refine (ends_localIndex hupholds hframe hslot).look fun index hindex => ?_
  subst hindex
  refine (ends_readSlot hupholds (by omega) hslot).look fun value hvalue => ?_
  rw [get_bind_apply]
  refine (ends_pushMatch hupholds fun values h => Heap.matchValue_some hoffers.heap got hvalue h).mono
    fun _ after _ h => ?_
  exact h.imp_left fun h => h.2

/-- Matchers read the slots from one on, as many as there are matchers. -/
theorem ends_matchSlots (hupholds : Upholds allowed start m) (matchers : List Matcher) {slot : Nat}
    (hpos : 0 < slot) (hslots : slot + matchers.length ≤ m.stack.size) {bound : List Value}
    (hbound : ∀ value ∈ bound, m.heap.Admits allowed value) :
    EndsWell (Upholds allowed start)
      (fun found after => after = m ∧ ∀ values, found = some values →
        values.length = bound.length + Matcher.bindings matchers ∧ ∀ value ∈ values, m.heap.Admits allowed value)
      (matchSlots matchers slot bound m) := by
  induction matchers generalizing slot bound with
  | nil =>
    refine ⟨hupholds, rfl, fun values h => ?_⟩
    cases h
    exact ⟨rfl, hbound⟩
  | cons matcher rest ih =>
    rw [List.length_cons] at hslots
    have hbindings : Matcher.bindings (matcher :: rest) = matcher.bindingCount + Matcher.bindings rest := rfl
    simp only [matchSlots]
    split
    · rename_i hwildcard
      have hnone : matcher.bindingCount = 0 := by
        obtain ⟨test, fields⟩ := matcher
        cases hwildcard
        rfl
      rw [hbindings, hnone, Nat.zero_add]
      exact ih (Nat.succ_pos _) (by omega) hbound
    · refine (ends_readSlot hupholds hpos (by omega)).look fun value hvalue => ?_
      rw [get_bind_apply]
      cases hmatch : m.heap.matchValue matcher value with
      | none => exact ⟨hupholds, rfl, fun _ h => by cases h⟩
      | some values =>
        obtain ⟨hcount, hvalues⟩ := Heap.matchValue_some hupholds.offers.heap matcher hvalue hmatch
        refine (ih (Nat.succ_pos _) (by omega) fun found h => ?_).mono fun found after _ h => ?_
        · exact (List.mem_append.mp h).elim (hbound found) (hvalues found)
        · refine ⟨h.1, fun values hfound => ?_⟩
          obtain ⟨hlength, hadmits⟩ := h.2 values hfound
          refine ⟨?_, hadmits⟩
          rw [hlength, List.length_append, hcount, hbindings, Nat.add_assoc]

theorem ends_matchArgs (hoffers : m.Offers allowed) {frame : Frame} (hframe : m.frames.back? = some frame)
    (hbase : 0 < frame.base) {chunk : Chunk} (hchunk : m.chunk = some chunk) {a : Nat} {matchers : List Matcher}
    (hmatchers : chunk.clauses[a]? = some matchers) (hslots : frame.base + frame.argumentCount ≤ m.stack.size)
    (b : Nat) :
    EndsWell (Upholds allowed m)
      (fun _ after => (frame.argumentCount = matchers.length ∧
          after.stack.size = m.stack.size + Matcher.bindings matchers + 1 ∧ TopIs true after) ∨
        (after.stack.size = m.stack.size + 1 ∧ TopIs false after))
      (execute .matchArgs a b m) := by
  have hupholds := hoffers.upholds
  refine (ends_chunk hupholds hchunk).look fun got hgot => ?_
  subst hgot
  refine (ends_expect hupholds hmatchers).look fun got hgot => ?_
  subst hgot
  refine (ends_frame hupholds hframe).look fun got hgot => ?_
  subst hgot
  split
  · rename_i hcount
    refine (ends_matchSlots hupholds _ hbase (hcount ▸ hslots) fun _ h => by cases h).look fun found hfound => ?_
    refine (ends_pushMatch hupholds hfound).mono fun _ after _ h => ?_
    refine h.imp_left fun h => ⟨hcount, ?_, h.2.2⟩
    rw [h.2.1, List.length_nil, Nat.zero_add]
  · exact (ends_pushFlag hupholds false).mono fun _ after _ h => .inr h

end Exec

end OwnScript
