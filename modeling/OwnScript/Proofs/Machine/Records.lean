import OwnScript.Proofs.Machine.Accounts
import OwnScript.Proofs.Machine.Fields

/-!
What instructions do to records. A literal builds one and leaves it on the stack, an assignment stores a value in one,
and every other instruction leaves all of them as they are. An instruction that finds the heap full does nothing to
them either.
-/

namespace OwnScript

open Stateful

namespace Machine

variable {asked : Nat → Prop} {m middle after : Machine}

/-- The records of a machine stay what they are, and there are no others. -/
structure Spares (m after : Machine) : Prop where
  orderly : m.Orderly → after.Orderly
  records : m.Orderly → ∀ ref fields,
    after.heap.get? ref = some (.record fields) ↔ m.heap.get? ref = some (.record fields)

theorem Spares.refl (m : Machine) : Spares m m :=
  ⟨id, fun _ _ _ => .rfl⟩

theorem Spares.trans (hfirst : Spares m middle) (hsecond : Spares middle after) : Spares m after :=
  ⟨fun h => hsecond.orderly (hfirst.orderly h), fun h ref fields =>
    (hsecond.records (hfirst.orderly h) ref fields).trans (hfirst.records h ref fields)⟩

/-- Nothing but the heap and the open cells matters. -/
theorem Spares.of_eq (hheap : after.heap = m.heap) (hcells : after.openCells = m.openCells) : Spares m after :=
  ⟨fun h => h.of_eq hheap hcells, fun _ ref fields => by rw [hheap]⟩

/-- Changes that leave the heap alone. -/
theorem Spares.of_heap (hchanges : Changes (fun _ => True) m after) (hheap : after.heap = m.heap) : Spares m after :=
  ⟨fun h => (hchanges.tended h).orderly, fun _ ref fields => by rw [hheap]⟩

/-- A change where no record is before or after. -/
theorem Spares.of_other (hchange : Change (fun _ => True) m after) (hother : m.Orderly → ∀ ref,
    after.heap.get? ref = m.heap.get? ref ∨ ∀ fields, m.heap.get? ref ≠ some (.record fields) ∧
      after.heap.get? ref ≠ some (.record fields)) : Spares m after where
  orderly h := (hchange.tended h).orderly
  records h ref fields := by
    rcases hother h ref with hsame | hnone
    · rw [hsame]
    · exact ⟨fun hafter => absurd hafter (hnone fields).2, fun hbefore => absurd hbefore (hnone fields).1⟩

/-- An object that is no record gives way to another. -/
theorem spares_edited {target : Ref} {old new : Object} (hold : m.heap.get? target = some old)
    (hedited : old.Edited new) (hkind : ∀ fields, old ≠ .record fields) :
    Spares m { m with heap := m.heap.update target new } := by
  have hnew (fields : Fields) : new ≠ .record fields := by
    rintro rfl
    cases hedited
    exact hkind _ rfl
  refine .of_other (.edited hold hedited) fun _ ref => ?_
  by_cases htarget : ref = target
  · subst htarget
    refine .inr fun fields => ⟨fun hbefore => ?_, fun hafter => ?_⟩
    · exact hkind fields (Option.some.inj (hold.symm.trans hbefore))
    · rw [Heap.get?_update, if_pos rfl, hold] at hafter
      exact hnew fields (Option.some.inj hafter)
  · exact .inl (Heap.get?_update_of_ne htarget)

/-- A new object that is no record comes beside those that are there. -/
theorem spares_linked {object : Object} (hkind : ∀ fields, object ≠ .record fields) :
    Spares m { m with heap := m.heap.link object } where
  orderly h := h.link object
  records h ref fields := by
    rw [Heap.get?_link]
    split
    · rename_i hnew
      rw [hnew, h.heap.bounded.get?_nextRef]
      simp [hkind fields]
    · exact .rfl

theorem spares_parked {parked : Heap} (halike : Heap.Alike m.heap parked) : Spares m { m with heap := parked } :=
  .of_other (.parked halike) fun _ ref => .inl (halike.get? ref)

theorem spares_closeCells (slot : Nat) : Spares m (m.closeCells slot) := by
  refine .of_other (.closed slot) fun h ref => ?_
  rw [closeCells_eq]
  by_cases hlisted : ∃ entry ∈ m.openCells.takeWhile (fun entry => slot ≤ entry.slot), entry.cell = ref
  · obtain ⟨entry, hentry, rfl⟩ := hlisted
    obtain ⟨state, hstate⟩ := h.cells entry ((List.takeWhile_prefix _).subset hentry)
    obtain ⟨held, hheld⟩ := get?_foldl_close_mem m.slotOrNil ⟨entry, hentry, rfl⟩ (Heap.mem_refs.mpr ⟨_, hstate⟩)
    exact .inr fun fields => ⟨by simp [hstate], by simp [hheld]⟩
  · exact .inl (get?_foldl_close fun entry hentry hsame => hlisted ⟨entry, hentry, hsame.symm⟩)

theorem spares_left (frame : Frame) : Spares m (Exec.left m frame) := by
  have hpopped : Spares m { m with frames := m.frames.pop } := .of_eq rfl rfl
  exact (hpopped.trans (spares_closeCells frame.base)).trans (.of_eq rfl rfl)

end Machine

namespace Exec

open Machine

variable {α β : Type} {m : Machine} {x : Exec α} {f : α → Exec β}

theorem spares_bind (hfirst : Spares m (stateAfter (x m)))
    (hnext : ∀ a middle, x m = .ok a middle → Spares middle (stateAfter (f a middle))) :
    Spares m (stateAfter ((x >>= f) m)) := by
  rw [stateAfter_bind]
  cases hresult : x m with
  | ok a middle =>
    rw [hresult] at hfirst
    exact hfirst.trans (hnext a middle hresult)
  | error fault after =>
    rw [hresult] at hfirst
    exact hfirst

theorem Looks.bind_spares (hlooks : Looks x) (hnext : ∀ a, x m = .ok a m → Spares m (stateAfter (f a m))) :
    Spares m (stateAfter ((x >>= f) m)) := by
  have hsame := hlooks m
  refine spares_bind (by rw [hsame]; exact .refl m) fun a middle hresult => ?_
  rw [hresult] at hsame
  obtain rfl : middle = m := hsame
  exact hnext a hresult

theorem spares_push (value : Value) : Spares m (stateAfter (push value m)) :=
  .of_heap (changes_push value) (keepsHeap_push value m).heap

theorem spares_pushAll (values : List Value) : Spares m (stateAfter (pushAll values m)) := by
  induction values generalizing m with
  | nil => exact .refl m
  | cons value rest ih => exact spares_bind (spares_push value) fun _ _ _ => ih

theorem spares_pop : Spares m (stateAfter (pop m)) := by
  refine .of_heap changes_pop ?_
  rw [pop_eq]
  cases m.stack.back? <;> rfl

theorem spares_replaceTop (count : Nat) (value : Value) : Spares m (stateAfter (replaceTop count value m)) :=
  .of_heap (changes_replaceTop count value) (keepsHeap_replaceTop count value m).heap

theorem spares_writeSlot (slot : Nat) (value : Value) : Spares m (stateAfter (writeSlot slot value m)) := by
  refine .of_heap (changes_writeSlot slot value) ?_
  simp only [writeSlot]
  rw [get_bind_apply]
  split
  · rfl
  · split <;> rfl

theorem spares_setGlobal (slot : Nat) (value : Value) : Spares m (stateAfter (setGlobal slot value m)) :=
  .of_heap (changes_setGlobal slot value) rfl

theorem spares_writeUpvalue (index : Nat) (value : Value) : Spares m (stateAfter (writeUpvalue index value m)) := by
  refine (looks_upvalueCell index).bind_spares fun entry hentry => ?_
  obtain ⟨cell, state⟩ := entry
  have hget := upvalueCell_get? hentry
  cases state with
  | opened slot => exact spares_writeSlot slot value
  | closed held => exact spares_edited hget (.cell held value) nofun

theorem spares_allocate {object : Object} (hkind : ∀ fields, object ≠ .record fields) :
    Spares m (stateAfter (onHeap (Heap.allocate object) m)) := by
  obtain ⟨parked, halike, ⟨fault, hresult⟩ | ⟨-, hresult⟩⟩ := onHeap_allocate_parks object m
  · rw [hresult]
    exact spares_parked halike
  · rw [hresult]
    exact (spares_parked halike).trans (spares_linked hkind)

theorem spares_captureCell {slot : Nat} (hreach : m.InReach slot) : Spares m (stateAfter (captureCell slot m)) := by
  have hchanges : Changes (fun _ => True) m (stateAfter (captureCell slot m)) := changes_captureCell hreach
  refine ⟨fun h => (hchanges.tended h).orderly, fun h ref fields => ?_⟩
  simp only [captureCell]
  rw [get_bind_apply]
  cases m.openCells.find? (fun entry => entry.slot == slot) with
  | some entry => exact .rfl
  | none =>
    dsimp only
    rw [stateAfter_bind]
    have hallocated : Spares m (stateAfter (onHeap (Heap.allocate (.upvalue (.opened slot))) m)) :=
      spares_allocate fun _ h => Object.noConfusion h
    cases hresult : onHeap (Heap.allocate (.upvalue (.opened slot))) m with
    | error fault after =>
      rw [hresult] at hallocated
      exact hallocated.records h ref fields
    | ok cell linked =>
      rw [hresult] at hallocated
      exact hallocated.records h ref fields

theorem spares_captureAll {base : Nat} (hreach : m.InReach base) (outer : Array (Option Ref)) (captures : List Capture)
    (cells : List (Option Ref)) : Spares m (stateAfter (captureAll base outer captures cells m)) := by
  induction captures generalizing m cells with
  | nil => exact .refl m
  | cons capture rest ih =>
    simp only [captureAll]
    split
    · obtain ⟨frame, hframe, hbase⟩ := hreach
      have hcell : Spares m (stateAfter (captureCell (base + capture.index) m)) :=
        spares_captureCell ⟨frame, hframe, by omega⟩
      have hsteady : Steady (fun _ _ => True) m (stateAfter (captureCell (base + capture.index) m)) :=
        steady_captureCell _
      rw [stateAfter_bind, map_apply]
      generalize captureCell (base + capture.index) m = result at hcell hsteady ⊢
      cases result with
      | ok cell middle => exact hcell.trans (ih ⟨frame, hsteady.frames ▸ hframe, hbase⟩ _)
      | error => exact hcell
    · exact (looks_expect _).bind_spares fun _ _ => ih hreach _

theorem spares_pushClosure (prototype : Prototype) : Spares m (stateAfter (pushClosure prototype m)) := by
  refine ⟨fun h => ?_, fun h ref fields => ?_⟩
  · have hchanges : Changes (fun _ => True) m (stateAfter (pushClosure prototype m)) :=
      changes_pushClosure h.intact prototype
    exact (hchanges.tended h).orderly
  rw [pushClosure_eq, stateAfter_bind]
  have hallocated : Spares m (stateAfter (onHeap (Heap.allocate (.unboundClosure (some prototype))) m)) :=
    spares_allocate nofun
  cases hresult : onHeap (Heap.allocate (.unboundClosure (some prototype))) m with
  | error fault after =>
    rw [hresult] at hallocated
    exact hallocated.records h ref fields
  | ok closure linked =>
    rw [hresult] at hallocated
    have hbefore := hallocated.records h ref fields
    dsimp only
    by_cases hrunning : ∃ frame outer, Running linked frame outer
    · obtain ⟨frame, outer, hrunning⟩ := hrunning
      rw [hrunning.bindClosure, stateAfter_bind]
      have hcaptured := (spares_captureAll (m := linked) ⟨frame, hrunning.innermost, le_rfl⟩ outer
        prototype.captures.toList []).records (hallocated.orderly h) ref fields
      cases hcells : captureAll frame.base outer prototype.captures.toList [] linked with
      | error fault after =>
        rw [hcells] at hcaptured
        exact hcaptured.trans hbefore
      | ok cells middle =>
        rw [hcells] at hcaptured
        have hpushed := (keepsHeap_push (.ofRef closure) { middle with
          heap := middle.heap.update closure (.closure (some prototype) cells.toArray) }).heap
        refine (Eq.congr_left (congrArg (fun heap => heap.get? ref) hpushed)).trans ?_
        by_cases hnew : ref = closure
        · -- What was entered for the closure is no record, neither before nor after its cells are known.
          have hnone : ∀ fields, m.heap.get? ref ≠ some (.record fields) := by
            rw [hnew, (get?_of_allocate hresult).1, h.heap.bounded.get?_nextRef]
            exact nofun
          dsimp only
          rw [Heap.get?_update, if_pos hnew]
          refine ⟨fun hafter => ?_, fun hget => absurd hget (hnone fields)⟩
          cases hmiddle : middle.heap.get? ref with
          | none =>
            rw [hmiddle] at hafter
            cases hafter
          | some object =>
            rw [hmiddle] at hafter
            cases hafter
        · exact (Eq.congr_left (Heap.get?_update_of_ne hnew)).trans (hcaptured.trans hbefore)
    · rw [(bindClosure_of_not_running (fun frame outer h => hrunning ⟨frame, outer, h⟩) prototype closure).2]
      exact hbefore

/-- A container is built beside the objects that are there, or only blocks are moved. -/
theorem build_cases (bytes : UInt64) (empty object : Object) (count : Nat) (m : Machine) :
    (∃ parked, Heap.Alike m.heap parked ∧ ¬ Full (build bytes empty object count m) ∧
      (stateAfter (build bytes empty object count m)).heap = (parked.link empty).store m.heap.nextRef object) ∨
    ∃ parked, Heap.Alike m.heap parked ∧ (stateAfter (build bytes empty object count m)).heap = parked := by
  simp only [build]
  rw [bind_apply]
  rcases onHeap_ensureHeadroom_cases bytes m with ⟨hresult, -⟩ | ⟨hresult, -⟩
  · rw [hresult]
    dsimp only
    rw [bind_apply]
    obtain ⟨parked, halike, ⟨fault, hlinked⟩ | ⟨-, hlinked⟩⟩ := onHeap_allocate_parks empty m
    · rw [hlinked]
      exact .inr ⟨parked, halike, rfl⟩
    · rw [hlinked, halike.nextRef]
      have hkept := keepsHeap_replaceTop count (.ofRef m.heap.nextRef)
        { m with heap := (parked.link empty).store m.heap.nextRef object }
      exact .inl ⟨parked, halike, hkept.notFull, hkept.heap⟩
  · rw [hresult]
    exact .inr ⟨m.heap, .refl _, rfl⟩

/-- A new container that is no record comes beside the objects that are there. -/
theorem spares_buildArray (count : Nat) (values : Array Value) :
    Spares m (stateAfter (build (64 + values.size * elementBytes).toUInt64 (.array {}) (.array (.exactly values))
      count m)) := by
  have hchanges : Changes (fun _ => True) m (stateAfter (build (64 + values.size * elementBytes).toUInt64 (.array {})
      (.array (.exactly values)) count m)) := changes_build (.array values) trivial count
  refine ⟨fun h => (hchanges.tended h).orderly, fun h ref fields => ?_⟩
  rcases build_cases (64 + values.size * elementBytes).toUInt64 (.array {}) (.array (.exactly values)) count m with
    ⟨parked, halike, -, hheap⟩ | ⟨parked, halike, hheap⟩
  · rw [hheap, Heap.get?_store, Heap.get?_link]
    by_cases hnew : ref = m.heap.nextRef
    · rw [hnew, h.heap.bounded.get?_nextRef, if_pos rfl, if_pos halike.nextRef.symm]
      exact ⟨nofun, nofun⟩
    · rw [if_neg hnew, if_neg (by rwa [halike.nextRef]), halike.get?]
  · rw [hheap, halike.get?]

theorem spares_callValue (callee : Value) (argumentCount : Nat) :
    Spares m (stateAfter (callValue callee argumentCount m)) := by
  rcases stateAfter_callValue callee argumentCount m with ⟨_, _, _, -, hentered⟩ | hrefused
  · rw [hentered]
    exact .of_eq rfl rfl
  · rw [hrefused]
    exact .refl m

theorem spares_returnFromFrame (result : Value) : Spares m (stateAfter (returnFromFrame result m)) := by
  rw [returnFromFrame_eq]
  cases m.frames.back? with
  | none => exact .refl m
  | some frame =>
    dsimp only
    cases frame.caller with
    | none => exact (spares_left frame).trans (.of_eq rfl rfl)
    | some chunk =>
      have hback : Spares m { left m frame with chunk := some chunk, ip := frame.returnTo } :=
        (spares_left frame).trans (.of_eq rfl rfl)
      exact hback.trans (spares_push result)

theorem spares_binary (operator : Heap → Value → Value → Except Diagnostic Value) :
    Spares m (stateAfter (binary operator m)) :=
  (looks_peek 0).bind_spares fun _ _ => (looks_peek 1).bind_spares fun _ _ => looks_get.bind_spares fun _ _ =>
    (looks_ofExcept _).bind_spares fun _ _ => spares_replaceTop 2 _

theorem spares_unary (operator : Heap → Value → Except Diagnostic Value) :
    Spares m (stateAfter (unary operator m)) :=
  (looks_peek 0).bind_spares fun _ _ => looks_get.bind_spares fun _ _ =>
    (looks_ofExcept _).bind_spares fun _ _ => spares_replaceTop 1 _

theorem spares_equality (negated : Bool) : Spares m (stateAfter (equality negated m)) :=
  spares_bind spares_pop fun _ _ _ => spares_bind spares_pop fun _ _ _ =>
    looks_get.bind_spares fun _ _ => spares_push _

theorem spares_getField (name : String) : Spares m (stateAfter (getField name m)) := by
  refine (looks_peek 0).bind_spares fun value _ => ?_
  rw [stateAfter_bind]
  rcases expectRecord_cases value "field access" m with ⟨ref, fields, -, hresult⟩ | ⟨message, hresult⟩
  · rw [hresult]
    dsimp only
    cases fields.find? name with
    | some value => exact spares_replaceTop 1 value
    | none => exact .refl m
  · rw [hresult]
    exact .refl m

/-- A step on the array that a value refers to. -/
theorem spares_array {value : Value} {what : String} {f : Ref × Elements → Exec β}
    (hnext : ∀ ref elements, m.heap.get? ref = some (.array elements) → Spares m (stateAfter (f (ref, elements) m))) :
    Spares m (stateAfter ((expectArray value what >>= f) m)) := by
  rw [stateAfter_bind]
  rcases expectArray_cases value what m with ⟨ref, elements, hget, hresult⟩ | ⟨message, hresult⟩
  · rw [hresult]
    exact hnext ref elements hget
  · rw [hresult]
    exact .refl m

theorem spares_getIndex : Spares m (stateAfter (getIndex m)) :=
  (looks_peek 0).bind_spares fun _ _ => (looks_peek 1).bind_spares fun _ _ =>
    spares_array fun _ _ _ => (looks_checkedIndex _ _).bind_spares fun _ _ =>
      (looks_expect _).bind_spares fun _ _ => spares_replaceTop 2 _

theorem spares_setIndex : Spares m (stateAfter (setIndex m)) := by
  refine (looks_peek 0).bind_spares fun value _ => (looks_peek 1).bind_spares fun _ _ =>
    (looks_peek 2).bind_spares fun _ _ => spares_array fun ref elements hget =>
      (looks_checkedIndex _ _).bind_spares fun position _ => ?_
  exact (spares_edited hget (.element elements position value) nofun).trans (spares_replaceTop 3 value)

theorem spares_pushMatch (bound : Option (List Value)) : Spares m (stateAfter (pushMatch bound m)) := by
  cases bound with
  | none => exact spares_push _
  | some values => exact spares_bind (spares_pushAll values) fun _ _ _ => spares_push _

theorem spares_matchArguments (parameters : List Matcher) : Spares m (stateAfter (matchArguments parameters m)) := by
  refine looks_frame.bind_spares fun frame _ => ?_
  split
  · exact (looks_matchSlots _ _ _).bind_spares fun bound _ => spares_pushMatch bound
  · exact spares_pushMatch none

theorem spares_jumpIf {op : Opcode} (hop : op = .jumpIfFalse ∨ op = .jumpIfTrue) (a b : Nat) :
    Spares m (stateAfter (execute op a b m)) := by
  refine .of_heap (changes_jumpIf hop a b) ?_
  rcases execute_jumpIf b m hop with ⟨_, taken, -, hresult⟩ | ⟨fault, -, hresult⟩ <;> rw [hresult] <;> rfl

theorem spares_moved (ip : Nat) : Spares m { m with ip } :=
  .of_eq rfl rfl

/-- No operation but the assignment to a field changes a record, and none but a literal builds one. -/
theorem spares_execute {op : Opcode} (hbuilds : op ≠ .record) (hstores : op ≠ .setField) (a b : Nat) :
    Spares m (stateAfter (execute op a b m)) := by
  cases op with
  | constant =>
    refine looks_chunk.bind_spares fun chunk _ => (looks_expect _).bind_spares fun value _ => ?_
    cases value with
    | scalar value => exact spares_push _
    | _ => exact .refl m
  | string =>
    refine looks_chunk.bind_spares fun chunk _ => (looks_expect _).bind_spares fun text _ => ?_
    exact spares_bind (spares_allocate nofun) fun _ _ _ => spares_push _
  | pushNil => exact spares_push _
  | pushTrue => exact spares_push _
  | pushFalse => exact spares_push _
  | pop => exact spares_bind spares_pop fun _ _ _ => .refl _
  | popMany =>
    refine looks_get.bind_spares fun _ hsame => ?_
    split
    · exact .refl m
    · exact .of_heap (Change.dropped m a).changes rfl
  | dup => exact (looks_peek 0).bind_spares fun _ _ => spares_push _
  | add | subtract | multiply | divide | modulo => exact spares_binary (·.arithmetic _)
  | negate => exact spares_unary _
  | bitwiseAnd | bitwiseOr | bitwiseXor | leftShift | rightShift => exact spares_binary (·.bitwise _)
  | bitwiseNot => exact spares_unary _
  | equal => exact spares_equality false
  | notEqual => exact spares_equality true
  | less | greater | lessEqual | greaterEqual => exact spares_binary (·.comparison _)
  | logicalNot => exact spares_bind spares_pop fun _ _ _ => spares_push _
  | getGlobal => exact (looks_definedGlobal a _).bind_spares fun _ _ => spares_push _
  | setGlobal => exact (looks_peek 0).bind_spares fun _ _ => spares_setGlobal a _
  | moveGlobal =>
    exact (looks_definedGlobal a _).bind_spares fun _ _ =>
      spares_bind (spares_push _) fun _ _ _ => spares_setGlobal a _
  | getLocal =>
    exact (looks_localIndex a).bind_spares fun _ _ => (looks_readSlot _).bind_spares fun _ _ => spares_push _
  | setLocal =>
    exact (looks_peek 0).bind_spares fun _ _ => (looks_localIndex a).bind_spares fun _ _ => spares_writeSlot _ _
  | moveLocal =>
    exact (looks_localIndex a).bind_spares fun _ _ => (looks_readSlot _).bind_spares fun _ _ =>
      spares_bind (spares_push _) fun _ _ _ => spares_writeSlot _ _
  | getUpvalue => exact (looks_readUpvalue a).bind_spares fun _ _ => spares_push _
  | setUpvalue => exact (looks_peek 0).bind_spares fun _ _ => spares_writeUpvalue a _
  | moveUpvalue =>
    exact (looks_readUpvalue a).bind_spares fun _ _ =>
      spares_bind (spares_push _) fun _ _ _ => spares_writeUpvalue a _
  | closeUpvalue =>
    refine spares_bind ?_ fun _ _ _ => spares_bind spares_pop fun _ _ _ => .refl _
    rw [modify_apply]
    dsimp only [stateAfter]
    split
    · exact .refl m
    · exact spares_closeCells _
  | jump => exact spares_moved _
  | jumpIfFalse => exact spares_jumpIf (.inl rfl) a b
  | jumpIfTrue => exact spares_jumpIf (.inr rfl) a b
  | loopBack => exact spares_moved _
  | call =>
    rw [execute_call]
    split
    · exact .refl m
    · exact (looks_peek a).bind_spares fun callee _ => spares_callValue callee a
  | ret => exact spares_bind spares_pop fun result _ _ => spares_returnFromFrame result
  | closure =>
    exact looks_chunk.bind_spares fun _ _ => (looks_expect _).bind_spares fun _ _ =>
      (looks_expect _).bind_spares fun prototype _ => spares_pushClosure prototype
  | record => exact absurd rfl hbuilds
  | getField =>
    exact looks_chunk.bind_spares fun _ _ => (looks_expect _).bind_spares fun _ _ => spares_getField _
  | setField => exact absurd rfl hstores
  | array =>
    refine (looks_topValues a).bind_spares fun values hvalues => ?_
    obtain ⟨rfl, -⟩ := size_topValues hvalues
    exact spares_buildArray values.size values
  | getIndex => exact spares_getIndex
  | setIndex => exact spares_setIndex
  | matchValue =>
    exact looks_chunk.bind_spares fun _ _ => (looks_expect _).bind_spares fun _ _ =>
      (looks_localIndex b).bind_spares fun _ _ => (looks_readSlot _).bind_spares fun _ _ =>
        looks_get.bind_spares fun _ _ => spares_pushMatch _
  | matchArgs =>
    exact looks_chunk.bind_spares fun _ _ => (looks_expect _).bind_spares fun _ _ => spares_matchArguments _
  | noMatchingArm => exact .refl m
  | noMatchingOverload =>
    exact looks_frame.bind_spares fun _ _ => looks_get.bind_spares fun _ _ => .refl m
  | printTop =>
    refine spares_bind spares_pop fun _ middle _ => ?_
    exact .of_eq rfl rfl
  | halt => exact spares_returnFromFrame .nil

end Exec

namespace Machine

/-- What the next instruction stores in a record that it builds: the values on top of the stack, under the names of
the literal. -/
def literal? (m : Machine) : Option (List (String × Value)) :=
  match m.instruction? with
  | some (.record, a, _) => (m.chunk.bind (·.shapes[a]?)).map fun names =>
      names.zip (m.stack.extract (m.stack.size - names.length) m.stack.size).toList
  | _ => none

/-- The record that the next instruction assigns to, the name of the field and the value. -/
def assignment? (m : Machine) : Option (Ref × String × Value) :=
  match m.instruction? with
  | some (.setField, a, _) => do
    let name ← m.chunk.bind (·.strings[a]?)
    let record ← m.stack[m.stack.size - 2]?
    let ref ← record.ref?
    let value ← m.stack.back?
    some (ref, name, value)
  | _ => none

/-- The record that the next instruction reads a field of, and the name. -/
def reading? (m : Machine) : Option (Ref × String) :=
  match m.instruction? with
  | some (.getField, a, _) => do
    let name ← m.chunk.bind (·.strings[a]?)
    let record ← m.stack.back?
    let ref ← record.ref?
    some (ref, name)
  | _ => none

/-- What an instruction that comes to its end does to records: nothing, or it builds one and leaves it on the stack,
or it stores a value in one. -/
inductive Recorded (m after : Machine) : Prop where
  | spared : m.literal? = none → m.assignment? = none → (∀ ref fields,
      after.heap.get? ref = some (.record fields) ↔ m.heap.get? ref = some (.record fields)) → Recorded m after
  | built {writes : List (String × Value)} {fields : Fields} : m.literal? = some writes → m.assignment? = none →
      fields.Tells writes → after.stack.back? = some (.ofRef m.heap.nextRef) →
      (∀ ref, after.heap.get? ref = if ref = m.heap.nextRef then some (.record fields) else m.heap.get? ref) →
      Recorded m after
  | stored {ref : Ref} {name : String} {value : Value} {fields : Fields} : m.literal? = none →
      m.assignment? = some (ref, name, value) → m.heap.get? ref = some (.record fields) →
      (∀ other, after.heap.get? other = if other = ref then some (.record (fields.put name value))
        else m.heap.get? other) → Recorded m after

end Machine

namespace Exec

open Machine

variable {α β : Type} {m after : Machine} {x : Exec α} {f : α → Exec β}

/-- A sequence that begins by looking comes to its end with what was found. -/
theorem Looks.bind_ok (hlooks : Looks x) {result : β} (hresult : (x >>= f) m = .ok result after) :
    ∃ a, x m = .ok a m ∧ f a m = .ok result after := by
  obtain ⟨a, middle, hfirst, hnext⟩ := bind_eq_ok.mp hresult
  have hsame := hlooks m
  rw [hfirst] at hsame
  obtain rfl : middle = m := hsame
  exact ⟨a, hfirst, hnext⟩

theorem peek_ok {distance : Nat} {value : Value} (hresult : peek distance m = .ok value after) :
    m.stack[m.stack.size - 1 - distance]? = some value := by
  rw [peek_eq] at hresult
  split at hresult
  · rename_i found hfound
    split at hresult
    · cases hresult
      exact hfound
    · cases hresult
  · cases hresult

theorem looks_expectRecord (value : Value) (what : String) : Looks (expectRecord value what) := by
  intro m
  rcases expectRecord_cases value what m with ⟨_, _, -, hfound⟩ | ⟨_, hfailed⟩
  · rw [hfound]
    rfl
  · rw [hfailed]
    rfl

theorem expectRecord_ok {value : Value} {what : String} {ref : Ref} {fields : Fields}
    (hresult : expectRecord value what m = .ok (ref, fields) after) :
    value.ref? = some ref ∧ m.heap.get? ref = some (.record fields) := by
  simp only [expectRecord] at hresult
  rw [get_bind_apply] at hresult
  cases href : value.ref? with
  | none =>
    simp only [href] at hresult
    cases hresult
  | some found =>
    simp only [href, Heap.objectOf?, Option.bind_some] at hresult
    cases hget : m.heap.get? found with
    | none =>
      rw [hget] at hresult
      cases hresult
    | some object =>
      rw [hget] at hresult
      cases object with
      | record record =>
        cases hresult
        exact ⟨rfl, hget⟩
      | _ => cases hresult

theorem topValues_ok {count : Nat} {values : Array Value} (hresult : topValues count m = .ok values after) :
    values = m.stack.extract (m.stack.size - count) m.stack.size := by
  simp only [topValues] at hresult
  rw [get_bind_apply] at hresult
  split at hresult
  · cases hresult
  · cases hresult
    rfl

theorem replaceTop_ok {count : Nat} {value : Value} (hresult : replaceTop count value m = .ok () after) :
    after = { m with
      stack := (m.stack.shrink (m.stack.size - count)).push value
      leftovers := m.leftBehind (m.stack.size - count) } := by
  obtain ⟨_, middle, hshrunk, hpushed⟩ := bind_eq_ok.mp hresult
  cases hshrunk
  exact push_ok hpushed

theorem build_ok {bytes : UInt64} {empty object : Object} {count : Nat}
    (hresult : build bytes empty object count m = .ok () after) :
    after.stack.back? = some (.ofRef m.heap.nextRef) ∧ ∀ ref,
      after.heap.get? ref = if ref = m.heap.nextRef then some object else m.heap.get? ref := by
  obtain ⟨-, -, hfilled⟩ := (looks_ensureHeadroom bytes).bind_ok hresult
  obtain ⟨container, linked, hlinked, hreplaced⟩ := bind_eq_ok.mp hfilled
  obtain ⟨parked, halike, ⟨fault, hfailed⟩ | ⟨-, hallocated⟩⟩ := onHeap_allocate_parks empty m
  · rw [hfailed] at hlinked
    cases hlinked
  · rw [hallocated] at hlinked
    cases hlinked
    obtain ⟨_, stored, hstored, hpushed⟩ := bind_eq_ok.mp hreplaced
    cases hstored
    rw [replaceTop_ok hpushed]
    refine ⟨by simp [halike.nextRef], fun ref => ?_⟩
    dsimp only
    rw [Heap.get?_store, Heap.get?_link, halike.nextRef]
    split
    · rfl
    · exact halike.get? ref

theorem getField_record {name : String} {value : Value} {ref : Ref} {fields : Fields}
    (htop : m.stack.back? = some value)
    (href : value.ref? = some ref) (hget : m.heap.get? ref = some (.record fields)) :
    getField name m = match fields.find? name with
      | some found => replaceTop 1 found m
      | none => .error (.failure (.about .unknownField name s!"record has no field '{name}'")) m := by
  have hpeek : peek 0 m = .ok value m := by
    rw [Array.back?_eq_getElem?] at htop
    obtain ⟨hsize, -⟩ := Array.getElem?_eq_some_iff.mp htop
    rw [peek_eq, Nat.sub_zero, htop]
    exact if_pos (by omega)
  have hexpected : expectRecord value "field access" m = .ok (ref, fields) m := by
    simp only [expectRecord]
    rw [get_bind_apply, Heap.objectOf?, href, Option.bind_some, hget]
    rfl
  simp only [getField]
  rw [bind_apply, hpeek]
  dsimp only
  rw [bind_apply, hexpected]
  dsimp only
  cases hfound : fields.find? name with
  | some found => rfl
  | none => rfl

/-- An assignment to a field puts the value in the record, or finds no room for a new field. -/
theorem setField_ok {name : String} (hresult : setField name m = .ok () after) :
    ∃ record ref fields value, m.stack[m.stack.size - 2]? = some record ∧ record.ref? = some ref ∧
      m.stack.back? = some value ∧ m.heap.get? ref = some (.record fields) ∧
      ∀ other, after.heap.get? other =
        if other = ref then some (.record (fields.put name value)) else m.heap.get? other := by
  obtain ⟨value, hvalue, hrest⟩ := (looks_peek 0).bind_ok hresult
  obtain ⟨record, hrecord, hrest⟩ := (looks_peek 1).bind_ok hrest
  obtain ⟨⟨ref, fields⟩, hexpected, hrest⟩ := (looks_expectRecord record _).bind_ok hrest
  obtain ⟨href, hget⟩ := expectRecord_ok hexpected
  have htop : m.stack.back? = some value := by
    rw [Array.back?_eq_getElem?]
    exact peek_ok hvalue
  refine ⟨record, ref, fields, value, peek_ok hrecord, href, htop, hget, fun other => ?_⟩
  dsimp only at hrest
  split at hrest
  · rename_i hthere
    obtain ⟨_, stored, hstored, hreplaced⟩ := bind_eq_ok.mp hrest
    cases hstored
    rw [replaceTop_ok hreplaced]
    dsimp only
    rw [Heap.get?_update, Fields.put, if_pos hthere]
    split
    · rename_i hsame
      rw [hsame, hget]
      rfl
    · rfl
  · rename_i hnew
    obtain ⟨-, -, hrest⟩ := (looks_ensureHeadroom _).bind_ok hrest
    obtain ⟨_, stored, hstored, hreplaced⟩ := bind_eq_ok.mp hrest
    cases hstored
    rw [replaceTop_ok hreplaced]
    dsimp only
    rw [Heap.get?_store, Fields.put, if_neg hnew]
    split
    · rename_i hsame
      rw [hsame, hget]
      rfl
    · rfl

/-- Every instruction that comes to its end keeps to one of the three ways with records. -/
theorem recorded_dispatch (horderly : m.Orderly) (hresult : dispatch m = .ok () after) : Recorded m after := by
  rw [dispatch_eq] at hresult
  cases hinstruction : m.instruction? with
  | none =>
    rw [hinstruction] at hresult
    cases hresult
  | some instruction =>
    obtain ⟨op, a, b⟩ := instruction
    rw [hinstruction] at hresult
    dsimp only at hresult
    by_cases hbuilds : op = .record
    · subst hbuilds
      simp only [execute] at hresult
      obtain ⟨chunk, hchunk, hresult⟩ := looks_chunk.bind_ok hresult
      obtain ⟨names, hnames, hresult⟩ := (looks_expect _).bind_ok hresult
      obtain ⟨values, hvalues, hresult⟩ := (looks_topValues _).bind_ok hresult
      have hbuilt : build _ _ (.record (.ofLiteral names values.toList)) _ _ = .ok () after := hresult
      obtain ⟨htop, hheap⟩ := build_ok hbuilt
      have hextract := topValues_ok hvalues
      have hliteral : m.literal? = some (names.zip values.toList) := by
        have hchunk := chunk_eq_some hchunk
        dsimp only at hchunk
        rw [literal?, hinstruction, hchunk]
        dsimp only
        rw [Option.bind_some, expect_eq_some hnames, hextract]
        rfl
      exact .built hliteral (by rw [assignment?, hinstruction]) (Fields.tells_ofLiteral _ _) htop hheap
    · by_cases hstores : op = .setField
      · subst hstores
        simp only [execute] at hresult
        obtain ⟨chunk, hchunk, hresult⟩ := looks_chunk.bind_ok hresult
        obtain ⟨name, hname, hresult⟩ := (looks_expect _).bind_ok hresult
        obtain ⟨record, ref, fields, value, hrecord, href, htop, hget, hheap⟩ := setField_ok hresult
        have hassignment : m.assignment? = some (ref, name, value) := by
          have hchunk := chunk_eq_some hchunk
          dsimp only at hchunk hrecord htop
          rw [assignment?, hinstruction]
          simp only [hchunk, Option.bind_some, expect_eq_some hname, hrecord, href, htop, Option.bind_eq_bind]
        exact .stored (by rw [literal?, hinstruction]) hassignment hget hheap
      · have hspared := (spares_execute hbuilds hstores a b (m := { m with ip := m.ip + op.size })).records
          (horderly.of_eq rfl rfl)
        rw [hresult] at hspared
        refine .spared ?_ ?_ hspared
        · rw [literal?, hinstruction]
          cases op <;> first | rfl | exact absurd rfl hbuilds
        · rw [assignment?, hinstruction]
          cases op <;> first | rfl | exact absurd rfl hstores

/-- A sequence that begins by looking finds the heap full later on. -/
theorem Looks.bind_full (hlooks : Looks x) (hfull : Full ((x >>= f) m))
    (hnext : ∀ a, x m = .ok a m → Full (f a m) → Heap.Alike m.heap (stateAfter (f a m)).heap) :
    Heap.Alike m.heap (stateAfter ((x >>= f) m)).heap := by
  have hsame := hlooks m
  rw [bind_apply] at hfull ⊢
  cases hresult : x m with
  | ok a middle =>
    rw [hresult] at hsame hfull
    obtain rfl : middle = m := hsame
    exact hnext a hresult hfull
  | error fault after =>
    rw [hresult] at hsame
    obtain rfl : after = m := hsame
    exact .refl _

/-- An assignment to a field makes sure of room before it changes anything. -/
theorem setField_full {name : String} (hfull : Full (setField name m)) :
    Heap.Alike m.heap (stateAfter (setField name m)).heap := by
  refine (looks_peek 0).bind_full hfull fun value _ hfull => (looks_peek 1).bind_full hfull fun record _ hfull =>
    (looks_expectRecord record _).bind_full hfull fun found _ hfull => ?_
  dsimp only at hfull ⊢
  split at hfull
  · exact absurd hfull (keepsHeap_replaceTop 2 value _).notFull
  · rename_i hnew
    rw [if_neg hnew]
    exact (looks_ensureHeadroom _).bind_full hfull fun _ _ hfull =>
      absurd hfull (keepsHeap_replaceTop 2 value _).notFull

/-- A container makes sure of room before it is built. -/
theorem build_full {bytes : UInt64} {empty object : Object} {count : Nat}
    (hfull : Full (build bytes empty object count m)) :
    Heap.Alike m.heap (stateAfter (build bytes empty object count m)).heap := by
  rcases build_cases bytes empty object count m with ⟨_, -, hplain, -⟩ | ⟨parked, halike, hheap⟩
  · exact absurd hfull hplain
  · rw [hheap]
    exact halike

/-- An instruction that finds the heap full leaves the records alone. -/
theorem spared_of_full (horderly : m.Orderly) (hfull : Full (dispatch m)) (ref : Ref) (fields : Fields) :
    (stateAfter (dispatch m)).heap.get? ref = some (.record fields) ↔ m.heap.get? ref = some (.record fields) := by
  rw [dispatch_eq] at hfull ⊢
  cases hinstruction : m.instruction? with
  | none => exact .rfl
  | some instruction =>
    obtain ⟨op, a, b⟩ := instruction
    rw [hinstruction] at hfull
    dsimp only at hfull ⊢
    by_cases hbuilds : op = .record
    · subst hbuilds
      have halike := looks_chunk.bind_full hfull fun chunk _ hfull =>
        (looks_expect _).bind_full hfull fun names _ hfull => (looks_topValues _).bind_full hfull fun values _ hfull =>
          build_full hfull
      exact Eq.congr_left (halike.get? ref)
    · by_cases hstores : op = .setField
      · subst hstores
        have halike := looks_chunk.bind_full hfull fun chunk _ hfull =>
          (looks_expect _).bind_full hfull fun name _ hfull => setField_full hfull
        exact Eq.congr_left (halike.get? ref)
      · exact (spares_execute hbuilds hstores a b (m := { m with ip := m.ip + op.size })).records
          (horderly.of_eq rfl rfl) ref fields

end Exec

end OwnScript
