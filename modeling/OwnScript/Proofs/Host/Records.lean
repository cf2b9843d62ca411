import OwnScript.Proofs.Host.Limits
import OwnScript.Proofs.Host.Retries
import OwnScript.Proofs.Machine.Cells
import OwnScript.Proofs.Machine.Records

/-!
Records as maps that remember the order of insertion, in every run. At each instruction boundary all that was stored
in a record since the run began is known, in the order of time: with what a literal put in when it built the record,
or with what it held when the run began, and then with one assignment after the other. Main statement: the record
lists its names in the order in which they came first, none of them twice, and reading a field or destructuring the
record gives what was stored last under each name, or fails where nothing was stored.
-/

namespace OwnScript

open Stateful

namespace Machine

/-- No record has two fields of one name. -/
def Distinct (m : Machine) : Prop :=
  ∀ ref fields, m.heap.get? ref = some (.record fields) → (fields.entries.map (·.1)).Nodup

variable {asked : Nat → Prop} {m after : Machine}

/-- Records are those of before, or have distinct names. -/
theorem Distinct.of_records (hdistinct : m.Distinct) (hrecords : ∀ ref fields,
    after.heap.get? ref = some (.record fields) →
      m.heap.get? ref = some (.record fields) ∨ (fields.entries.map (·.1)).Nodup) : after.Distinct := by
  intro ref fields hget
  rcases hrecords ref fields hget with hold | hnodup
  · exact hdistinct ref fields hold
  · exact hnodup

theorem Distinct.of_heap (hdistinct : m.Distinct) (hheap : after.heap = m.heap) : after.Distinct :=
  hdistinct.of_records fun _ _ hget => .inl (hheap ▸ hget)

/-- A value that is put in a record leaves the names distinct. -/
theorem nodup_put {fields : Fields} (hnodup : (fields.entries.map (·.1)).Nodup) (name : String) (value : Value) :
    ((fields.put name value).entries.map (·.1)).Nodup :=
  ((Fields.tells_self hnodup).put name value).nodup

/-- Whatever an instruction does, names stay distinct. -/
theorem Change.distinct (hchange : Change asked m after) (horderly : m.Orderly) (hdistinct : m.Distinct) :
    after.Distinct := by
  cases hchange with
  | pushed | cut | leftBehind | assigned | defined | printed | jumped | entered => exact hdistinct.of_heap rfl
  | parked halike => exact hdistinct.of_records fun ref fields hget => .inl ((halike.get? ref).symm.trans hget)
  | linked hwhole =>
    refine hdistinct.of_records fun ref fields hget => ?_
    rw [Heap.get?_link] at hget
    split at hget
    · cases hget
      cases hwhole
    · exact .inl hget
  | built hfilled =>
    refine hdistinct.of_records fun ref fields hget => ?_
    rw [Heap.get?_store, Heap.get?_link] at hget
    by_cases hnew : ref = m.heap.nextRef
    · rw [if_pos hnew, if_pos hnew] at hget
      cases hget
      cases hfilled
      exact .inr (Fields.tells_ofLiteral _ _).nodup
    · rw [if_neg hnew, if_neg hnew] at hget
      exact .inl hget
  | @edited target old new hold hedited =>
    refine hdistinct.of_records fun ref fields hget => ?_
    rw [Heap.get?_update] at hget
    split at hget
    · rename_i hsame
      rw [hsame, hold] at hget
      cases hget
      cases hedited with
      | @field before name value hthere =>
        have hnodup := nodup_put (hdistinct target before hold) name value
        rw [Fields.put, if_pos hthere] at hnodup
        exact .inr hnodup
    · exact .inl hget
  | @appended target before name value hold hnew =>
    refine hdistinct.of_records fun ref fields hget => ?_
    rw [Heap.get?_store] at hget
    split at hget
    · rename_i hsame
      rw [hsame, hold] at hget
      cases hget
      have hnodup := nodup_put (hdistinct target before hold) name value
      rw [Fields.put, if_neg (by simp [hnew])] at hnodup
      exact .inr hnodup
    · exact .inl hget
  | captured slot =>
    refine hdistinct.of_records fun ref fields hget => ?_
    rw [get?_capturing (.refl _)] at hget
    split at hget
    · cases hget
    · exact .inl hget
  | closed slot =>
    exact hdistinct.of_records fun ref fields hget =>
      .inl (((spares_closeCells slot).records horderly ref fields).mp hget)
  | @returned frame | @finished frame =>
    exact hdistinct.of_records fun ref fields hget => .inl (((spares_left frame).records horderly ref fields).mp hget)

/-- A collection leaves some of the objects, as they are. -/
theorem get?_of_collectGarbage (hidle : m.heap.Idle) {ref : Ref} {object : Object}
    (hget : m.collectGarbage.heap.get? ref = some object) : m.heap.get? ref = some object := by
  have hcollected := Heap.collect_spec hidle m.roots
  change (m.heap.collect m.roots).1.get? ref = some object at hget
  by_cases hreach : m.heap.Reachable m.roots ref
  · rwa [hcollected.reached ref hreach] at hget
  · rw [hcollected.lost ref hreach] at hget
    cases hget

theorem get?_of_safepoint (hidle : m.heap.Idle) {ref : Ref} {object : Object}
    (hget : m.safepoint.heap.get? ref = some object) : m.heap.get? ref = some object := by
  obtain ⟨trace, hcollected | hsame⟩ := m.safepoint_cases
  · rw [hcollected] at hget
    exact get?_of_collectGarbage hidle hget
  · rw [hsame] at hget
    exact hget

/-- What a value on the stack refers to is kept. -/
theorem get?_safepoint_of_stack (hidle : m.heap.Idle) {value : Value} (hvalue : value ∈ m.stack) {ref : Ref}
    (href : value.ref? = some ref) : m.safepoint.heap.get? ref = m.heap.get? ref := by
  obtain ⟨trace, hcollected | hsame⟩ := m.safepoint_cases
  · have hroot : value ∈ m.roots := by simp [roots, hvalue]
    rw [hcollected]
    exact (Heap.collect_spec hidle m.roots).reached ref (.root hroot href)
  · rw [hsame]

theorem nextRef_safepoint (hidle : m.heap.Idle) : m.safepoint.heap.nextRef = m.heap.nextRef := by
  obtain ⟨trace, hcollected | hsame⟩ := m.safepoint_cases
  · rw [hcollected]
    exact (Heap.collect_spec hidle m.roots).nextRef
  · rw [hsame]

theorem literal?_safepoint (m : Machine) : m.safepoint.literal? = m.literal? := by
  obtain ⟨trace, hcollected | hsame⟩ := m.safepoint_cases
  · rw [hcollected]
    rfl
  · rw [hsame]
    rfl

theorem assignment?_safepoint (m : Machine) : m.safepoint.assignment? = m.assignment? := by
  obtain ⟨trace, hcollected | hsame⟩ := m.safepoint_cases
  · rw [hcollected]
    rfl
  · rw [hsame]
    rfl

end Machine

namespace Exec

open Machine

/-- That names are distinct lasts without any supposition. -/
theorem enduring_distinct (config : Config) : Enduring config (fun _ => True) (fun _ => True) Distinct where
  narrower _ _ := trivial
  spaced _ _ := trivial
  fresh := fun _ _ hget => by simp [ofConfig, Heap.ofConfig, Heap.get?] at hget
  apart hsame hdistinct := hdistinct.of_heap hsame.heap
  emptied hdistinct := hdistinct.of_heap rfl
  started _ _ hdistinct _ := hdistinct.of_heap rfl
  collected horderly hdistinct :=
    hdistinct.of_records fun _ _ hget => .inl (get?_of_collectGarbage horderly.heap.idle hget)
  changed hchange horderly _ hdistinct := hchange.distinct horderly hdistinct

/-- All that was stored in a record up to an instruction boundary of a run, in the order of time: a record that was
there at the start is known by its fields, one that was built by what the literal stored, and every assignment adds
to that. -/
inductive Logs (start : Machine) (ref : Ref) : List (String × Value) → Bool → Machine → Prop where
  | found {fields : Fields} : start.heap.get? ref = some (.record fields) → Logs start ref fields.entries false start
  | built {retried : Bool} {m after : Machine} {writes : List (String × Value)} : Turns start retried m →
      m.halted = false → turn retried m = .ok false after → m.literal? = some writes →
      after.stack.back? = some (.ofRef ref) → Logs start ref writes false after
  | stored {retried : Bool} {m after : Machine} {writes : List (String × Value)} {name : String} {value : Value} :
      Logs start ref writes retried m → m.halted = false → turn retried m = .ok false after →
      m.assignment? = some (ref, name, value) → Logs start ref (writes ++ [(name, value)]) false after
  | kept {retried again : Bool} {m after : Machine} {writes : List (String × Value)} : Logs start ref writes retried m →
      m.halted = false → turn retried m = .ok again after →
      (again = false → ∀ name value, m.assignment? ≠ some (ref, name, value)) → Logs start ref writes again after

/-- A turn that reads a field of a record, known by what was stored in it: the value on top of the stack is what was
stored last under the name, and the turn fails for want of a field if and only if nothing was. -/
structure ReadsLast (retried : Bool) (now : Machine) (writes : List (String × Value)) (name : String) : Prop where
  found : ∀ value, Fields.lastStored? writes name = some value →
    ∃ after, turn retried now = .ok false after ∧ after.stack = now.stack.pop.push value
  missing : (∃ diagnostic after, turn retried now = .error (.failure diagnostic) after ∧
    diagnostic.kind = .unknownField) ↔ name ∉ writes.map (·.1)

/-- A turn that stores a value in a field: it is what is found there, and no other field of any record changes. -/
structure StoresOne (now after : Machine) (ref : Ref) (name : String) (value : Value) : Prop where
  stored : ∃ before fields, now.heap.get? ref = some (.record before) ∧ after.heap.get? ref = some (.record fields) ∧
    fields.find? name = some value ∧ ∀ other, other ≠ name → fields.find? other = before.find? other
  others : ∀ other fields, other ≠ ref → after.heap.get? other = some (.record fields) →
    now.heap.get? other = some (.record fields)

/-- Records at an instruction boundary are maps that remember the order of insertion. -/
structure RecordsAreMaps (start : Machine) (retried : Bool) (now : Machine) : Prop where
  distinct : now.Distinct
  logged : ∀ ref fields, now.heap.get? ref = some (.record fields) → ∃ writes, Logs start ref writes retried now
  tells : ∀ ref fields writes, now.heap.get? ref = some (.record fields) → Logs start ref writes retried now →
    fields.Tells writes
  builds : ∀ writes after, now.literal? = some writes → turn retried now = .ok false after →
    ∃ ref fields, after.stack.back? = some (.ofRef ref) ∧ after.heap.get? ref = some (.record fields) ∧
      fields.Tells writes
  reads : ∀ ref name fields writes, now.reading? = some (ref, name) → now.heap.get? ref = some (.record fields) →
    Logs start ref writes retried now → ReadsLast retried now writes name
  destructures : ∀ ref fields writes matchers, now.heap.get? ref = some (.record fields) →
    Logs start ref writes retried now → now.heap.matchValue (.node .destructure matchers) (.ofRef ref) =
      (matchers.mapM fun part => (Fields.lastStored? writes part.1).bind (now.heap.matchValue part.2)).map List.flatten
  stores : ∀ ref name value after, now.assignment? = some (ref, name, value) → turn retried now = .ok false after →
    StoresOne now after ref name value

variable {start m now after : Machine} {ref : Ref} {fields : Fields} {writes : List (String × Value)}
  {retried again : Bool}

theorem Logs.turns (hlogs : Logs start ref writes retried m) : Turns start retried m := by
  induction hlogs with
  | found => exact .start
  | built hturns hrunning hturn => exact .next hturns hrunning hturn
  | stored _ hrunning hturn _ ih => exact .next ih hrunning hturn
  | kept _ hrunning hturn _ ih => exact .next ih hrunning hturn

theorem orderly_turns (hturns : Turns start retried m) (horderly : start.Orderly) : m.Orderly :=
  ((enduring_orderly {}).good_turns hturns ⟨horderly, trivial⟩ fun _ m _ => furnished_anything m).orderly

/-- What a turn does to records, when the run goes on. -/
inductive TurnRecords (m : Machine) : Bool → Machine → Prop where
  | completed {after : Machine} : Recorded m.safepoint after → TurnRecords m false after
  | gaveUp {after : Machine} : (∀ ref fields, after.heap.get? ref = some (.record fields) →
      m.heap.get? ref = some (.record fields)) → TurnRecords m true after

theorem turnRecords (horderly : m.Orderly) (hturn : turn retried m = .ok again after) : TurnRecords m again after := by
  have hready := horderly.safepoint
  rcases turn_eq_ok hturn with ⟨rfl, hresult⟩ | ⟨rfl, rfl, hfull⟩
  · exact .completed (recorded_dispatch hready hresult)
  · have hspared := spared_of_full hready hfull
    have hafter := ((enduring_orderly {}).good_dispatch ⟨horderly, trivial⟩ (furnished_anything m)).orderly
    obtain ⟨request, middle, hresult⟩ := hfull
    rw [turn_of_full hresult] at hturn
    cases hturn
    rw [hresult] at hspared hafter
    have hback : Orderly { middle with ip := middle.instructionStart } := hafter.of_eq rfl rfl
    refine .gaveUp fun ref fields hget => ?_
    have hmiddle : middle.heap.get? ref = some (.record fields) := get?_of_collectGarbage hback.heap.idle hget
    exact get?_of_safepoint horderly.heap.idle ((hspared ref fields).mp hmiddle)

/-- References are never given out again. -/
theorem nextRef_turn (horderly : m.Orderly) (hturn : turn retried m = .ok again after) :
    m.heap.nextRef ≤ after.heap.nextRef := by
  have hgrows := (relists_dispatch horderly.safepoint).nextRef
  rw [nextRef_safepoint horderly.heap.idle] at hgrows
  rcases turn_eq_ok hturn with ⟨rfl, hresult⟩ | ⟨rfl, rfl, hfull⟩
  · rwa [hresult] at hgrows
  · have hafter := ((enduring_orderly {}).good_dispatch ⟨horderly, trivial⟩ (furnished_anything m)).orderly
    obtain ⟨request, middle, hresult⟩ := hfull
    rw [turn_of_full hresult] at hturn
    cases hturn
    rw [hresult] at hgrows hafter
    exact hgrows.trans (Heap.collect_spec hafter.heap.idle _).nextRef.ge

/-- A record that is in the heap is described by all that was stored in it, and no later record has its reference. -/
theorem Logs.tells (hlogs : Logs start ref writes retried m) (horderly : start.Orderly) (hdistinct : start.Distinct) :
    ref < m.heap.nextRef ∧ ∀ fields, m.heap.get? ref = some (.record fields) → fields.Tells writes := by
  induction hlogs with
  | @found known hfound =>
    refine ⟨horderly.heap.bounded _ _ hfound, fun fields hget => ?_⟩
    obtain rfl : fields = known := by simpa using hget.symm.trans hfound
    exact Fields.tells_self (hdistinct ref fields hget)
  | @built retried m after writes hturns hrunning hturn hliteral htop =>
    have hbefore := orderly_turns hturns horderly
    have hafter := orderly_turns (.next hturns hrunning hturn) horderly
    rw [← literal?_safepoint] at hliteral
    cases turnRecords hbefore hturn with
    | completed hrecorded =>
      cases hrecorded with
      | spared hnone => rw [hnone] at hliteral; cases hliteral
      | stored hnone => rw [hnone] at hliteral; cases hliteral
      | @built stored known hsome _ htells hnew hheap =>
        obtain rfl : stored = writes := Option.some.inj (hsome.symm.trans hliteral)
        obtain rfl : ref = m.safepoint.heap.nextRef := by simpa [Value.ofRef] using htop.symm.trans hnew
        have hthere := hheap m.safepoint.heap.nextRef
        rw [if_pos rfl] at hthere
        refine ⟨hafter.heap.bounded _ _ hthere, fun fields hget => ?_⟩
        obtain rfl : fields = known := by simpa using hget.symm.trans hthere
        exact htells
  | @stored retried m after writes name value hlogs hrunning hturn hassigned ih =>
    have hbefore := orderly_turns hlogs.turns horderly
    rw [← assignment?_safepoint] at hassigned
    refine ⟨ih.1.trans_le (nextRef_turn hbefore hturn), fun fields hget => ?_⟩
    cases turnRecords hbefore hturn with
    | completed hrecorded =>
      cases hrecorded with
      | spared _ hnone => rw [hnone] at hassigned; cases hassigned
      | built _ hnone => rw [hnone] at hassigned; cases hassigned
      | @stored target other stored known _ hsome hknown hheap =>
        obtain ⟨rfl, rfl, rfl⟩ : target = ref ∧ other = name ∧ stored = value := by
          simpa using hsome.symm.trans hassigned
        rw [hheap, if_pos rfl] at hget
        cases hget
        exact (ih.2 known (get?_of_safepoint hbefore.heap.idle hknown)).put other stored
  | @kept retried again m after writes hlogs hrunning hturn hother ih =>
    have hbefore := orderly_turns hlogs.turns horderly
    refine ⟨ih.1.trans_le (nextRef_turn hbefore hturn), fun fields hget => ih.2 fields ?_⟩
    cases turnRecords hbefore hturn with
    | gaveUp hkept => exact hkept ref fields hget
    | completed hrecorded =>
      refine get?_of_safepoint hbefore.heap.idle ?_
      cases hrecorded with
      | spared _ _ hspared => exact (hspared ref fields).mp hget
      | built _ _ _ _ hheap =>
        have hold : ref ≠ m.safepoint.heap.nextRef := by
          rw [nextRef_safepoint hbefore.heap.idle]
          exact Nat.ne_of_lt ih.1
        rwa [hheap, if_neg hold] at hget
      | @stored target name value known _ hsome _ hheap =>
        have hapart : ref ≠ target := by
          rintro rfl
          exact hother rfl name value (by rw [← assignment?_safepoint, hsome])
        rwa [hheap, if_neg hapart] at hget

/-- What was stored in a record is known as long as the record is in the heap. -/
theorem Turns.logged (hturns : Turns start retried now) (horderly : start.Orderly)
    (hget : now.heap.get? ref = some (.record fields)) : ∃ writes, Logs start ref writes retried now := by
  induction hturns generalizing fields with
  | start => exact ⟨_, .found hget⟩
  | @next retried again m after hturns hrunning hturn ih =>
    have hbefore := orderly_turns hturns horderly
    have hidle := hbefore.heap.idle
    have hkept (known : Fields) (hknown : m.heap.get? ref = some (.record known))
        (hother : again = false → ∀ name value, m.assignment? ≠ some (ref, name, value)) :
        ∃ writes, Logs start ref writes again after := by
      obtain ⟨writes, hlogs⟩ := ih hknown
      exact ⟨writes, .kept hlogs hrunning hturn hother⟩
    cases turnRecords hbefore hturn with
    | gaveUp hbefore => exact hkept fields (hbefore ref fields hget) nofun
    | completed hrecorded =>
      cases hrecorded with
      | spared _ hnone hspared =>
        refine hkept fields (get?_of_safepoint hidle ((hspared ref fields).mp hget)) fun _ name value => ?_
        rw [← assignment?_safepoint, hnone]
        exact nofun
      | @built writes known hsome hnone _ htop hheap =>
        by_cases hnew : ref = m.safepoint.heap.nextRef
        · rw [literal?_safepoint] at hsome
          exact ⟨writes, .built hturns hrunning hturn hsome (hnew ▸ htop)⟩
        · rw [hheap, if_neg hnew] at hget
          refine hkept fields (get?_of_safepoint hidle hget) fun _ name value => ?_
          rw [← assignment?_safepoint, hnone]
          exact nofun
      | @stored target name value known _ hsome hknown hheap =>
        rw [assignment?_safepoint] at hsome
        by_cases hsame : ref = target
        · subst hsame
          obtain ⟨writes, hlogs⟩ := ih (get?_of_safepoint hidle hknown)
          exact ⟨_, .stored hlogs hrunning hturn hsome⟩
        · rw [hheap, if_neg hsame] at hget
          refine hkept fields (get?_of_safepoint hidle hget) fun _ other stored hassigned => hsame ?_
          rw [hsome] at hassigned
          simp only [Option.some.injEq, Prod.mk.injEq] at hassigned
          exact hassigned.1.symm

/-- A value gives way to another on top of the stack. -/
theorem replaceTop_one (hthere : 0 < m.stack.size) (hroom : m.stack.size ≤ m.config.maxStackSize.toNat)
    (value : Value) :
    replaceTop 1 value m =
      .ok () { m with stack := m.stack.pop.push value, leftovers := m.leftBehind (m.stack.size - 1) } := by
  have hfits : ¬ m.config.maxStackSize.toNat ≤ m.stack.pop.size := by
    rw [Array.size_pop]
    omega
  simp only [replaceTop]
  rw [bind_apply, modify_apply]
  simp only [push]
  rw [get_bind_apply, stack_cut, shrink_pred]
  exact congrFun (if_neg hfits) _

theorem execute_getField {a : Nat} (b : Nat) {chunk : Chunk} {name : String} (hchunk : m.chunk = some chunk)
    (hname : chunk.strings[a]? = some name) : execute .getField a b m = getField name m := by
  simp only [execute, Exec.chunk]
  rw [bind_apply, get_bind_apply, hchunk]
  simp only [expect, pure_apply]
  rw [bind_apply, hname]
  rfl

/-- An instruction that reads a field of a record. -/
theorem dispatch_reading {name : String} (hreading : m.reading? = some (ref, name))
    (hget : m.heap.get? ref = some (.record fields)) (hroom : m.stack.size ≤ m.config.maxStackSize.toNat) :
    ∃ ip leftovers, dispatch m = match fields.find? name with
      | some found => .ok () { m with ip, stack := m.stack.pop.push found, leftovers }
      | none => .error (.failure (.about .unknownField name s!"record has no field '{name}'")) { m with ip } := by
  simp only [reading?] at hreading
  split at hreading
  · rename_i a b hinstruction
    simp only [Option.bind_eq_bind, Option.bind_eq_some_iff, Option.some.injEq, Prod.mk.injEq] at hreading
    obtain ⟨other, ⟨chunk, hchunk, hname⟩, value, htop, target, htarget, rfl, rfl⟩ := hreading
    refine ⟨m.ip + Opcode.getField.size, m.leftBehind (m.stack.size - 1), ?_⟩
    rw [dispatch_eq, hinstruction]
    dsimp only
    rw [execute_getField (m := { m with ip := m.ip + Opcode.getField.size }) b hchunk hname]
    have hthere : 0 < m.stack.size := by
      rw [Array.back?_eq_getElem?] at htop
      obtain ⟨hsize, -⟩ := Array.getElem?_eq_some_iff.mp htop
      omega
    rw [getField_record (m := { m with ip := m.ip + Opcode.getField.size }) htop htarget hget]
    cases fields.find? other with
    | some found => exact replaceTop_one (m := { m with ip := m.ip + Opcode.getField.size }) hthere hroom found
    | none => rfl
  · cases hreading

theorem reading?_safepoint (m : Machine) : m.safepoint.reading? = m.reading? := by
  obtain ⟨trace, hcollected | hsame⟩ := m.safepoint_cases
  · rw [hcollected]
    rfl
  · rw [hsame]
    rfl

theorem stack_of_reading {name : String} (hreading : m.reading? = some (ref, name)) : .ofRef ref ∈ m.stack := by
  simp only [reading?] at hreading
  split at hreading
  · simp only [Option.bind_eq_bind, Option.bind_eq_some_iff, Option.some.injEq, Prod.mk.injEq] at hreading
    obtain ⟨-, -, value, htop, target, htarget, rfl, -⟩ := hreading
    cases value with
    | scalar => cases htarget
    | object target =>
      cases htarget
      exact Array.mem_of_back? htop
  · cases hreading

theorem readsLast {name : String} (horderly : now.Orderly) (hroom : now.stack.size ≤ now.config.maxStackSize.toNat)
    (hreading : now.reading? = some (ref, name)) (hget : now.heap.get? ref = some (.record fields))
    (htells : fields.Tells writes) : ReadsLast retried now writes name := by
  have hkept := get?_safepoint_of_stack horderly.heap.idle (stack_of_reading hreading)
    (show _ = some ref from rfl)
  obtain ⟨hconfig, -, -, -, -, -, hstack⟩ := safepoint_same now
  obtain ⟨ip, leftovers, hdispatch⟩ := dispatch_reading (m := now.safepoint)
    ((reading?_safepoint now).trans hreading) (hkept.trans hget) (by rw [hstack, hconfig]; exact hroom)
  rw [htells.values] at hdispatch
  have hfound (value : Value) (hvalue : Fields.lastStored? writes name = some value) :
      ∃ after, turn retried now = .ok false after ∧ after.stack = now.stack.pop.push value := by
    rw [hvalue] at hdispatch
    refine ⟨_, by rw [turn, hdispatch], ?_⟩
    dsimp only
    rw [hstack]
  refine ⟨hfound, ⟨?_, fun hnever => ?_⟩⟩
  · rintro ⟨diagnostic, after, hturn, -⟩
    rw [← Fields.lastStored?_eq_none]
    cases hvalue : Fields.lastStored? writes name with
    | none => rfl
    | some value =>
      obtain ⟨_, hturned, -⟩ := hfound value hvalue
      rw [hturn] at hturned
      cases hturned
  · rw [Fields.lastStored?_eq_none.mpr hnever] at hdispatch
    exact ⟨_, _, by rw [turn, hdispatch]; rfl, rfl⟩

theorem storesOne {name : String} {value : Value} (horderly : now.Orderly)
    (hassigned : now.assignment? = some (ref, name, value)) (hturn : turn retried now = .ok false after) :
    StoresOne now after ref name value := by
  have hidle := horderly.heap.idle
  rw [← assignment?_safepoint] at hassigned
  cases turnRecords horderly hturn with
  | completed hrecorded =>
    cases hrecorded with
    | spared _ hnone => rw [hnone] at hassigned; cases hassigned
    | built _ hnone => rw [hnone] at hassigned; cases hassigned
    | @stored target other stored known _ hsome hknown hheap =>
      obtain ⟨rfl, rfl, rfl⟩ : target = ref ∧ other = name ∧ stored = value := by
        simpa using hsome.symm.trans hassigned
      refine ⟨⟨known, known.put other stored, get?_of_safepoint hidle hknown, by rw [hheap, if_pos rfl], ?_,
        fun another hother => ?_⟩, fun another fields hother hget => ?_⟩
      · rw [Fields.find?_put, if_pos rfl]
      · rw [Fields.find?_put, if_neg hother.symm]
      · rw [hheap, if_neg hother] at hget
        exact get?_of_safepoint hidle hget

/-- In every run that serves a request of a host, records are maps that remember the order of insertion, at every
instruction boundary. -/
theorem session_recordsAreMaps {config : Config} {m start now : Machine} {request : HostRequest} {retried : Bool}
    (hsession : Session doesAnything config m) (hbegins : Begins request m start) (hturns : Turns start retried now) :
    RecordsAreMaps start retried now := by
  have hfurnished := fun after (_ : Passes request m after) => furnished_anything after
  have hstart := (enduring_distinct config).good_passes hbegins.passes
    ((enduring_distinct config).good_session hsession.provided) hfurnished
  have hnow := (enduring_distinct config).good_turns hturns hstart fun _ m _ => furnished_anything m
  have hshape := (enduring_inShape config).good_turns hturns ((enduring_inShape config).good_passes hbegins.passes
    ((enduring_inShape config).good_session hsession.provided) hfurnished) fun _ m _ => furnished_anything m
  have htells (ref : Ref) (fields : Fields) (writes : List (String × Value))
      (hget : now.heap.get? ref = some (.record fields)) (hlogs : Logs start ref writes retried now) :
      fields.Tells writes := (hlogs.tells hstart.orderly hstart.holds).2 fields hget
  refine {
    distinct := hnow.holds
    logged := fun ref fields hget => hturns.logged hstart.orderly hget
    tells := htells
    builds := fun writes after hliteral hturn => ?_
    reads := fun ref name fields writes hreading hget hlogs =>
      readsLast hnow.orderly hshape.holds.1.stack hreading hget (htells ref fields writes hget hlogs)
    destructures := fun ref fields writes matchers hget hlogs => ?_
    stores := fun ref name value after hassigned hturn => storesOne hnow.orderly hassigned hturn }
  · rw [← literal?_safepoint] at hliteral
    cases turnRecords hnow.orderly hturn with
    | completed hrecorded =>
      cases hrecorded with
      | spared hnone => rw [hnone] at hliteral; cases hliteral
      | stored hnone => rw [hnone] at hliteral; cases hliteral
      | @built stored known hsome _ hbuilt htop hheap =>
        obtain rfl : stored = writes := Option.some.inj (hsome.symm.trans hliteral)
        exact ⟨_, known, htop, by rw [hheap, if_pos rfl], hbuilt⟩
  · have hobject : now.heap.objectOf? (.ofRef ref) = some (.record fields) := hget
    rw [Heap.matchValue, hobject]
    exact (htells ref fields writes hget hlogs).matchFields now.heap matchers

/-- A script that builds a record from a literal with a repeated name, assigns to its second field and reads that. -/
def repeatedUnit : CodeUnit :=
  let empty : Chunk := {
    constants := #[.scalar (.int 7), .scalar (.int 8), .scalar (.int 9)]
    strings := #["b"]
    shapes := #[["a", "b", "a"]] }
  let first := (empty.writeOp .constant {}).writeShort 0 {}
  let second := (first.writeOp .constant {}).writeShort 1 {}
  let third := (second.writeOp .constant {}).writeShort 2 {}
  let record := ((third.writeOp .record {}).writeShort 0 {}).writeOp .dup {}
  let value := (record.writeOp .constant {}).writeShort 0 {}
  let assigned := ((value.writeOp .setField {}).writeShort 0 {}).writeOp .pop {}
  let read := (assigned.writeOp .getField {}).writeShort 0 {}
  { script := some { name := "<script>", chunk := some (read.writeOp .halt {}), maxSlots := 5 } }

/-- The entries of the record that the next instruction reads, and the name of the field. -/
def readEntries (m : Machine) : Option (List (String × Value) × String) :=
  match m.reading? with
  | some (ref, name) =>
    match m.heap.get? ref with
    | some (.record fields) => some (fields.entries, name)
    | _ => none
  | none => none

/-- Before the field is read the record lists each name once, and the value that was assigned is read. -/
theorem session_recordsAreMaps_repeated :
    ∃ start retried now ref fields writes, Begins (.execute repeatedUnit) (.ofConfig {}) start ∧
      Turns start retried now ∧ now.heap.get? ref = some (.record fields) ∧
      fields.entries = [("a", .scalar (.int 9)), ("b", .scalar (.int 7))] ∧ Logs start ref writes retried now ∧
      fields.Tells writes ∧ ∃ after, turn retried now = .ok false after ∧
        after.stack.back? = some (.scalar (.int 7)) := by
  have hreached : (boundary repeatedUnit 8 (.ofConfig {})).bind readEntries =
      some ([("a", .scalar (.int 9)), ("b", .scalar (.int 7))], "b") := by decide +kernel
  obtain ⟨now, hboundary, hread⟩ := Option.bind_eq_some_iff.mp hreached
  unfold boundary at hboundary
  split at hboundary
  · rename_i start hstart
    obtain ⟨retried, hturns⟩ := Turns.start.advance hboundary
    have hbegins : Begins (.execute repeatedUnit) (.ofConfig {}) start := .script hstart
    have hsession : Session doesAnything {} (.ofConfig {}) := .fresh
    have hmaps := session_recordsAreMaps hsession hbegins hturns
    unfold readEntries at hread
    split at hread
    · rename_i ref name hreading
      split at hread
      · rename_i fields hget
        simp only [Option.some.injEq, Prod.mk.injEq] at hread
        obtain ⟨hentries, rfl⟩ := hread
        obtain ⟨writes, hlogs⟩ := hmaps.logged ref fields hget
        have htells := hmaps.tells ref fields writes hget hlogs
        have hlast : Fields.lastStored? writes "b" = some (.scalar (.int 7)) := by
          rw [← htells.values, Fields.find?, hentries]
          rfl
        obtain ⟨after, hturn, hstack⟩ := (hmaps.reads ref "b" fields writes hreading hget hlogs).found _ hlast
        exact ⟨start, retried, now, ref, fields, writes, hbegins, hturns, hget, hentries, hlogs, htells, after, hturn,
          by rw [hstack, Array.back?_push]⟩
      · cases hread
    · cases hread
  · cases hboundary

end Exec

end OwnScript
