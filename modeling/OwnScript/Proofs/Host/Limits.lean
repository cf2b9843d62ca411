import OwnScript.Proofs.Host.Accounting
import OwnScript.Proofs.Host.Schedules

/-!
The limits of a machine are never exceeded: not the bytes in use, not the height of the operand stack
and not the number of active calls. What an instruction makes sure of before it builds a container or
lets one grow is never less than what the container then takes.
-/

namespace OwnScript

open Stateful

namespace Machine

/-- The stack and the calls of a machine are within its limits. Below the slots of every call there is
one for its function, so that its end does not lift the stack past the limit, and no closure captures that
of the first call. -/
structure InShape (m : Machine) : Prop where
  stack : m.stack.size ≤ m.config.maxStackSize.toNat
  frames : m.frames.size ≤ max 1 m.config.maxCallDepth.toNat
  bases : ∀ frame ∈ m.frames, 0 < frame.base ∧ frame.base ≤ m.config.maxStackSize.toNat
  slots : ∀ entry ∈ m.openCells, 0 < entry.slot

variable {asked : Nat → Prop} {m after : Machine}

theorem Orderly.live_eq (horderly : m.Orderly) (hspace : m.heap.Addressable) :
    m.live = m.heap.footprint :=
  horderly.heap.accounted.toNat_bytesLive hspace

/-- An object that fits by the words of the account fits. -/
theorem Orderly.link_le (horderly : m.Orderly) {object : Object}
    (hroom : m.heap.statistics.bytesLive + object.memorySize.toUInt64 ≤ m.heap.config.maxHeapBytes)
    (hspace : (m.heap.link object).Addressable) : (m.heap.link object).footprint ≤ m.limit := by
  have htotal := Heap.footprint_link horderly.heap.bounded object
  have hword : UInt64.size = 2 ^ 64 := rfl
  unfold Heap.Addressable at hspace
  have hlive : m.heap.statistics.bytesLive.toNat = m.heap.footprint :=
    horderly.live_eq (show m.heap.footprint < _ by omega)
  have hwhole : object.memorySize.toUInt64.toNat = object.memorySize := Nat.mod_eq_of_lt (by omega)
  rw [UInt64.le_iff_toNat_le, UInt64.toNat_add, hwhole, hlive, Nat.mod_eq_of_lt (by omega)] at hroom
  rw [htotal]
  exact hroom

/-- A container that is built takes no more than was asked for. -/
theorem footprint_built (horderly : m.Orderly) {bytes : Nat} {empty object : Object}
    (hfilled : Object.Filled bytes empty object) :
    ((m.heap.link empty).store m.heap.nextRef object).footprint ≤ m.heap.footprint + bytes := by
  have hlinked := Heap.footprint_link horderly.heap.bounded empty
  have hempty : (m.heap.link empty).get? m.heap.nextRef = some empty := by simp [Heap.get?_link]
  have hstored := Heap.footprint_store hempty object
  have hsize := hfilled.memorySize_le.2
  omega

theorem footprint_appended {ref : Ref} {fields : Fields} (hrecord : m.heap.get? ref = some (.record fields))
    (name : String) (value : Value) :
    (m.heap.store ref (.record (fields.append name value))).footprint =
      m.heap.footprint + fields.growth name := by
  have hstored := Heap.footprint_store hrecord (.record (fields.append name value))
  rw [fields.memorySize_append] at hstored
  omega

theorem footprint_left (horderly : m.Orderly) (frame : Frame) :
    (Exec.left m frame).heap.footprint = m.heap.footprint := by
  have hpopped : Orderly { m with frames := m.frames.pop } := horderly.of_eq rfl rfl
  exact (tended_closeCells hpopped frame.base).2

/-- No change takes the bytes in use past the limit. -/
theorem Change.bytes_le (hchange : Change (· < UInt64.size) m after) (horderly : m.Orderly)
    (hspace : after.heap.Addressable) (hbytes : m.heap.footprint ≤ m.limit) :
    after.heap.footprint ≤ m.limit := by
  have hlive := horderly.live_eq (lt_of_le_of_lt hbytes (UInt64.toNat_lt _))
  cases hchange with
  | pushed | cut | leftBehind | assigned | defined | printed | jumped | entered => exact hbytes
  | parked halike => exact (Heap.footprint_congr halike.get?).le.trans hbytes
  | linked _ hroom => exact horderly.link_le hroom hspace
  | @built bytes empty object hfilled hasked hroom =>
    have hwhole : bytes.toUInt64.toNat = bytes := Nat.mod_eq_of_lt hasked
    have hbuilt := footprint_built horderly hfilled
    rw [hwhole] at hroom
    exact hbuilt.trans (by omega)
  | @edited ref old new hold hedited =>
    have hupdated := Heap.footprint_update hold new
    rw [hedited.memorySize_eq] at hupdated
    exact le_of_eq_of_le (Nat.add_right_cancel hupdated) hbytes
  | @appended ref fields name value hold hnew hroom =>
    have hgrown := footprint_appended hold name value
    have hwhole : (fields.growth name).toUInt64.toNat = fields.growth name := by
      refine Nat.mod_eq_of_lt (lt_of_le_of_lt ?_ hspace)
      rw [hgrown]
      exact Nat.le_add_left _ _
    rw [hwhole] at hroom
    rw [hgrown]
    omega
  | captured slot _ _ hroom => exact horderly.link_le hroom hspace
  | closed slot => exact (tended_closeCells horderly slot).2.le.trans hbytes
  | @returned frame => exact (footprint_left horderly frame).le.trans hbytes
  | @finished frame => exact (footprint_left horderly frame).le.trans hbytes

theorem inShape_of_empty (hstack : m.stack = #[]) (hframes : m.frames = #[])
    (hslots : ∀ entry ∈ m.openCells, 0 < entry.slot) : m.InShape := by
  refine ⟨?_, ?_, fun frame hframe => ?_, hslots⟩
  · simp [hstack]
  · simp [hframes]
  · simp [hframes] at hframe

theorem InShape.of_core (hshape : m.InShape) (hsame : SameCore m after) : after.InShape := by
  obtain ⟨hconfig, -, hstack, hframes, hcells⟩ := hsame
  refine ⟨?_, ?_, ?_, ?_⟩
  · rw [hstack, hconfig]
    exact hshape.stack
  · rw [hframes, hconfig]
    exact hshape.frames
  · rw [hframes, hconfig]
    exact hshape.bases
  · rw [hcells]
    exact hshape.slots

/-- When a call ends the stack goes back to where it was before the call. -/
theorem InShape.left (hshape : m.InShape) {frame : Frame} (hframe : m.frames.back? = some frame) :
    (Exec.left m frame).InShape := by
  refine ⟨?_, ?_, fun other hother => ?_, fun entry hentry => ?_⟩
  · obtain ⟨-, hbase⟩ := hshape.bases frame (Array.mem_of_back? hframe)
    exact le_of_eq_of_le (size_left m frame) ((Nat.sub_le _ _).trans hbase)
  · have hpopped : (Exec.left m frame).frames.size = m.frames.size - 1 := Array.size_pop
    exact hpopped.le.trans ((Nat.sub_le _ _).trans hshape.frames)
  · refine hshape.bases other ?_
    have hpopped : other ∈ m.frames.pop.toList := Array.mem_toList_iff.mpr hother
    rw [Array.toList_pop] at hpopped
    exact Array.mem_toList_iff.mp (List.mem_of_mem_dropLast hpopped)
  · exact hshape.slots entry (mem_closeCells hentry)

/-- No change takes the stack or the calls past their limits. -/
theorem Change.inShape (hchange : Change asked m after) (hshape : m.InShape) : after.InShape := by
  have hstack := hshape.stack
  cases hchange with
  | pushed value hroom => exact ⟨by simpa using hroom, hshape.frames, hshape.bases, hshape.slots⟩
  | cut height =>
    have hless : (m.stack.shrink height).size ≤ m.stack.size := by simp
    exact ⟨hless.trans hstack, hshape.frames, hshape.bases, hshape.slots⟩
  | assigned slot value => exact ⟨by simpa using hstack, hshape.frames, hshape.bases, hshape.slots⟩
  | leftBehind | defined | printed | jumped | parked | linked | built | edited | appended =>
    exact ⟨hstack, hshape.frames, hshape.bases, hshape.slots⟩
  | closed slot => exact ⟨hstack, hshape.frames, hshape.bases, fun entry h => hshape.slots entry (mem_closeCells h)⟩
  | captured slot hreach =>
    refine ⟨hstack, hshape.frames, hshape.bases, fun entry hentry => ?_⟩
    rcases mem_insertCell.mp hentry with rfl | hold
    · obtain ⟨frame, hframe, hbase⟩ := hreach
      exact (hshape.bases frame (Array.mem_of_back? hframe)).1.trans_le hbase
    · exact hshape.slots entry hold
  | entered argumentCount hget hdepth hheight =>
    refine ⟨hstack, ?_, fun frame hframe => ?_, hshape.slots⟩
    · simp only [Exec.entered, Array.size_push]
      omega
    · rcases Array.mem_push.mp hframe with hold | rfl
      · exact hshape.bases frame hold
      · change 0 < m.stack.size - argumentCount ∧ m.stack.size - argumentCount ≤ m.config.maxStackSize.toNat
        omega
  | returned hframe hcaller => exact (hshape.left hframe).of_core ⟨rfl, rfl, rfl, rfl, rfl⟩
  | finished result hframe hcaller => exact (hshape.left hframe).of_core ⟨rfl, rfl, rfl, rfl, rfl⟩

end Machine

namespace Exec

open Machine

/-- An instruction that makes sure of a number of bytes: it gives up exactly when they are not there,
and takes no more than them. -/
structure Reserves (bytes : Nat) (m : Machine) (result : EStateM.Result Fault Machine Unit) : Prop where
  full : Full result ↔ m.limit < m.live + bytes.toUInt64.toNat
  grows : (stateAfter result).heap.footprint ≤ m.heap.footprint + bytes

variable {m : Machine}

/-- Headroom is refused exactly when the bytes are not there. -/
theorem refused_iff (bytes : UInt64) (m : Machine) :
    (∃ refusal heap, Heap.ensureHeadroom bytes m.heap = .error refusal heap) ↔
      m.limit < m.live + bytes.toNat := by
  have hcases := onHeap_ensureHeadroom_cases bytes m
  simp only [onHeap] at hcases
  cases hresult : Heap.ensureHeadroom bytes m.heap with
  | ok value heap =>
    rw [hresult] at hcases
    rcases hcases with ⟨-, hroom⟩ | ⟨hrefused, -⟩
    · simp [Nat.not_lt.mpr hroom]
    · cases hrefused
  | error refusal heap =>
    rw [hresult] at hcases
    rcases hcases with ⟨hgranted, -⟩ | ⟨-, hfull⟩
    · cases hgranted
    · simp [hfull]

theorem reserves_headroom {bytes : Nat} {rest : Exec Unit}
    (hgranted : m.live + bytes.toUInt64.toNat ≤ m.limit →
      ¬ Full (rest m) ∧ (stateAfter (rest m)).heap.footprint ≤ m.heap.footprint + bytes) :
    Reserves bytes m ((onHeap (Heap.ensureHeadroom bytes.toUInt64) >>= fun _ => rest) m) := by
  rw [bind_apply]
  rcases onHeap_ensureHeadroom_cases bytes.toUInt64 m with ⟨hresult, hroom⟩ | ⟨hresult, hfull⟩
  · rw [hresult]
    obtain ⟨hplain, hgrows⟩ := hgranted hroom
    exact ⟨⟨fun h => absurd h hplain, fun h => absurd hroom (Nat.not_le.mpr h)⟩, hgrows⟩
  · rw [hresult]
    exact ⟨⟨fun _ => hfull, fun _ => ⟨_, _, rfl⟩⟩, Nat.le_add_right _ _⟩

/-- Where there is room for a container there is room for an empty one. -/
theorem allocate_of_headroom {bytes : Nat} {empty object : Object}
    (hfilled : Object.Filled bytes empty object) (hsize : bytes < UInt64.size)
    (hroom : m.live + bytes.toUInt64.toNat ≤ m.limit) :
    ∃ parked, Heap.Alike m.heap parked ∧
      onHeap (Heap.allocate empty) m = .ok m.heap.nextRef { m with heap := parked.link empty } := by
  have hwhole : bytes.toUInt64.toNat = bytes := Nat.mod_eq_of_lt hsize
  have hempty : empty.blockSize.toUInt64 = 64 ∧ empty.memorySize.toUInt64 = 64 ∧ 64 ≤ bytes := by
    have hbytes := hfilled.memorySize_le
    cases hfilled with
    | record =>
      have hblock : (Object.record {}).memorySize = 64 := rfl
      exact ⟨rfl, rfl, by omega⟩
    | array =>
      have hblock : (Object.array {}).memorySize = 64 := rfl
      exact ⟨rfl, rfl, by omega⟩
  obtain ⟨hblock, hmemory, hleast⟩ := hempty
  have hfits : m.heap.statistics.bytesLive + 64 ≤ m.heap.config.maxHeapBytes := by
    have hlimit := UInt64.toNat_lt m.heap.config.maxHeapBytes
    rw [UInt64.le_iff_toNat_le, UInt64.toNat_add]
    change (m.live + 64) % 2 ^ 64 ≤ m.limit
    change m.limit < 2 ^ 64 at hlimit
    rw [Nat.mod_eq_of_lt (by omega)]
    omega
  rcases Heap.allocate_cases empty m.heap with
    ⟨parked, halike, -, -, hresult⟩ | ⟨hfull, -⟩ | ⟨parked, -, -, hfull, -⟩
  · exact ⟨parked, halike, by simp [onHeap, hresult]⟩
  · rw [hblock] at hfull
    exact absurd hfits (UInt64.not_le.mpr hfull)
  · rw [hmemory] at hfull
    exact absurd hfits (UInt64.not_le.mpr hfull)

theorem reserves_build (horderly : m.Orderly) {bytes : Nat} {empty object : Object}
    (hfilled : Object.Filled bytes empty object) (hsize : bytes < UInt64.size) (count : Nat) :
    Reserves bytes m (build bytes.toUInt64 empty object count m) := by
  refine reserves_headroom fun hroom => ?_
  obtain ⟨parked, halike, hresult⟩ := allocate_of_headroom hfilled hsize hroom
  rw [bind_apply, hresult]
  have hkept := keepsHeap_replaceTop count (.ofRef m.heap.nextRef)
    { m with heap := (parked.link empty).store m.heap.nextRef object }
  refine ⟨hkept.notFull, le_of_eq_of_le (congrArg Heap.footprint hkept.heap) ?_⟩
  have hparked : Orderly { m with heap := parked } := by
    have hchange : Change (fun _ => True) m { m with heap := parked } := .parked halike
    exact (hchange.tended horderly).orderly
  have hbuilt := footprint_built hparked hfilled
  rw [← halike.nextRef, ← Heap.footprint_congr halike.get?]
  exact hbuilt

theorem topValues_eq {count : Nat} (hcount : count ≤ m.stack.size) :
    topValues count m = .ok (m.stack.extract (m.stack.size - count) m.stack.size) m := by
  simp only [topValues]
  rw [get_bind_apply, if_neg (Nat.not_lt.mpr hcount)]
  rfl

theorem execute_record {a : Nat} (b : Nat) {chunk : Chunk} {names : List String}
    (hchunk : m.chunk = some chunk) (hnames : chunk.shapes[a]? = some names)
    (hcount : names.length ≤ m.stack.size) :
    execute .record a b m = build (recordBytes names).toUInt64 (.record {})
      (.record (.ofLiteral names (m.stack.extract (m.stack.size - names.length) m.stack.size).toList))
      names.length m := by
  simp only [execute, Exec.chunk]
  rw [bind_apply, get_bind_apply, hchunk]
  simp only [expect, pure_apply]
  rw [bind_apply, hnames]
  simp only [pure_apply, buildRecord]
  rw [bind_apply, topValues_eq hcount]
  rfl

theorem execute_array {a : Nat} (b : Nat) (hcount : a ≤ m.stack.size) :
    execute .array a b m = build (64 + a * elementBytes).toUInt64 (.array {})
      (.array (.exactly (m.stack.extract (m.stack.size - a) m.stack.size))) a m := by
  simp only [execute, buildArray]
  rw [bind_apply, topValues_eq hcount]
  rfl

/-- Stores a field that is not there yet, once there is room for it. -/
def storeField (ref : Ref) (fields : Fields) (name : String) (value : Value) : Exec Unit := do
  modify fun m => { m with heap := m.heap.store ref (.record (fields.append name value)) }
  replaceTop 2 value

theorem assignedRecord?_eq_some {fields : Fields} (hrecord : m.assignedRecord? = some fields) :
    ∃ ref, m.heap.get? ref = some (.record fields) ∧ 2 ≤ m.stack.size ∧
      m.stack[m.stack.size - 2]? = some (.ofRef ref) := by
  simp only [assignedRecord?] at hrecord
  split at hrecord
  · rename_i found hfound
    obtain ⟨value, hvalue, hobject⟩ := Option.bind_eq_some_iff.mp hfound
    obtain ⟨ref, href, hget⟩ := Option.bind_eq_some_iff.mp hobject
    split at hrecord
    · rename_i henough
      cases hrecord
      refine ⟨ref, hget, henough, ?_⟩
      rw [hvalue]
      cases value with
      | scalar value => cases href
      | object target =>
        cases href
        rfl
    · cases hrecord
  · cases hrecord

theorem execute_setField {a : Nat} (b : Nat) {chunk : Chunk} {name : String} {fields : Fields}
    (hchunk : m.chunk = some chunk) (hname : chunk.strings[a]? = some name)
    (hrecord : m.assignedRecord? = some fields) (hnew : fields.contains name = false) :
    ∃ ref value, m.heap.get? ref = some (.record fields) ∧
      execute .setField a b m =
        (onHeap (Heap.ensureHeadroom (fields.growth name).toUInt64) >>= fun _ =>
          storeField ref fields name value) m := by
  obtain ⟨ref, hget, henough, hbelow⟩ := assignedRecord?_eq_some hrecord
  obtain ⟨value, hvalue⟩ : ∃ value, m.stack[m.stack.size - 1 - 0]? = some value :=
    ⟨_, Array.getElem?_eq_getElem (by omega)⟩
  have htop : peek 0 m = .ok value m := by
    rw [peek_eq, hvalue]
    exact if_pos (by omega)
  have hunder : peek 1 m = .ok (.ofRef ref) m := by
    rw [peek_eq, Nat.sub_sub, hbelow]
    exact if_pos (by omega)
  have hexpected : expectRecord (.ofRef ref) "field assignment" m = .ok (ref, fields) m := by
    simp only [expectRecord]
    rw [get_bind_apply]
    simp [Value.ofRef, Value.ref?, Heap.objectOf?, hget]
  refine ⟨ref, value, hget, ?_⟩
  simp only [execute, Exec.chunk]
  rw [bind_apply, get_bind_apply, hchunk]
  simp only [expect, pure_apply]
  rw [bind_apply, hname]
  simp only [pure_apply, setField]
  rw [bind_apply, htop]
  dsimp only
  rw [bind_apply, hunder]
  dsimp only
  rw [bind_apply, hexpected]
  dsimp only
  rw [if_neg (by simp [hnew])]
  rfl

/-- What an operation makes sure of is what it needs. -/
theorem reserves_execute (horderly : m.Orderly) {op : Opcode} {a bytes : Nat} (b : Nat)
    (hreserved : m.reservedBy op a = some bytes) (hsize : bytes < UInt64.size) :
    Reserves bytes m (execute op a b m) := by
  cases op with
  | record =>
    simp only [reservedBy, Option.bind_eq_bind, Option.bind_eq_some_iff] at hreserved
    obtain ⟨chunk, hchunk, names, hnames, hbytes⟩ := hreserved
    split at hbytes
    · rename_i hcount
      cases hbytes
      rw [execute_record b hchunk hnames hcount]
      exact reserves_build horderly (.record (by simp; omega)) hsize names.length
    · cases hbytes
  | array =>
    simp only [reservedBy] at hreserved
    split at hreserved
    · rename_i hcount
      cases hreserved
      rw [execute_array b hcount]
      have hlength : (m.stack.extract (m.stack.size - a) m.stack.size).size = a := by
        rw [Array.size_extract]
        omega
      have hfilled := Object.Filled.array (m.stack.extract (m.stack.size - a) m.stack.size)
      rw [hlength] at hfilled
      exact reserves_build horderly hfilled hsize a
    · cases hreserved
  | setField =>
    simp only [reservedBy, Option.bind_eq_bind, Option.bind_eq_some_iff] at hreserved
    obtain ⟨chunk, hchunk, name, hname, fields, hrecord, hbytes⟩ := hreserved
    split at hbytes
    · cases hbytes
    · rename_i hnew
      cases hbytes
      obtain ⟨ref, value, hget, hresult⟩ := execute_setField b hchunk hname hrecord (by simpa using hnew)
      rw [hresult]
      refine reserves_headroom fun _ => ?_
      have hkept := keepsHeap_replaceTop 2 value
        { m with heap := m.heap.store ref (.record (fields.append name value)) }
      refine ⟨hkept.notFull, le_of_eq_of_le (congrArg Heap.footprint hkept.heap) ?_⟩
      exact (footprint_appended hget name value).le
  | _ => cases hreserved

theorem reserves_dispatch (horderly : m.Orderly) {bytes : Nat} (hreserved : m.reserved? = some bytes)
    (hsize : bytes < UInt64.size) : Reserves bytes m (dispatch m) := by
  obtain ⟨⟨op, a, b⟩, hinstruction, hoperation⟩ := Option.bind_eq_some_iff.mp hreserved
  have hready : Orderly { m with ip := m.ip + op.size } := horderly.of_eq rfl rfl
  have hexecuted := reserves_execute hready b (m := { m with ip := m.ip + op.size }) hoperation hsize
  rw [dispatch_eq, hinstruction]
  exact ⟨hexecuted.full, hexecuted.grows⟩

/-- The stack and the calls are within the limits that a machine was set up with. -/
structure StackWithin (config : Config) (m : Machine) : Prop where
  stack : m.stack.size ≤ config.machine.maxStackSize.toNat
  frames : m.frames.size ≤ max 1 config.machine.maxCallDepth.toNat

/-- The bytes in use are within the limit that a machine was set up with, as they are counted and as
the objects take them. -/
structure BytesWithin (config : Config) (m : Machine) : Prop where
  live : m.heap.statistics.bytesLive ≤ config.heap.maxHeapBytes
  contents : m.heap.footprint ≤ config.heap.maxHeapBytes.toNat

/-- A host whose requests never take more than an address space: the objects of the machine fit into
it at all times, and so does what an instruction makes sure of. -/
def fitsAddressSpace (m : Machine) (request : HostRequest) : Prop :=
  Provided (· < UInt64.size) Heap.Addressable m request

theorem enduring_inShape (config : Config) :
    Enduring config (fun _ => True) (fun _ => True)
      (fun m => m.InShape ∧ m.config = config.machine) where
  narrower _ _ := trivial
  spaced _ _ := trivial
  fresh := ⟨inShape_of_empty rfl rfl fun entry hentry => (by simp [ofConfig] at hentry), rfl⟩
  apart hsame hshape := ⟨hshape.1.of_core hsame, hsame.config.trans hshape.2⟩
  emptied hshape := ⟨inShape_of_empty rfl rfl hshape.1.slots, hshape.2⟩
  started _ hheight hshape script := by
    refine ⟨⟨hshape.1.stack, le_max_left _ _, fun frame hframe => ?_, hshape.1.slots⟩, hshape.2⟩
    rw [Array.mem_singleton.mp hframe]
    exact ⟨Nat.one_pos, hheight.trans_le hshape.1.stack⟩
  collected _ hshape := ⟨⟨hshape.1.stack, hshape.1.frames, hshape.1.bases, hshape.1.slots⟩, hshape.2⟩
  changed hchange horderly _ hshape :=
    ⟨hchange.inShape hshape.1, (hchange.tended horderly).config.trans hshape.2⟩

theorem enduring_bytes (config : Config) :
    Enduring config (· < UInt64.size) Heap.Addressable
      (fun m => m.heap.footprint ≤ m.limit ∧ m.heap.config.maxHeapBytes = config.heap.maxHeapBytes) where
  narrower hle hspace := lt_of_le_of_lt hle hspace
  spaced _ hbytes := lt_of_le_of_lt hbytes.1 (UInt64.toNat_lt _)
  fresh := by
    refine ⟨?_, Heap.maxHeapBytes_ofConfig config.heap⟩
    change (Heap.ofConfig config.heap).footprint ≤ _
    rw [Heap.footprint_ofConfig]
    exact Nat.zero_le _
  apart hsame hbytes := by
    rw [limit, hsame.heap]
    exact hbytes
  emptied hbytes := hbytes
  started _ _ hbytes _ := hbytes
  collected {m} horderly hbytes := by
    have hcollected := Heap.collect_spec horderly.heap.idle m.roots
    have hlimit : m.collectGarbage.heap.config = m.heap.config := hcollected.config
    rw [limit, hlimit]
    exact ⟨(footprint_collectGarbage_le horderly).trans hbytes.1, hbytes.2⟩
  changed {m after} hchange horderly hspace hbytes := by
    have hconfig := (hchange.tended horderly).heapConfig
    rw [limit, hconfig]
    exact ⟨hchange.bytes_le horderly hspace hbytes.1, hbytes.2⟩

theorem stackWithin_of_good {config : Config}
    (hgood : Good (fun m => m.InShape ∧ m.config = config.machine) m) : StackWithin config m := by
  obtain ⟨-, hshape, hconfig⟩ := hgood
  exact ⟨hconfig ▸ hshape.stack, hconfig ▸ hshape.frames⟩

theorem bytesWithin_of_good {config : Config}
    (hgood : Good (fun m => m.heap.footprint ≤ m.limit ∧
      m.heap.config.maxHeapBytes = config.heap.maxHeapBytes) m) : BytesWithin config m := by
  obtain ⟨horderly, hbytes, hlimit⟩ := hgood
  have hlive := horderly.live_eq (lt_of_le_of_lt hbytes (UInt64.toNat_lt _))
  rw [limit, hlimit] at hbytes
  refine ⟨?_, hbytes⟩
  rw [UInt64.le_iff_toNat_le]
  exact hlive.le.trans hbytes

/-- The limits of a machine are never exceeded, neither between the requests of a host nor at any
instruction boundary nor by an instruction that fails. For the stack and the calls that holds whatever
the host does, and for the bytes in use as long as the objects fit into an address space. An
instruction that makes sure of some bytes gives up if and only if they are not there, and uses no more
than them. -/
theorem session_withinLimits (config : Config) :
    (∀ m, Session doesAnything config m → StackWithin config m ∧
      ∀ request after, Passes request m after →
        StackWithin config after ∧ StackWithin config (stateAfter (dispatch after.safepoint))) ∧
    ∀ m, Session fitsAddressSpace config m → BytesWithin config m ∧
      ∀ request after, fitsAddressSpace m request → Passes request m after →
        BytesWithin config after ∧ BytesWithin config (stateAfter (dispatch after.safepoint)) ∧
        ∀ bytes, after.safepoint.reserved? = some bytes →
          (Full (dispatch after.safepoint) ↔ ∃ refusal heap,
            Heap.ensureHeadroom bytes.toUInt64 after.safepoint.heap = .error refusal heap) ∧
          (stateAfter (dispatch after.safepoint)).live ≤ after.safepoint.live + bytes := by
  refine ⟨fun m hsession => ?_, fun m hsession => ?_⟩
  · have hlasts := enduring_inShape config
    have hgood := hlasts.good_session hsession.provided
    refine ⟨stackWithin_of_good hgood, fun request after hpasses => ?_⟩
    have hafter := hlasts.good_passes hpasses hgood fun other _ => furnished_anything other
    exact ⟨stackWithin_of_good hafter,
      stackWithin_of_good (hlasts.good_dispatch hafter (furnished_anything after))⟩
  · have hlasts := enduring_bytes config
    have hgood := hlasts.good_session hsession
    refine ⟨bytesWithin_of_good hgood, fun request after hfits hpasses => ?_⟩
    have hafter := hlasts.good_passes hpasses hgood hfits.passes
    have hfurnished := hfits.passes after hpasses
    have hready := hlasts.good_safepoint hafter
    have hdispatched := hlasts.good_dispatch hafter hfurnished
    refine ⟨bytesWithin_of_good hafter, bytesWithin_of_good hdispatched, fun bytes hreserved => ?_⟩
    have hsize := hfurnished.reserved bytes hreserved
    have hreserves := reserves_dispatch hready.orderly hreserved hsize
    refine ⟨hreserves.full.trans (refused_iff _ _).symm, ?_⟩
    rw [hdispatched.orderly.live_eq hfurnished.tried,
      hready.orderly.live_eq (lt_of_le_of_lt hready.holds.1 (UInt64.toNat_lt _))]
    exact hreserves.grows

/-- Whether the next instruction takes no more than an address space and asks for no more. -/
def isFurnished (m : Machine) : Bool :=
  isRoomy m && m.safepoint.reserved?.all (· < UInt64.size)

theorem furnished_of_isFurnished (hfurnished : isFurnished m = true) :
    Furnished (· < UInt64.size) Heap.Addressable m := by
  simp only [isFurnished, Bool.and_eq_true, Option.all_eq_true, decide_eq_true_eq] at hfurnished
  obtain ⟨hbefore, htried⟩ := roomy_of_isRoomy hfurnished.1
  exact ⟨hbefore, htried, hfurnished.2⟩

/-- Whether a script is entered and takes no more than an address space while it runs. -/
def scriptIsFurnished (unit : CodeUnit) (turns : Nat) (m : Machine) : Bool :=
  match enterScript unit m with
  | .ok () start => holdsThroughout isFurnished turns false start
  | .error _ _ => false

/-- A script that takes no more than an address space while it runs leaves no more. -/
theorem fitsAddressSpace_of_scriptIsFurnished {config : Config} {unit : CodeUnit} (turns : Nat)
    (hsession : Session fitsAddressSpace config m) (hfurnished : scriptIsFurnished unit turns m = true) :
    fitsAddressSpace m (.execute unit) := by
  unfold scriptIsFurnished at hfurnished
  have hpasses : ∀ after, Passes (.execute unit) m after →
      Furnished (· < UInt64.size) Heap.Addressable after := by
    intro after hafter
    cases hafter with
    | script hstart hturns =>
      rw [hstart] at hfurnished
      exact furnished_of_isFurnished (hturns.checked hfurnished)
  refine ⟨hpasses, fun fuel => ?_⟩
  have hlasts := enduring_bytes config
  have hrefused : ∀ fault after, enterScript unit m = .error fault after → after.heap.Addressable := by
    intro fault after hstart
    rw [hstart] at hfurnished
    cases hfurnished
  have hloaded := hlasts.good_load (hlasts.good_session hsession) hpasses hrefused fuel
  simp only [serve, stateAfter_discard]
  exact hlasts.spaced hloaded.orderly hloaded.holds

/-- A script that builds a record with one field and gives it another one. -/
def fieldUnit : CodeUnit :=
  let empty : Chunk := { constants := #[.scalar (.int 7)], strings := #["b"], shapes := #[["a"]] }
  let first := (empty.writeOp .constant {}).writeShort 0 {}
  let record := (first.writeOp .record {}).writeShort 0 {}
  let second := (record.writeOp .constant {}).writeShort 0 {}
  let field := (second.writeOp .setField {}).writeShort 0 {}
  { script := some { name := "<script>", chunk := some (field.writeOp .halt {}), maxSlots := 1 } }

/-- Settings with a heap that has room for the script and its record, but not for the other field. -/
def tight : Config :=
  { heap := { maxHeapBytes := 269 } }

/-- The field asks for one byte more than there is and is refused. -/
theorem session_withinLimits_tight :
    StackWithin tight (stateAfter (serve 20 (.execute fieldUnit) (.ofConfig tight))) ∧
      BytesWithin tight (stateAfter (serve 20 (.execute fieldUnit) (.ofConfig tight))) ∧
      ∃ after, Passes (.execute fieldUnit) (.ofConfig tight) after ∧ after.live = 207 ∧
        after.safepoint.reserved? = some 63 ∧ Full (dispatch after.safepoint) ∧
        (stateAfter (dispatch after.safepoint)).live ≤ after.safepoint.live + 63 := by
  have hfresh : Session fitsAddressSpace tight (.ofConfig tight) := .fresh
  have hfits : fitsAddressSpace (.ofConfig tight) (.execute fieldUnit) :=
    fitsAddressSpace_of_scriptIsFurnished 20 hfresh (by decide +kernel)
  have hrun : Session fitsAddressSpace tight (stateAfter (serve 20 (.execute fieldUnit) (.ofConfig tight))) :=
    .next 20 hfresh hfits
  have hfree : Session doesAnything tight (stateAfter (serve 20 (.execute fieldUnit) (.ofConfig tight))) :=
    .next 20 .fresh trivial
  refine ⟨((session_withinLimits tight).1 _ hfree).1, ((session_withinLimits tight).2 _ hrun).1, ?_⟩
  have hreached : (boundary fieldUnit 3 (.ofConfig tight)).map
      (fun m => (m.live, m.safepoint.reserved?, decide (m.safepoint.limit < m.safepoint.live + 63))) =
      some (207, some 63, true) := by decide +kernel
  obtain ⟨after, hafter, hfacts⟩ := Option.map_eq_some_iff.mp hreached
  simp only [Prod.mk.injEq, decide_eq_true_eq] at hfacts
  obtain ⟨hlive, hreserved, hfull⟩ := hfacts
  have hpasses := passes_boundary hafter
  obtain ⟨-, -, hreserves⟩ := ((session_withinLimits tight).2 _ hfresh).2 _ after hfits hpasses
  obtain ⟨hrefused, hgrows⟩ := hreserves 63 hreserved
  exact ⟨after, hpasses, hlive, hreserved, hrefused.mpr ((refused_iff _ _).mpr hfull), hgrows⟩

end Exec

end OwnScript
