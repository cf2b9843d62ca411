import OwnScript.Proofs.Stack.Alignment

/-!
One instruction of an aligned machine. It ends with a machine that is in line again or with an ordinary
fault, never with a complaint about its code; and no slot that has a cell is taken from the stack while the
cell is open.
-/

namespace OwnScript

open Stateful Profile

namespace Machine

/-- The height below which the next instruction leaves the stack alone. -/
def lowWater (m : Machine) : Nat :=
  match m.instruction?, m.chunk, m.frames.back? with
  | some (.ret, _, _), _, some frame => frame.base - 1
  | some (.halt, _, _), _, some frame => frame.base - 1
  | some (op, a, _), some chunk, _ => m.stack.size - op.taken chunk a
  | _, _, _ => m.stack.size

/-- What a completed instruction leaves. Open cells stand for slots on the stack. Those that were open before
stand for slots that the instruction has not touched, unless it wants them itself. -/
structure Advances (globals : GlobalTable) (statements : List Stmt) (m after : Machine) : Prop where
  active : after.halted = false → ∃ frame, after.frames.back? = some frame
  above : after.CellsAbove
  inside : ∀ slot ∈ after.openSlots, slot < after.stack.size
  kept : ∀ slot ∈ after.openSlots, slot ∈ m.openSlots → slot < m.lowWater ∨ slot ∈ m.wanted
  calls : ∀ frame, after.frames.back? = some frame → ∃ known top, after.InLine globals statements known top ∧
    ∀ slot ∈ after.openSlots, known slot

/-- A machine in front of an instruction, with all that is known of it. -/
structure Facing (globals : GlobalTable) (statements : List Stmt) (m : Machine) (known : Nat → Prop)
    (top : Option Bool) (frame : Frame) (function : Prototype) (asScript : Bool) (chunk : Chunk)
    (cells : Array (Option Ref)) (op : Opcode) (a b : Nat) : Prop where
  course : m.OnCourse
  sound : m.Sound
  aligned : m.Aligned globals statements
  line : m.InLine globals statements known top
  innermost : m.frames.back? = some frame
  current : m.Current globals statements known top frame function asScript
  standing : m.Standing frame function cells chunk op a b
  fine : Fine globals chunk frame.argumentCount (Sure globals statements asScript function frame.argumentCount)
    ⟨m.ip, m.stack.size - frame.base, knownIn known frame.base m.stack.size, top⟩ op a b

variable {globals : GlobalTable} {statements : List Stmt} {m after : Machine} {known : Nat → Prop}
  {top : Option Bool} {frame : Frame} {function : Prototype} {asScript : Bool} {chunk : Chunk}
  {cells : Array (Option Ref)} {op : Opcode} {a b : Nat}

theorem Aligned.facing (haligned : m.Aligned globals statements) (hcourse : m.OnCourse) (hsound : m.Sound)
    (hframe : m.frames.back? = some frame) :
    ∃ known top function asScript chunk cells op a b,
      m.Facing globals statements known top frame function asScript chunk cells op a b := by
  obtain ⟨known, top, hline⟩ := haligned.calls frame hframe
  obtain ⟨function, asScript, hcurrent⟩ := hline.current hframe
  obtain ⟨own, cells, chunk, op, a, b, hstanding⟩ := hcourse.inPlace.standing hframe
  obtain ⟨others, hclosure⟩ := hcurrent.closure
  obtain ⟨F, hlaid⟩ := hcurrent.laid
  cases hstanding.closure.symm.trans hclosure
  obtain rfl := Option.some.inj (hstanding.own.symm.trans hlaid.1)
  exact ⟨known, top, function, asScript, F.chunk, cells, op, a, b, hcourse, hsound, haligned, hline, hframe, hcurrent,
    hstanding, hcurrent.sure.fine hlaid hstanding.instruction⟩

namespace Facing

variable (hfacing : m.Facing globals statements known top frame function asScript chunk cells op a b)

include hfacing

theorem instruction : m.instruction? = some (op, a, b) := by
  rw [instruction?, hfacing.standing.running]
  exact hfacing.standing.instruction

theorem heapSound : m.heap.Sound := by
  obtain ⟨ρ, hcorr⟩ := hfacing.sound
  exact hcorr.heap.leftSound

theorem openSound : OpenCellsSound m.heap m.openCells := by
  obtain ⟨ρ, hcorr⟩ := hfacing.sound
  exact hcorr.leftOpen

/-- Unless the instruction makes a closure, every open cell is known. -/
theorem known_of_open (hop : op ≠ .closure) {slot : Nat} (hslot : slot ∈ m.openSlots) : known slot := by
  refine (hfacing.line.cells slot hslot).resolve_right ?_
  rw [wanted_of_ne hfacing.instruction hop]
  exact List.not_mem_nil

/-- Known slots lie below what the profile says has no cell. -/
theorem below {height slot : Nat}
    (hfree : ∀ slot, height ≤ slot → ¬ knownIn known frame.base m.stack.size slot) (hknown : known slot) :
    slot < frame.base + height := by
  by_contra hnot
  have hinside := hfacing.line.inside slot hknown
  have hslot : frame.base + (slot - frame.base) = slot := by omega
  exact hfree (slot - frame.base) (by omega) ⟨by omega, hslot.symm ▸ hknown⟩

theorem kept_closure (hresult : Exec.dispatch m = .ok () after) {ref : Ref} {prototype : Option Prototype}
    {others : Array (Option Ref)} (hclosure : m.heap.get? ref = some (.closure prototype others)) :
    after.heap.get? ref = some (.closure prototype others) := by
  have hpreserved := Exec.preserved_dispatch hfacing.course
  rw [hresult] at hpreserved
  exact hpreserved.closure hfacing.sound.intact hclosure

/-- What the instruction needs of captured variables is there. -/
theorem captured (hop : op ≠ .closure) : Exec.Captured { m with ip := m.ip + op.size } frame cells where
  innermost := hfacing.innermost
  closure := ⟨_, hfacing.standing.closure⟩
  inside _ _ slot hcell hopened :=
    hfacing.line.inside slot (hfacing.known_of_open hop
      (hfacing.sound.listed hfacing.innermost hfacing.standing.closure hcell hopened))

theorem resolves : Resolves { m with ip := m.ip + op.size } chunk cells op a := by
  obtain ⟨⟨enclosing, hverified⟩, hcaptures⟩ := hfacing.course.verified hfacing.standing.closure
  have hresolves := resolves_of_verified hverified hfacing.standing.own hfacing.course.globals
    (fun index hindex => hfacing.sound.hasCell hfacing.innermost hfacing.standing.closure
      (hcaptures ▸ hindex))
    hfacing.standing.starts hfacing.standing.instruction
  exact hresolves

/-- A plain operation has what it needs. -/
theorem supplied (hplain : op.isPlain = true) (htaken : op.taken chunk a ≤ m.stack.size - frame.base)
    (hseen : op.seen ≤ m.stack.size - frame.base)
    (hslot : ∀ slot, op.slot? a = some slot → slot < m.stack.size - frame.base) :
    Exec.Supplied { m with ip := m.ip + op.size } frame chunk cells op a := by
  have hlow := hfacing.current.low
  have hop : op ≠ .closure := by
    rintro rfl
    cases hplain
  exact
    { captured := hfacing.captured hop
      running := hfacing.standing.running
      resolves := hfacing.resolves
      base := hfacing.current.base
      taken := by
        change _ ≤ m.stack.size
        omega
      seen := by
        change _ ≤ m.stack.size
        omega
      slot := fun slot h => by
        have := hslot slot h
        change _ < m.stack.size
        omega }

/-- The instruction ends in the frame in which it has started. -/
theorem advances (hresult : Exec.dispatch m = .ok () after) (hframes : after.frames = m.frames)
    (knownAfter : Nat → Prop) (topAfter : Option Bool) (habove : after.CellsAbove)
    (hopen : ∀ slot ∈ after.openSlots, knownAfter slot)
    (hinside : ∀ slot, knownAfter slot → 0 < slot ∧ slot < after.stack.size)
    (hold : ∀ slot < frame.base, knownAfter slot → known slot)
    (hkept : ∀ slot ∈ after.openSlots, slot ∈ m.openSlots → slot < m.lowWater ∨ slot ∈ m.wanted)
    (hanswer : ∀ flag, topAfter = some flag → Exec.TopIs flag after)
    (hlow : frame.base ≤ after.stack.size)
    (hsure : Sure globals statements asScript function frame.argumentCount
      ⟨after.ip, after.stack.size - frame.base, knownIn knownAfter frame.base after.stack.size, topAfter⟩) :
    m.Advances globals statements after where
  active _ := ⟨frame, hframes ▸ hfacing.innermost⟩
  above := habove
  inside slot hslot := (hinside slot (hopen slot hslot)).2
  kept := hkept
  calls _ _ :=
    ⟨knownAfter, topAfter,
      { inside := hinside
        cells := fun slot hslot => .inl (hopen slot hslot)
        calls := hfacing.current.proceed hfacing.innermost hframes
          (fun _ _ _ h => hfacing.kept_closure hresult h) hold hlow hsure
        answer := hanswer }, hopen⟩

theorem lowWater (hret : op ≠ .ret) (hhalt : op ≠ .halt) : m.lowWater = m.stack.size - op.taken chunk a := by
  unfold Machine.lowWater
  rw [hfacing.instruction, hfacing.standing.running, hfacing.innermost]
  cases op with
  | ret => exact absurd rfl hret
  | halt => exact absurd rfl hhalt
  | _ => rfl

/-- The instruction works on the top of the frame and goes on behind. -/
theorem advances_upholding (hmoves : op.moves = false) (hop : op ≠ .closure) {start : Machine}
    (hresult : Exec.execute op a b { m with ip := m.ip + op.size } = .ok () after)
    (hupholds : Upholds (compiledOnly globals) start after) (hstart : start.openCells = m.openCells)
    (htaken : op.taken chunk a ≤ m.stack.size - frame.base)
    (hfree : ∀ slot, m.stack.size - frame.base - op.taken chunk a ≤ slot →
      ¬ knownIn known frame.base m.stack.size slot)
    (hsize : m.stack.size - op.taken chunk a ≤ after.stack.size) (topAfter : Option Bool)
    (hanswer : ∀ flag, topAfter = some flag → Exec.TopIs flag after)
    (hsure : Sure globals statements asScript function frame.argumentCount
      ⟨m.ip + op.size, after.stack.size - frame.base, knownIn known frame.base m.stack.size, topAfter⟩) :
    m.Advances globals statements after := by
  have hsteady : Steady (fun _ _ => True) { m with ip := m.ip + op.size }
      (Exec.stateAfter (Exec.execute op a b { m with ip := m.ip + op.size })) :=
    Exec.steady_execute hmoves a b fun _ _ _ _ _ _ _ => trivial
  rw [hresult] at hsteady
  have hlow := hfacing.current.low
  have hcells : after.openCells = m.openCells := hupholds.openCells.trans hstart
  have hopen (slot : Nat) (hslot : slot ∈ after.openSlots) : slot ∈ m.openSlots := by
    rw [openSlots, hcells] at hslot
    exact hslot
  have hbelow (slot : Nat) (hknown : known slot) : slot < m.stack.size - op.taken chunk a := by
    have := hfacing.below hfree hknown
    omega
  have hreturns : op ≠ .ret ∧ op ≠ .halt := by
    constructor
    all_goals
      rintro rfl
      cases hmoves
  refine hfacing.advances ?_ hsteady.frames known topAfter ?_ ?_ ?_ ?_ ?_ hanswer ?_ ?_
  · rw [hfacing.standing.dispatch_eq]
    exact hresult
  · intro entry hentry
    exact hfacing.aligned.above entry (hcells ▸ hentry)
  · exact fun slot hslot => hfacing.known_of_open hop (hopen slot hslot)
  · exact fun slot hknown => ⟨(hfacing.line.inside slot hknown).1, (hbelow slot hknown).trans_le hsize⟩
  · exact fun _ _ hknown => hknown
  · intro slot _ hslot
    rw [hfacing.lowWater hreturns.1 hreturns.2]
    exact .inl (hbelow slot (hfacing.known_of_open hop hslot))
  · omega
  · have hip : after.ip = m.ip + op.size := hsteady.ip
    rw [hip]
    refine hsure.of_held fun slot h => ⟨?_, h.2⟩
    exact (hfacing.line.inside _ h.2).2

/-- The closure that runs has the cells that a closure inside takes over from it. -/
theorem outer_cells (hop : op = .closure) {prototype : Prototype}
    (hfound : chunk.functions[a]? = some (some prototype)) :
    ∀ capture ∈ prototype.captures, capture.isLocal = false → capture.index < cells.size := by
  subst hop
  intro capture hcapture hother
  obtain ⟨other, hagain, hhas⟩ := hfacing.resolves
  cases hfound.symm.trans hagain
  obtain ⟨cell, state, hcell, -⟩ := hhas capture hcapture hother
  exact (Array.getElem?_eq_some_iff.mp hcell).1

theorem execute_closure (hop : op = .closure) {prototype : Prototype}
    (hfound : chunk.functions[a]? = some (some prototype)) :
    Exec.execute op a b { m with ip := m.ip + op.size } =
      Exec.pushClosure prototype { m with ip := m.ip + op.size } := by
  subst hop
  have hchunk : Machine.chunk { m with ip := m.ip + Opcode.closure.size } = some chunk :=
    hfacing.standing.running
  rw [Exec.execute_closure a b hchunk, hfound]

end Facing

end Machine

namespace Exec

open Machine

variable {globals : GlobalTable} {statements : List Stmt}
  {m : Machine} {known : Nat → Prop} {top : Option Bool} {frame : Frame} {function : Prototype}
  {asScript : Bool} {chunk : Chunk} {cells : Array (Option Ref)} {op : Opcode} {a b : Nat}

/-- An instruction keeps the machine in line or runs into an ordinary fault. -/
abbrev Steps (globals : GlobalTable) (statements : List Stmt) (m : Machine) :
    EStateM.Result Fault Machine Unit → Prop :=
  EndsWell (Tends (compiledOnly globals) m) (fun _ after => m.Advances globals statements after)

theorem steps_plain (hfacing : m.Facing globals statements known top frame function asScript chunk cells op a b)
    (hplain : op.isPlain = true) (htaken : op.taken chunk a ≤ m.stack.size - frame.base)
    (hseen : op.seen ≤ m.stack.size - frame.base)
    (hslot : ∀ slot, op.slot? a = some slot → slot < m.stack.size - frame.base)
    (hfree : ∀ slot, m.stack.size - frame.base - op.taken chunk a ≤ slot →
      ¬ knownIn known frame.base m.stack.size slot)
    (hnext : Sure globals statements asScript function frame.argumentCount ⟨m.ip + op.size,
      m.stack.size - frame.base - op.taken chunk a + op.given, knownIn known frame.base m.stack.size, none⟩) :
    Steps globals statements m (execute op a b { m with ip := m.ip + op.size }) := by
  have hlow := hfacing.current.low
  have hoffers : Offers (compiledOnly globals) { m with ip := m.ip + op.size } :=
    ⟨hfacing.aligned.offers.heap, hfacing.aligned.offers.stack⟩
  have hop : op ≠ .closure := by
    rintro rfl
    cases hplain
  have hmoves : op.moves = false := by
    cases op with
    | jump | jumpIfFalse | jumpIfTrue | loopBack | call | ret | halt => cases hplain
    | _ => rfl
  refine (leaves_plain hoffers hfacing.heapSound hplain (hfacing.supplied hplain htaken hseen hslot)
    (fun _ value => hfacing.aligned.admitted a value) b).upgrade (fun after h => ?_) ?_
  · exact ⟨h.offers, h.follows, h.globals⟩
  · intro _ after hresult hupholds hsize
    change after.stack.size = m.stack.size - op.taken chunk a + op.given at hsize
    refine hfacing.advances_upholding hmoves hop hresult hupholds rfl htaken hfree (by omega) none
      (fun _ h => by cases h) ?_
    have hheight : after.stack.size - frame.base =
        m.stack.size - frame.base - op.taken chunk a + op.given := by omega
    rw [hheight]
    exact hnext

/-- The machine after a match: what was bound is on the frame, or nothing is, and the answer is on top. -/
theorem steps_matching (hfacing : m.Facing globals statements known top frame function asScript chunk cells op a b)
    (hop : op = .matchValue ∨ op = .matchArgs) {count : Nat} {accepted : Prop}
    (hmatches : accepted → Sure globals statements asScript function frame.argumentCount ⟨m.ip + op.size,
      m.stack.size - frame.base + count + 1, knownIn known frame.base m.stack.size, some true⟩)
    (hfails : Sure globals statements asScript function frame.argumentCount ⟨m.ip + op.size,
      m.stack.size - frame.base + 1, knownIn known frame.base m.stack.size, some false⟩)
    (hends : EndsWell (Upholds (compiledOnly globals) { m with ip := m.ip + op.size })
      (fun _ after => (accepted ∧ after.stack.size = m.stack.size + count + 1 ∧ TopIs true after) ∨
        (after.stack.size = m.stack.size + 1 ∧ TopIs false after))
      (execute op a b { m with ip := m.ip + op.size })) :
    Steps globals statements m (execute op a b { m with ip := m.ip + op.size }) := by
  have hlow := hfacing.current.low
  have hquiet : op.moves = false ∧ op ≠ .closure ∧ op.taken chunk a = 0 := by
    rcases hop with rfl | rfl
    · exact ⟨rfl, by decide, rfl⟩
    · exact ⟨rfl, by decide, rfl⟩
  obtain ⟨hmoves, hclosure, htaken⟩ := hquiet
  have hfree (slot : Nat) (hslot : m.stack.size - frame.base - op.taken chunk a ≤ slot) :
      ¬ knownIn known frame.base m.stack.size slot := by
    rintro ⟨hinside, -⟩
    omega
  refine hends.upgrade (fun after h => ⟨h.offers, h.follows, h.globals⟩) fun _ after hresult hupholds h => ?_
  rcases h with ⟨haccepted, hsize, htop⟩ | ⟨hsize, htop⟩
  · refine hfacing.advances_upholding hmoves hclosure hresult hupholds rfl (by omega) hfree (by omega) (some true)
      (fun flag h => Option.some.inj h ▸ htop) ?_
    have hheight : after.stack.size - frame.base = m.stack.size - frame.base + count + 1 := by omega
    rw [hheight]
    exact hmatches haccepted
  · refine hfacing.advances_upholding hmoves hclosure hresult hupholds rfl (by omega) hfree (by omega) (some false)
      (fun flag h => Option.some.inj h ▸ htop) ?_
    have hheight : after.stack.size - frame.base = m.stack.size - frame.base + 1 := by omega
    rw [hheight]
    exact hfails

/-- Control goes on elsewhere, and nothing else changes. -/
theorem steps_jump (hfacing : m.Facing globals statements known top frame function asScript chunk cells op a b)
    (hop : op ≠ .closure ∧ op ≠ .ret ∧ op ≠ .halt) (htaken : op.taken chunk a = 0) {ip : Nat}
    (hresult : execute op a b { m with ip := m.ip + op.size } = .ok () { m with ip })
    (hnext : Sure globals statements asScript function frame.argumentCount ⟨ip, m.stack.size - frame.base,
      knownIn known frame.base m.stack.size, none⟩) :
    Steps globals statements m (execute op a b { m with ip := m.ip + op.size }) := by
  have hknown (slot : Nat) (hslot : slot ∈ m.openSlots) : known slot := hfacing.known_of_open hop.1 hslot
  rw [hresult]
  refine ⟨⟨⟨hfacing.aligned.offers.heap, hfacing.aligned.offers.stack⟩, .refl _, fun _ _ => .inl⟩, ?_⟩
  refine hfacing.advances ?_ rfl known none hfacing.aligned.above hknown hfacing.line.inside
    (fun _ _ h => h) (fun slot _ hslot => .inl ?_) (fun _ h => by cases h) hfacing.current.low hnext
  · rw [hfacing.standing.dispatch_eq]
    exact hresult
  · rw [hfacing.lowWater hop.2.1 hop.2.2, htaken]
    exact (hfacing.line.inside slot (hknown slot hslot)).2

theorem steps_close
    (hfacing : m.Facing globals statements known top frame function asScript chunk cells .closeUpvalue a b)
    (hheight : 0 < m.stack.size - frame.base)
    (hnext : Sure globals statements asScript function frame.argumentCount ⟨m.ip + 1, m.stack.size - frame.base - 1,
      fun slot => knownIn known frame.base m.stack.size slot ∧ slot ≠ m.stack.size - frame.base - 1, none⟩) :
    Steps globals statements m (execute .closeUpvalue a b { m with ip := m.ip + Opcode.closeUpvalue.size }) := by
  have hbase := hfacing.current.base
  have hoffers : Offers (compiledOnly globals) { m with ip := m.ip + Opcode.closeUpvalue.size } :=
    ⟨hfacing.aligned.offers.heap, hfacing.aligned.offers.stack⟩
  have hends := ends_closeUpvalue hoffers hfacing.aligned.above
    (by change 1 < m.stack.size; omega) hfacing.openSound a b
  refine hends.upgrade (fun after h => ⟨h.offers, h.follows, h.globals⟩) fun _ after hresult _ h => ?_
  obtain ⟨hsize, hopen⟩ := h
  change after.stack.size = m.stack.size - 1 at hsize
  change ∀ slot, slot ∈ after.openSlots ↔ slot ∈ m.openSlots ∧ slot < m.stack.size - 1 at hopen
  have hknown (slot : Nat) (hslot : slot ∈ after.openSlots) : known slot :=
    hfacing.known_of_open (by decide) ((hopen slot).mp hslot).1
  have hsteady : Steady (fun _ _ => True) { m with ip := m.ip + Opcode.closeUpvalue.size } after := by
    have hsteady : Steady (fun _ _ => True) { m with ip := m.ip + Opcode.closeUpvalue.size }
        (stateAfter (execute .closeUpvalue a b { m with ip := m.ip + Opcode.closeUpvalue.size })) :=
      steady_execute rfl a b fun _ _ _ _ _ _ _ => trivial
    rwa [hresult] at hsteady
  refine hfacing.advances ?_ hsteady.frames (fun slot => known slot ∧ slot < m.stack.size - 1) none ?_ ?_ ?_ ?_ ?_
    (fun _ h => by cases h) (by omega) ?_
  · rw [hfacing.standing.dispatch_eq]
    exact hresult
  · intro entry hentry
    exact (hfacing.line.inside entry.slot (hknown entry.slot (mem_openSlots.mpr ⟨entry, hentry, rfl⟩))).1
  · exact fun slot hslot => ⟨hknown slot hslot, ((hopen slot).mp hslot).2⟩
  · exact fun slot h => ⟨(hfacing.line.inside slot h.1).1, hsize ▸ h.2⟩
  · exact fun slot _ h => h.1
  · intro slot hslot _
    rw [hfacing.lowWater (by decide) (by decide)]
    exact .inl ((hopen slot).mp hslot).2
  · have hip : after.ip = m.ip + 1 := hsteady.ip
    have hheight : after.stack.size - frame.base = m.stack.size - frame.base - 1 := by omega
    rw [hip, hheight]
    refine hnext.of_held fun slot h => ⟨⟨(hfacing.line.inside _ h.2.1).2, h.2.1⟩, ?_⟩
    have := h.2.2
    omega

theorem mem_capturedSlots {base outer slot : Nat} {captures : List Capture}
    (hslot : slot ∈ capturedSlots base outer captures) :
    ∃ capture ∈ captures, capture.isLocal = true ∧ slot = base + capture.index := by
  induction captures with
  | nil => cases hslot
  | cons capture rest ih =>
    have hrest (h : slot ∈ capturedSlots base outer rest) :
        ∃ found ∈ capture :: rest, found.isLocal = true ∧ slot = base + found.index := by
      obtain ⟨found, hfound, hlocal, heq⟩ := ih h
      exact ⟨found, List.mem_cons_of_mem _ hfound, hlocal, heq⟩
    simp only [capturedSlots] at hslot
    split at hslot
    · rename_i hlocal
      rcases List.mem_cons.mp hslot with heq | h
      · exact ⟨capture, List.mem_cons_self .., hlocal, heq⟩
      · exact hrest h
    · split at hslot
      · exact hrest hslot
      · cases hslot

theorem steps_closure (hfacing : m.Facing globals statements known top frame function asScript chunk cells .closure a b)
    {prototype : Prototype} (hfound : chunk.functions[a]? = some (some prototype))
    (hcompiled : Compiled globals prototype)
    (hcaptures : ∀ capture ∈ prototype.captures, capture.isLocal = true →
      capture.index ≤ m.stack.size - frame.base)
    (hnext : Sure globals statements asScript function frame.argumentCount
      ⟨m.ip + 3, m.stack.size - frame.base + 1, fun slot => knownIn known frame.base m.stack.size slot ∨
        ∃ capture ∈ prototype.captures, capture.isLocal = true ∧ capture.index = slot, none⟩) :
    Steps globals statements m (execute .closure a b { m with ip := m.ip + Opcode.closure.size }) := by
  have hlow := hfacing.current.low
  have hoffers : Offers (compiledOnly globals) { m with ip := m.ip + Opcode.closure.size } :=
    ⟨hfacing.aligned.offers.heap, hfacing.aligned.offers.stack⟩
  have hrunning : Running { m with ip := m.ip + Opcode.closure.size } frame cells :=
    ⟨hfacing.innermost, _, hfacing.standing.closure⟩
  have hslots (slot : Nat) (hslot : slot ∈ m.closureSlots prototype) :
      ∃ capture ∈ prototype.captures, capture.isLocal = true ∧ slot = frame.base + capture.index := by
    have hsame : m.closureSlots prototype = _ := hrunning.closureSlots prototype
    rw [hsame] at hslot
    obtain ⟨capture, hcapture, hlocal, heq⟩ := mem_capturedSlots hslot
    exact ⟨capture, Array.mem_toList_iff.mp hcapture, hlocal, heq⟩
  have hwanted : m.wanted = m.closureSlots prototype := by
    unfold wanted
    rw [hfacing.instruction, hfacing.standing.running]
    simp only [Option.bind_some, hfound]
  have hends := ends_pushClosure hoffers hfacing.heapSound hrunning
    (show compiledOnly globals (some prototype) from ⟨prototype, rfl, hcompiled⟩) (hfacing.outer_cells rfl hfound)
  rw [← hfacing.execute_closure rfl hfound] at hends
  refine hends.upgrade (fun after h => ⟨h.offers, h.follows, h.globals⟩) fun _ after hresult _ h => ?_
  obtain ⟨hsize, hopen⟩ := h
  change after.stack.size = m.stack.size + 1 at hsize
  change ∀ slot, slot ∈ after.openSlots ↔ slot ∈ m.openSlots ∨ slot ∈ m.closureSlots prototype at hopen
  have hsteady : Steady (fun _ _ => True) { m with ip := m.ip + Opcode.closure.size } after := by
    have hsteady : Steady (fun _ _ => True) { m with ip := m.ip + Opcode.closure.size }
        (stateAfter (execute .closure a b { m with ip := m.ip + Opcode.closure.size })) :=
      steady_execute rfl a b fun _ _ _ _ _ _ _ => trivial
    rwa [hresult] at hsteady
  have hbase := hfacing.current.base
  have hinside (slot : Nat) (h : known slot ∨ slot ∈ m.closureSlots prototype) :
      0 < slot ∧ slot < after.stack.size := by
    rcases h with h | h
    · have := hfacing.line.inside slot h
      omega
    · obtain ⟨capture, hcapture, hlocal, rfl⟩ := hslots slot h
      have := hcaptures capture hcapture hlocal
      omega
  have hopened (slot : Nat) (hslot : slot ∈ after.openSlots) : known slot ∨ slot ∈ m.closureSlots prototype := by
    rcases (hopen slot).mp hslot with h | h
    · exact hwanted ▸ hfacing.line.cells slot h
    · exact .inr h
  refine hfacing.advances ?_ hsteady.frames (fun slot => known slot ∨ slot ∈ m.closureSlots prototype) none ?_
    hopened hinside ?_ ?_ (fun _ h => by cases h) (by omega) ?_
  · rw [hfacing.standing.dispatch_eq]
    exact hresult
  · intro entry hentry
    exact (hinside entry.slot (hopened entry.slot (mem_openSlots.mpr ⟨entry, hentry, rfl⟩))).1
  · intro slot hslot h
    refine h.resolve_right fun hcaptured => ?_
    obtain ⟨capture, -, -, rfl⟩ := hslots slot hcaptured
    omega
  · intro slot _ hslot
    rw [hfacing.lowWater (by decide) (by decide)]
    exact (hfacing.line.cells slot hslot).imp_left fun h => (hfacing.line.inside slot h).2
  · have hip : after.ip = m.ip + 3 := hsteady.ip
    have hheight : after.stack.size - frame.base = m.stack.size - frame.base + 1 := by omega
    rw [hip, hheight]
    refine hnext.of_held fun slot h => h.2.imp (fun h => ⟨(hfacing.line.inside _ h).2, h⟩) fun h => ?_
    obtain ⟨capture, hcapture, hlocal, heq⟩ := hslots _ h
    exact ⟨capture, hcapture, hlocal, by omega⟩

/-- A call: the callee starts on its arguments, and the caller goes on once they are gone and a value is
there in place of the callee. -/
theorem steps_call (hfacing : m.Facing globals statements known top frame function asScript chunk cells .call a b)
    (hheight : a < m.stack.size - frame.base)
    (hfree : ∀ slot, m.stack.size - frame.base - (a + 1) ≤ slot → ¬ knownIn known frame.base m.stack.size slot)
    (hnext : Sure globals statements asScript function frame.argumentCount ⟨m.ip + 3, m.stack.size - frame.base - a,
      knownIn known frame.base m.stack.size, none⟩) :
    Steps globals statements m (execute .call a b { m with ip := m.ip + Opcode.call.size }) := by
  have hbase := hfacing.current.base
  have hoffers : Offers (compiledOnly globals) { m with ip := m.ip + Opcode.call.size } :=
    ⟨hfacing.aligned.offers.heap, hfacing.aligned.offers.stack⟩
  have hknown (slot : Nat) (hslot : slot ∈ m.openSlots) : known slot := hfacing.known_of_open (by decide) hslot
  have hbelow (slot : Nat) (h : known slot) : slot < m.stack.size - (a + 1) := by
    have := hfacing.below hfree h
    omega
  rw [execute_call, if_neg (by change ¬ m.stack.size < a + 1; omega)]
  have hpeek : EndsWell (Tends (compiledOnly globals) m)
      (fun callee after => after = { m with ip := m.ip + Opcode.call.size } ∧
        m.heap.Admits (compiledOnly globals) callee) (peek a { m with ip := m.ip + Opcode.call.size }) := by
    have hdistance : a + 1 < m.stack.size := by omega
    exact (ends_peek hoffers.upholds hdistance).upgrade (fun after h => ⟨h.offers, h.follows, h.globals⟩)
      fun _ _ _ _ h => h
  refine hpeek.look fun callee hcallee => ?_
  rcases callValue_cases callee a { m with ip := m.ip + Opcode.call.size } with
    ⟨closure, prototype, others, rfl, hget, hresult⟩ | ⟨diagnostic, hkind, hresult⟩
  · rw [hresult]
    obtain ⟨inner, rfl, G, location, source, hcode⟩ := (hcallee closure rfl).2 prototype others hget
    have hlaid : LaidOut globals statements false inner G := by
      refine ⟨?_, location, source, hcode⟩
      cases hcode
      assumption
    refine ⟨⟨⟨hoffers.heap, hoffers.stack⟩, .refl _, fun _ _ => .inl⟩, fun _ => ⟨_, Array.back?_push ..⟩,
      hfacing.aligned.above, ?_, ?_, fun _ _ =>
        ⟨known, none, ⟨hfacing.line.inside, fun slot hslot => .inl (hknown slot hslot), ?_,
        fun _ h => by cases h⟩, hknown⟩⟩
    · exact fun slot hslot => (hfacing.line.inside slot (hknown slot hslot)).2
    · intro slot _ hslot
      rw [hfacing.lowWater (by decide) (by decide)]
      exact .inl (hfacing.line.inside slot (hknown slot hslot)).2
    · have hstart : Sure globals statements false inner a ⟨0, m.stack.size - (m.stack.size - a),
          knownIn known (m.stack.size - a) m.stack.size, none⟩ := by
        have hcount : m.stack.size - (m.stack.size - a) = a := by omega
        rw [hcount]
        refine (sure_function inner a).of_held fun slot h => ?_
        have := hbelow _ h.2
        omega
      have hwaiting : CallsAligned globals statements m.heap known (frame :: m.frames.pop.toList.reverse) (m.ip + 3)
          (m.stack.size - a) none := by
        obtain ⟨outer, hclosure⟩ := hfacing.current.closure
        obtain ⟨F, hlaid⟩ := hfacing.current.laid
        refine .call hbase (by omega) hfacing.current.apart hclosure hlaid ?_ hfacing.current.callers
        have hsame : m.stack.size - a - frame.base = m.stack.size - frame.base - a := by omega
        rw [hsame]
        exact hnext.of_held fun slot h => ⟨(hfacing.line.inside _ h.2).2, h.2⟩
      rw [← frames_eq hfacing.innermost] at hwaiting
      simp only [entered, Array.toList_push, List.reverse_append, List.reverse_singleton, List.singleton_append]
      refine .call (by change 0 < m.stack.size - a; omega) (Nat.sub_le ..) (fun h => ?_) hget hlaid hstart
        hwaiting
      have := hbelow _ h
      change m.stack.size - a - 1 < _ at this
      omega
  · rw [hresult]
    exact ⟨⟨hoffers, .refl _, fun _ _ => .inl⟩, hkind⟩

/-- The machine after a call was left: its values are gone, and so are the cells of its slots. -/
theorem tends_left {allowed : Option Prototype → Prop} {start : Machine} (htends : Tends allowed start m)
    (habove : m.CellsAbove) (frame : Frame) : Tends allowed start (left m frame) := by
  have hpopped : Tends allowed start { m with frames := m.frames.pop } :=
    ⟨⟨htends.offers.heap, htends.offers.stack⟩, htends.follows, htends.globals⟩
  have hclosed := hpopped.closeCells habove frame.base
  refine hclosed.withStack fun i value hi hvalue => ?_
  rw [Array.getElem?_append] at hvalue
  split at hvalue
  · exact hclosed.offers.shrink _ i value hi hvalue
  · obtain ⟨_, rfl⟩ := Array.getElem?_eq_some_iff.mp hvalue
    rw [Array.getElem_replicate]
    exact Heap.admits_nil

theorem size_left (m : Machine) (frame : Frame) (hsize : frame.base ≤ m.stack.size) :
    (left m frame).stack.size = frame.base - 1 := by
  simp only [left, resizeStack, stack_cut, closeCells_eq, Array.size_append, Array.size_shrink,
    Array.size_replicate]
  omega

/-- A call returns: its caller finds the value where it has put the callee. -/
theorem steps_return (hfacing : m.Facing globals statements known top frame function asScript chunk cells op a b)
    (hop : op = .ret ∨ op = .halt) {stack : Array Value} {leftovers : Leftovers}
    (hstack : ∀ (i : Nat) value, 0 < i → stack[i]? = some value → m.heap.Admits (compiledOnly globals) value)
    (hsize : frame.base ≤ stack.size) {result : Value} (hvalue : m.heap.Admits (compiledOnly globals) result) :
    Steps globals statements m (returnFromFrame result { m with ip := m.ip + op.size, stack, leftovers }) := by
  have hbase := hfacing.current.base
  have hclosure : op ≠ .closure := by rcases hop with rfl | rfl <;> decide
  have hlowWater : m.lowWater = frame.base - 1 := by
    unfold Machine.lowWater
    rw [hfacing.instruction, hfacing.standing.running, hfacing.innermost]
    rcases hop with rfl | rfl <;> rfl
  have hstart : Tends (compiledOnly globals) m { m with ip := m.ip + op.size, stack, leftovers } :=
    ⟨⟨hfacing.aligned.offers.heap, hstack⟩, .refl _, fun _ _ => .inl⟩
  have hleft := tends_left hstart hfacing.aligned.above frame
  have hheight := size_left { m with ip := m.ip + op.size, stack, leftovers } frame hsize
  have hopen (slot : Nat) (hslot : slot ∈ (left { m with ip := m.ip + op.size, stack, leftovers } frame).openSlots) :
      slot ∈ m.openSlots ∧ slot < frame.base :=
    (mem_openSlots_closeCells hfacing.openSound).mp hslot
  have hknown (slot : Nat) (hslot : slot ∈ (left { m with ip := m.ip + op.size, stack, leftovers } frame).openSlots) :
      known slot := hfacing.known_of_open hclosure (hopen slot hslot).1
  have hbelow (slot : Nat) (hslot : slot ∈ (left { m with ip := m.ip + op.size, stack, leftovers } frame).openSlots) :
      0 < slot ∧ slot < frame.base - 1 := by
    have hpos := (hfacing.line.inside slot (hknown slot hslot)).1
    have hlt := (hopen slot hslot).2
    have happart : slot ≠ frame.base - 1 := by
      rintro rfl
      exact hfacing.current.apart (hknown _ hslot)
    omega
  have hkept (slot : Nat) (hslot : slot ∈ (left { m with ip := m.ip + op.size, stack, leftovers } frame).openSlots) :
      slot ∈ m.openSlots → slot < m.lowWater ∨ slot ∈ m.wanted :=
    fun _ => .inl (hlowWater ▸ (hbelow slot hslot).2)
  have hplaced := hfacing.standing.callers
  have hwaiting := hfacing.current.callers
  have hinnermost : ({ m with ip := m.ip + op.size, stack, leftovers } : Machine).frames.back? = some frame :=
    hfacing.innermost
  rw [returnFromFrame_eq, hinnermost]
  dsimp only
  cases hcaller : frame.caller with
  | none =>
    have hframes : m.frames.pop = #[] := by
      rw [hcaller] at hplaced
      generalize hrest : m.frames.pop.toList.reverse = rest at hplaced
      cases hplaced
      exact Array.toList_eq_nil_iff.mp (List.reverse_eq_nil_iff.mp hrest)
    refine ⟨⟨⟨hleft.offers.heap, hleft.offers.stack⟩, hleft.follows, hleft.globals⟩, (fun h => by cases h), ?_, ?_,
      hkept, ?_⟩
    · intro entry hentry
      exact (hbelow entry.slot (mem_openSlots.mpr ⟨entry, hentry, rfl⟩)).1
    · intro slot hslot
      change slot < (left { m with ip := m.ip + op.size, stack, leftovers } frame).stack.size
      rw [hheight]
      exact (hbelow slot hslot).2
    · intro other hother
      change m.frames.pop.back? = some other at hother
      rw [hframes] at hother
      cases hother
  | some chunk =>
    have hreturned : Tends (compiledOnly globals) m { left { m with ip := m.ip + op.size, stack, leftovers } frame with
        chunk := some chunk, ip := frame.returnTo } :=
      ⟨⟨hleft.offers.heap, hleft.offers.stack⟩, hleft.follows, hleft.globals⟩
    have hpreserved : Preserved (fun _ _ => True) { m with ip := m.ip + op.size, stack, leftovers }
      (left { m with ip := m.ip + op.size, stack, leftovers } frame) := preserved_left _ frame
    have hintact : Intact { m with ip := m.ip + op.size, stack, leftovers } :=
      ⟨hfacing.sound.intact.bounded, hfacing.sound.intact.cells⟩
    simp only [push]
    rw [get_bind_apply]
    split
    · exact ends_fail hreturned (by decide)
    · have hpushed : ((left { m with ip := m.ip + op.size, stack, leftovers } frame).stack.push result).size =
        frame.base := by
        rw [Array.size_push, hheight]
        omega
      have hactive : ∃ outer, m.frames.pop.back? = some outer := by
        rw [hcaller] at hplaced
        cases houter : m.frames.pop.back? with
        | some outer => exact ⟨outer, rfl⟩
        | none =>
          rw [Array.back?_eq_none_iff.mp houter] at hplaced
          cases hplaced
      refine ⟨hreturned.withStack fun i value hi hfound => ?_, fun _ => hactive, ?_, ?_, hkept, fun _ _ =>
        ⟨fun slot => known slot ∧ slot < frame.base - 1, none, ⟨?_, ?_, ?_, fun _ h => by cases h⟩, ?_⟩⟩
      · rw [Array.getElem?_push] at hfound
        split at hfound
        · cases hfound
          exact hvalue.follows hleft.follows
        · exact hleft.offers.stack i value hi hfound
      · intro entry hentry
        exact (hbelow entry.slot (mem_openSlots.mpr ⟨entry, hentry, rfl⟩)).1
      · intro slot hslot
        have hlt := (hbelow slot hslot).2
        change slot < ((left { m with ip := m.ip + op.size, stack, leftovers } frame).stack.push result).size
        omega
      · intro slot hslot
        have hpos := (hfacing.line.inside slot hslot.1).1
        have hlt := hslot.2
        change 0 < slot ∧ slot < ((left { m with ip := m.ip + op.size, stack, leftovers } frame).stack.push result).size
        omega
      · exact fun slot hslot => .inl ⟨hknown slot hslot, (hbelow slot hslot).2⟩
      · change CallsAligned globals statements _ _ m.frames.pop.toList.reverse frame.returnTo
          ((left { m with ip := m.ip + op.size, stack, leftovers } frame).stack.push result).size none
        rw [hpushed]
        exact hwaiting.transport (fun _ _ _ _ h => hpreserved.closure hintact h) fun slot _ h => h.1
      · exact fun slot hslot => ⟨hknown slot hslot, (hbelow slot hslot).2⟩

/-- A conditional jump goes on where the value on top sends it. -/
theorem steps_jumpIf (hfacing : m.Facing globals statements known top frame function asScript chunk cells op a b)
    {sense : Bool} (hop : op = .jumpIfFalse ∧ sense = false ∨ op = .jumpIfTrue ∧ sense = true)
    (hheight : 0 < m.stack.size - frame.base)
    (hthere : top ≠ some (!sense) → Sure globals statements asScript function frame.argumentCount
      ⟨m.ip + 3 + a, m.stack.size - frame.base, knownIn known frame.base m.stack.size, none⟩)
    (hhere : top ≠ some sense → Sure globals statements asScript function frame.argumentCount
      ⟨m.ip + 3, m.stack.size - frame.base, knownIn known frame.base m.stack.size, none⟩) :
    Steps globals statements m (execute op a b { m with ip := m.ip + op.size }) := by
  have hin : m.stack.size - 1 < m.stack.size := by omega
  have hback : m.stack.back? = some m.stack[m.stack.size - 1] := by
    rw [Array.back?_eq_getElem?, Array.getElem?_eq_getElem hin]
  have hpeek : peek 0 { m with ip := m.ip + op.size } =
      .ok m.stack[m.stack.size - 1] { m with ip := m.ip + op.size } := by
    rw [peek_eq]
    simp only [Nat.sub_zero, Array.getElem?_eq_getElem hin]
    rw [if_pos (by omega)]
  have hplain : (op ≠ .closure ∧ op ≠ .ret ∧ op ≠ .halt) ∧ op.taken chunk a = 0 ∧ op.size = 3 := by
    rcases hop with ⟨rfl, -⟩ | ⟨rfl, -⟩
    · exact ⟨by decide, rfl, rfl⟩
    · exact ⟨by decide, rfl, rfl⟩
  have hgoes : execute op a b { m with ip := m.ip + op.size } =
      .ok () { m with
        ip := if m.stack[m.stack.size - 1].truthy = sense then m.ip + op.size + a else m.ip + op.size } := by
    rcases hop with ⟨rfl, rfl⟩ | ⟨rfl, rfl⟩
    · simp only [execute, bind_apply, hpeek]
      cases m.stack[m.stack.size - 1].truthy <;> rfl
    · simp only [execute, bind_apply, hpeek]
      cases m.stack[m.stack.size - 1].truthy <;> rfl
  have hanswer (flag : Bool) (h : top = some flag) : m.stack[m.stack.size - 1].truthy = flag := by
    obtain ⟨value, hvalue, htruthy⟩ := hfacing.line.answer flag h
    cases hback.symm.trans hvalue
    exact htruthy
  by_cases htaken : m.stack[m.stack.size - 1].truthy = sense
  · rw [if_pos htaken] at hgoes
    refine steps_jump hfacing hplain.1 hplain.2.1 hgoes ?_
    rw [hplain.2.2]
    refine hthere fun h => ?_
    have := hanswer _ h
    rw [htaken] at this
    cases sense <;> cases this
  · rw [if_neg htaken] at hgoes
    refine steps_jump hfacing hplain.1 hplain.2.1 hgoes ?_
    rw [hplain.2.2]
    exact hhere fun h => htaken (hanswer _ h)

/-- Every instruction of an aligned machine keeps it in line, or runs into an ordinary fault. -/
theorem steps_dispatch (haligned : m.Aligned globals statements) (hcourse : m.OnCourse) (hsound : m.Sound)
    (hframe : m.frames.back? = some frame) : Steps globals statements m (dispatch m) := by
  obtain ⟨known, top, function, asScript, chunk, cells, op, a, b, hfacing⟩ := haligned.facing hcourse hsound hframe
  have hlow := hfacing.current.low
  have hoffers (ip : Nat) : Offers (compiledOnly globals) { m with ip } :=
    ⟨haligned.offers.heap, haligned.offers.stack⟩
  have htends (ip : Nat) : Tends (compiledOnly globals) m { m with ip } :=
    ⟨hoffers ip, .refl _, fun _ _ => .inl⟩
  rw [hfacing.standing.dispatch_eq]
  cases hfacing.fine with
  | plain hplain htaken hseen hslot hfree hnext =>
    exact steps_plain hfacing hplain htaken hseen hslot hfree hnext
  | close hheight hnext => exact steps_close hfacing hheight hnext
  | jump hnext => exact steps_jump hfacing (by decide) rfl rfl hnext
  | back hnext => exact steps_jump hfacing (by decide) rfl rfl hnext
  | ifFalse hheight hthere hhere => exact steps_jumpIf hfacing (.inl ⟨rfl, rfl⟩) hheight hthere hhere
  | ifTrue hheight hthere hhere => exact steps_jumpIf hfacing (.inr ⟨rfl, rfl⟩) hheight hthere hhere
  | call hheight hfree hnext => exact steps_call hfacing hheight hfree hnext
  | ret hheight _ =>
    have hin : m.stack.size - 1 < m.stack.size := by
      have : 0 < m.stack.size - frame.base := hheight
      omega
    have hback : m.stack.back? = some m.stack[m.stack.size - 1] := by
      rw [Array.back?_eq_getElem?, Array.getElem?_eq_getElem hin]
    have hbase := hfacing.current.base
    have hheight : 0 < m.stack.size - frame.base := hheight
    change Steps globals statements m ((pop >>= returnFromFrame) { m with ip := m.ip + Opcode.ret.size })
    rw [bind_apply, pop_eq]
    simp only [hback]
    refine steps_return hfacing (.inl rfl) (haligned.offers.shrink _) ?_
      (haligned.offers.stack _ _ (by omega) (Array.getElem?_eq_getElem hin))
    rw [shrink_pred, Array.size_pop]
    omega
  | halt => exact steps_return hfacing (.inr rfl) haligned.offers.stack hlow Heap.admits_nil
  | closure hfound hcompiled hcaptures hnext => exact steps_closure hfacing hfound hcompiled hcaptures hnext
  | matchValue hfound hslot hmatches hfails =>
    refine steps_matching hfacing (.inl rfl) (fun _ : True => hmatches) hfails ?_
    have hslot : b < m.stack.size - frame.base := hslot
    have hinside : frame.base + b < m.stack.size := by omega
    refine (ends_matchValue
      (hoffers (m.ip + Opcode.matchValue.size)) hframe hfacing.current.base hfacing.standing.running hfound
      hinside).mono fun _ after _ h => h.imp_left fun h => ?_
    exact ⟨trivial, h⟩
  | matchArgs hfound hcount hmatches hfails =>
    refine steps_matching hfacing (.inr rfl) hmatches hfails ?_
    have hcount : frame.argumentCount ≤ m.stack.size - frame.base := hcount
    have hinside : frame.base + frame.argumentCount ≤ m.stack.size := by omega
    exact ends_matchArgs (hoffers (m.ip + Opcode.matchArgs.size)) hframe hfacing.current.base
      hfacing.standing.running hfound hinside b
  | noMatchingArm => exact ends_fail (htends _) (by decide)
  | noMatchingOverload =>
    refine (ends_frame (htends (m.ip + Opcode.noMatchingOverload.size)) hframe).look fun got _ => ?_
    rw [get_bind_apply]
    exact ends_fail (htends _) (by simp [Diagnostic.about])

end Exec

end OwnScript
