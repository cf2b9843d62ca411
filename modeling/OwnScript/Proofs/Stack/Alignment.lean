import OwnScript.Proofs.Host.Confinement
import OwnScript.Proofs.Stack.Functions
import OwnScript.Proofs.Stack.Transfers

/-!
The frames of a running program are as its code expects them. The innermost call stands at a safe profile
of its code, every caller will stand at one when its call returns, and what the program can get at leads to
functions of the program alone. One instruction keeps all of this.
-/

namespace OwnScript

open Stateful Profile

namespace Profile

variable {globals : GlobalTable} {chunk : Chunk} {arguments : Nat}

/-- An operation that is fine in every respect leads to profiles that are good in every respect. -/
theorem Fine.always {ι : Type} (one : ι) {next : ι → Profile → Prop} {profile : Profile} {op : Opcode} {a b : Nat}
    (hfine : ∀ n, Fine globals chunk arguments (next n) profile op a b) :
    Fine globals chunk arguments (fun other => ∀ n, next n other) profile op a b := by
  cases hfine one with
  | plain hplain htaken hseen hslot hfree _ =>
    refine .plain hplain htaken hseen hslot hfree fun n => ?_
    cases hfine n with
    | plain _ _ _ _ _ hnext => exact hnext
    | _ => cases hplain
  | close hheight _ =>
    refine .close hheight fun n => ?_
    cases hfine n with
    | plain hplain => cases hplain
    | close _ hnext => exact hnext
  | jump _ =>
    refine .jump fun n => ?_
    cases hfine n with
    | plain hplain => cases hplain
    | jump hnext => exact hnext
  | back _ =>
    refine .back fun n => ?_
    cases hfine n with
    | plain hplain => cases hplain
    | back hnext => exact hnext
  | ifFalse hheight _ _ =>
    refine .ifFalse hheight (fun htop n => ?_) fun htop n => ?_
    · cases hfine n with
      | plain hplain => cases hplain
      | ifFalse _ hthere _ => exact hthere htop
    · cases hfine n with
      | plain hplain => cases hplain
      | ifFalse _ _ hhere => exact hhere htop
  | ifTrue hheight _ _ =>
    refine .ifTrue hheight (fun htop n => ?_) fun htop n => ?_
    · cases hfine n with
      | plain hplain => cases hplain
      | ifTrue _ hthere _ => exact hthere htop
    · cases hfine n with
      | plain hplain => cases hplain
      | ifTrue _ _ hhere => exact hhere htop
  | call hheight hfree _ =>
    refine .call hheight hfree fun n => ?_
    cases hfine n with
    | plain hplain => cases hplain
    | call _ _ hnext => exact hnext
  | ret hheight hfree => exact .ret hheight hfree
  | halt => exact .halt
  | closure hfound hcompiled hcaptures _ =>
    refine .closure hfound hcompiled hcaptures fun n => ?_
    cases hfine n with
    | plain hplain => cases hplain
    | closure hagain _ _ hnext =>
      cases hfound.symm.trans hagain
      exact hnext
  | matchValue hfound hslot _ _ =>
    refine .matchValue hfound hslot (fun n => ?_) fun n => ?_
    · cases hfine n with
      | plain hplain => cases hplain
      | matchValue hagain _ hmatches _ =>
        cases hfound.symm.trans hagain
        exact hmatches
    · cases hfine n with
      | plain hplain => cases hplain
      | matchValue _ _ _ hfails => exact hfails
  | matchArgs hfound hcount _ _ =>
    refine .matchArgs hfound hcount (fun hlength n => ?_) fun n => ?_
    · cases hfine n with
      | plain hplain => cases hplain
      | matchArgs hagain _ hmatches _ =>
        cases hfound.symm.trans hagain
        exact hmatches hlength
    · cases hfine n with
      | plain hplain => cases hplain
      | matchArgs _ _ _ hfails => exact hfails
  | noMatchingArm => exact .noMatchingArm
  | noMatchingOverload => exact .noMatchingOverload

end Profile

/-- Code that is laid out for a function or for the script of a program. -/
def LaidOut (globals : GlobalTable) (statements : List Stmt) (asScript : Bool) (prototype : Prototype)
    (F : Listing True) : Prop :=
  prototype.chunk = some F.chunk ∧
    if asScript then ScriptCode globals F prototype statements
    else ∃ location function, PrototypeCode globals F location prototype function

/-- However the code of a prototype is read and however many operations follow a profile, none goes wrong. -/
def Sure (globals : GlobalTable) (statements : List Stmt) (asScript : Bool) (prototype : Prototype)
    (arguments : Nat) (profile : Profile) : Prop :=
  ∀ F, LaidOut globals statements asScript prototype F → ∀ n, Safe globals F arguments n profile

section Sure

variable {globals : GlobalTable} {statements : List Stmt} {asScript : Bool} {prototype : Prototype}
  {arguments : Nat} {profile : Profile}

theorem Sure.fine (hsure : Sure globals statements asScript prototype arguments profile) {F : Listing True}
    (hlaid : LaidOut globals statements asScript prototype F) {op : Opcode} {a b : Nat}
    (hinstruction : F.chunk.instructionAt? profile.offset = some (op, a, b)) :
    Fine globals F.chunk arguments (Sure globals statements asScript prototype arguments) profile op a b := by
  have hall := @Fine.always globals F.chunk arguments
    (Nat × { G : Listing True // LaidOut globals statements asScript prototype G }) (0, ⟨F, hlaid⟩)
    (fun reading => Safe globals reading.2.1 arguments reading.1) profile op a b fun reading => by
      obtain ⟨n, G, hother⟩ := reading
      obtain ⟨-, -, op', a', b', hagain, hfine⟩ := hsure G hother (n + 1)
      have hsame : G.chunk = F.chunk := Option.some.inj (hother.1.symm.trans hlaid.1)
      rw [hsame] at hagain hfine
      cases hinstruction.symm.trans hagain
      exact hfine
  exact hall.mono fun other hother G hG n => hother (n, ⟨G, hG⟩)

theorem Sure.height (hsure : Sure globals statements asScript prototype arguments profile) {F : Listing True}
    (hlaid : LaidOut globals statements asScript prototype F) {height : Nat}
    (hholds : F.Holds profile.offset height) : profile.height = height :=
  (hsure F hlaid 1).1 height hholds

theorem Sure.of_held (hsure : Sure globals statements asScript prototype arguments profile) {fewer : Nat → Prop}
    (hfewer : ∀ slot, fewer slot → profile.held slot) :
    Sure globals statements asScript prototype arguments { profile with held := fewer } :=
  fun F hlaid n => (hsure F hlaid n).of_held hfewer

/-- A function starts on its arguments. -/
theorem sure_function (prototype : Prototype) (arguments : Nat) :
    Sure globals statements false prototype arguments ⟨0, arguments, fun _ => False, none⟩ := by
  rintro F ⟨-, location, function, hcode⟩ n
  exact hcode.safe arguments n

/-- A script starts on an empty frame. -/
theorem sure_script (prototype : Prototype) :
    Sure globals statements true prototype 0 ⟨0, 0, fun _ => False, none⟩ := by
  rintro F ⟨-, hcode⟩ n
  exact ScriptCode.safe hcode n

end Sure

/-- The functions whose closures the code of a program can get at. -/
def compiledOnly (globals : GlobalTable) (prototype : Option Prototype) : Prop :=
  ∃ function, prototype = some function ∧ Compiled globals function

/-- The slots of a frame that are known to have a cell, as far as the frame reaches. -/
def knownIn (known : Nat → Prop) (base top slot : Nat) : Prop :=
  base + slot < top ∧ known (base + slot)

namespace Machine

variable {globals : GlobalTable} {statements : List Stmt} {heap : Heap} {known : Nat → Prop}

/-- Active calls, innermost first, at an offset and with a height of the stack. Each stands at a profile of
its code from which nothing goes wrong, a caller once the value of its call is on the stack. The slot of the
closure that is called has no cell. -/
inductive CallsAligned (globals : GlobalTable) (statements : List Stmt) (heap : Heap) (known : Nat → Prop) :
    List Frame → Nat → Nat → Option Bool → Prop where
  | host {ip : Nat} : CallsAligned globals statements heap known [] ip 1 none
  | call {frame : Frame} {rest : List Frame} {function : Prototype} {cells : Array (Option Ref)}
      {asScript : Bool} {F : Listing True} {ip size : Nat} {top : Option Bool} :
      0 < frame.base → frame.base ≤ size → ¬ known (frame.base - 1) →
      heap.get? frame.closure = some (.closure (some function) cells) →
      LaidOut globals statements asScript function F →
      Sure globals statements asScript function frame.argumentCount
        ⟨ip, size - frame.base, knownIn known frame.base size, top⟩ →
      CallsAligned globals statements heap known rest frame.returnTo frame.base none →
      CallsAligned globals statements heap known (frame :: rest) ip size top

/-- Cells above the calls do not matter, and closures stay what they are. -/
theorem CallsAligned.transport {after : Heap} {knownAfter : Nat → Prop} {frames : List Frame} {ip size : Nat}
    {top : Option Bool} (hcalls : CallsAligned globals statements heap known frames ip size top)
    (hkept : ∀ frame ∈ frames, ∀ prototype cells, heap.get? frame.closure = some (.closure prototype cells) →
      after.get? frame.closure = some (.closure prototype cells))
    (hknown : ∀ slot < size, knownAfter slot → known slot) :
    CallsAligned globals statements after knownAfter frames ip size top := by
  induction hcalls with
  | host => exact .host
  | call hbase hlow hapart hclosure hlaid hsure _ ih =>
    refine .call hbase hlow (fun h => hapart (hknown _ (by omega) h)) (hkept _ (List.mem_cons_self ..) _ _ hclosure)
      hlaid ?_ ?_
    · exact hsure.of_held fun slot h => ⟨h.1, hknown _ h.1 h.2⟩
    · exact ih (fun frame hframe => hkept frame (List.mem_cons_of_mem _ hframe))
        fun slot hslot => hknown slot (hslot.trans_le hlow)

/-- What is known of a machine in front of an instruction: which slots have cells, apart from those that a
first attempt at the instruction has captured, and whether the value on top is true, if its code relies on
that. -/
structure InLine (globals : GlobalTable) (statements : List Stmt) (m : Machine) (known : Nat → Prop)
    (top : Option Bool) : Prop where
  inside : ∀ slot, known slot → 0 < slot ∧ slot < m.stack.size
  cells : ∀ slot ∈ m.openSlots, known slot ∨ slot ∈ m.wanted
  calls : CallsAligned globals statements m.heap known m.frames.toList.reverse m.ip m.stack.size top
  answer : ∀ flag, top = some flag → Exec.TopIs flag m

/-- A machine whose values lead to functions of the program. -/
structure Supplies (globals : GlobalTable) (m : Machine) : Prop where
  offers : m.Offers (compiledOnly globals)
  admitted : ∀ (slot : Nat) value, m.globals[slot]? = some (some value) →
    m.heap.Admits (compiledOnly globals) value
  above : m.CellsAbove

/-- A machine whose calls are in line and whose values lead to functions of the program. -/
structure Aligned (globals : GlobalTable) (statements : List Stmt) (m : Machine) : Prop extends
    Supplies globals m where
  calls : ∀ frame, m.frames.back? = some frame → ∃ known top, m.InLine globals statements known top

/-- The innermost call of an aligned machine. -/
structure Current (globals : GlobalTable) (statements : List Stmt) (m : Machine) (known : Nat → Prop)
    (top : Option Bool) (frame : Frame) (function : Prototype) (asScript : Bool) : Prop where
  base : 0 < frame.base
  low : frame.base ≤ m.stack.size
  apart : ¬ known (frame.base - 1)
  closure : ∃ cells, m.heap.get? frame.closure = some (.closure (some function) cells)
  laid : ∃ F, LaidOut globals statements asScript function F
  sure : Sure globals statements asScript function frame.argumentCount
    ⟨m.ip, m.stack.size - frame.base, knownIn known frame.base m.stack.size, top⟩
  callers : CallsAligned globals statements m.heap known m.frames.pop.toList.reverse frame.returnTo frame.base none

variable {m : Machine} {top : Option Bool} {frame : Frame} {function : Prototype} {asScript : Bool}

theorem InLine.current (hline : m.InLine globals statements known top) (hframe : m.frames.back? = some frame) :
    ∃ function asScript, m.Current globals statements known top frame function asScript := by
  have hcalls := hline.calls
  rw [frames_eq hframe] at hcalls
  cases hcalls with
  | call hbase hlow hapart hclosure hlaid hsure hcallers =>
    exact ⟨_, _, hbase, hlow, hapart, ⟨_, hclosure⟩, ⟨_, hlaid⟩, hsure, hcallers⟩

/-- The innermost call goes on: elsewhere in its code, at another height, with other cells above its base. -/
theorem Current.proceed (hcurrent : m.Current globals statements known top frame function asScript)
    (hframe : m.frames.back? = some frame) {after : Machine} (hframes : after.frames = m.frames)
    (hkept : ∀ ref prototype cells, m.heap.get? ref = some (.closure prototype cells) →
      after.heap.get? ref = some (.closure prototype cells))
    {knownAfter : Nat → Prop} (hknown : ∀ slot < frame.base, knownAfter slot → known slot)
    {topAfter : Option Bool} (hlow : frame.base ≤ after.stack.size)
    (hsure : Sure globals statements asScript function frame.argumentCount
      ⟨after.ip, after.stack.size - frame.base, knownIn knownAfter frame.base after.stack.size, topAfter⟩) :
    CallsAligned globals statements after.heap knownAfter after.frames.toList.reverse after.ip after.stack.size
      topAfter := by
  obtain ⟨cells, hclosure⟩ := hcurrent.closure
  obtain ⟨F, hlaid⟩ := hcurrent.laid
  rw [hframes, frames_eq hframe]
  have hbase := hcurrent.base
  refine .call hbase hlow (fun h => hcurrent.apart (hknown _ (by omega) h)) (hkept _ _ _ hclosure) hlaid hsure ?_
  exact hcurrent.callers.transport (fun frame _ => hkept frame.closure) hknown

theorem wanted_of_ne {op : Opcode} {a b : Nat} (hinstruction : m.instruction? = some (op, a, b))
    (hop : op ≠ .closure) : m.wanted = [] := by
  unfold wanted
  rw [hinstruction]
  cases op with
  | closure => exact absurd rfl hop
  | _ => rfl

/-- In a sound machine the open cells that the running closure has captured are listed. -/
theorem Sound.listed (hsound : m.Sound) (hframe : m.frames.back? = some frame) {prototype : Option Prototype}
    {cells : Array (Option Ref)} (hclosure : m.heap.get? frame.closure = some (.closure prototype cells))
    {index : Nat} {cell : Ref} {slot : Nat} (hcell : cells[index]? = some (some cell))
    (hopened : m.heap.get? cell = some (.upvalue (.opened slot))) : slot ∈ m.openSlots := by
  obtain ⟨ρ, hcorr⟩ := hsound
  have hmem : frame ∈ m.frames.toList := Array.mem_toList_iff.mpr (Array.mem_of_back? hframe)
  have hpair := (List.forall₂_same.mp hcorr.frames frame hmem).closure
  obtain ⟨first, second, hfirst, -, hrel⟩ := hcorr.heap.objects _ _ hpair
  obtain rfl := Option.some.inj (hclosure.symm.trans hfirst)
  cases hrel with
  | @closure _ _ other hcells =>
    obtain ⟨partner, -, hrelated⟩ := exists_related_of_mem hcells
      (Array.mem_toList_iff.mpr (Array.mem_of_getElem? hcell))
    cases hrelated with
    | some hcell => exact mem_openSlots.mpr ⟨_, (hcorr.listed _ _ slot hcell hopened).1, rfl⟩

end Machine

end OwnScript
