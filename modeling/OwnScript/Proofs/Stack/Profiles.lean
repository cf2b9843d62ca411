import OwnScript.Proofs.Lowering.Layout

/-!
The shape of a frame as code alone decides it. A profile says where control is in the code, how many
values the frame holds there and which of its slots may have a cell. From it follows for every operation
whether it finds what it needs and which profiles come next. A profile is safe if no sequence of operations
from it goes wrong; how many operations are looked at is counted, so that loops are no obstacle.
-/

namespace OwnScript

namespace Opcode

/-- How many values an operation takes from the top of the stack. -/
def taken (chunk : Chunk) (a : Nat) : Opcode → Nat
  | .pop | .printTop | .negate | .bitwiseNot | .logicalNot | .getField | .closeUpvalue | .ret => 1
  | .add | .subtract | .multiply | .divide | .modulo | .bitwiseAnd | .bitwiseOr | .bitwiseXor | .leftShift
  | .rightShift | .equal | .notEqual | .less | .greater | .lessEqual | .greaterEqual | .setField
  | .getIndex => 2
  | .setIndex => 3
  | .popMany | .array => a
  | .record => chunk.shapes[a]?.elim 0 List.length
  | _ => 0

/-- How many values an operation looks at that stay on top of the stack. -/
def seen : Opcode → Nat
  | .dup | .setGlobal | .setLocal | .setUpvalue | .jumpIfFalse | .jumpIfTrue => 1
  | _ => 0

/-- How many values an operation gives. -/
def given : Opcode → Nat
  | .pop | .popMany | .printTop | .setGlobal | .setLocal | .setUpvalue => 0
  | _ => 1

/-- The slot of the frame that an operation accesses. -/
def slot? (a : Nat) : Opcode → Option Nat
  | .getLocal | .setLocal | .moveLocal => some a
  | _ => none

/-- The operations that take values from the top of the stack, give others and go on behind. -/
def isPlain : Opcode → Bool
  | .closeUpvalue | .jump | .jumpIfFalse | .jumpIfTrue | .loopBack | .call | .ret | .closure | .matchValue
  | .matchArgs | .noMatchingArm | .noMatchingOverload | .halt => false
  | _ => true

end Opcode

/-- How many values matchers bind together. -/
def Matcher.bindings (matchers : List Matcher) : Nat :=
  (matchers.map Matcher.bindingCount).sum

/-- What is known of a frame in front of an instruction. -/
structure Profile where
  offset : Nat
  height : Nat
  /-- The slots that may have a cell. -/
  held : Nat → Prop
  /-- Whether the value on top is true, if that is known. -/
  top : Option Bool := none

/-- A prototype that holds the code of some function. -/
def Compiled (globals : GlobalTable) (prototype : Prototype) : Prop :=
  ∃ (F : Listing True) (location : Location) (function : Function),
    PrototypeCode globals F location prototype function

namespace Profile

variable {globals : GlobalTable} {F : Listing True} {chunk : Chunk} {arguments : Nat}

/-- An operation finds what it needs, takes no slot that has a cell, and leads to the next profiles. -/
inductive Fine (globals : GlobalTable) (chunk : Chunk) (arguments : Nat) (next : Profile → Prop)
    (profile : Profile) : Opcode → Nat → Nat → Prop where
  | plain {op : Opcode} {a b : Nat} : op.isPlain = true → op.taken chunk a ≤ profile.height →
      op.seen ≤ profile.height → (∀ slot, op.slot? a = some slot → slot < profile.height) →
      (∀ slot, profile.height - op.taken chunk a ≤ slot → ¬ profile.held slot) →
      next ⟨profile.offset + op.size, profile.height - op.taken chunk a + op.given, profile.held, none⟩ →
      Fine globals chunk arguments next profile op a b
  | close {a b : Nat} : 0 < profile.height →
      next ⟨profile.offset + 1, profile.height - 1,
        fun slot => profile.held slot ∧ slot ≠ profile.height - 1, none⟩ →
      Fine globals chunk arguments next profile .closeUpvalue a b
  | jump {a b : Nat} : next ⟨profile.offset + 3 + a, profile.height, profile.held, none⟩ →
      Fine globals chunk arguments next profile .jump a b
  | back {a b : Nat} : next ⟨profile.offset + 3 - a, profile.height, profile.held, none⟩ →
      Fine globals chunk arguments next profile .loopBack a b
  | ifFalse {a b : Nat} : 0 < profile.height →
      (profile.top ≠ some true → next ⟨profile.offset + 3 + a, profile.height, profile.held, none⟩) →
      (profile.top ≠ some false → next ⟨profile.offset + 3, profile.height, profile.held, none⟩) →
      Fine globals chunk arguments next profile .jumpIfFalse a b
  | ifTrue {a b : Nat} : 0 < profile.height →
      (profile.top ≠ some false → next ⟨profile.offset + 3 + a, profile.height, profile.held, none⟩) →
      (profile.top ≠ some true → next ⟨profile.offset + 3, profile.height, profile.held, none⟩) →
      Fine globals chunk arguments next profile .jumpIfTrue a b
  | call {a b : Nat} : a < profile.height →
      (∀ slot, profile.height - (a + 1) ≤ slot → ¬ profile.held slot) →
      next ⟨profile.offset + 3, profile.height - a, profile.held, none⟩ →
      Fine globals chunk arguments next profile .call a b
  | ret {a b : Nat} : 0 < profile.height → ¬ profile.held (profile.height - 1) →
      Fine globals chunk arguments next profile .ret a b
  | halt {a b : Nat} : Fine globals chunk arguments next profile .halt a b
  | closure {a b : Nat} {prototype : Prototype} : chunk.functions[a]? = some (some prototype) →
      Compiled globals prototype →
      (∀ capture ∈ prototype.captures, capture.isLocal = true → capture.index ≤ profile.height) →
      next ⟨profile.offset + 3, profile.height + 1, fun slot => profile.held slot ∨
        ∃ capture ∈ prototype.captures, capture.isLocal = true ∧ capture.index = slot, none⟩ →
      Fine globals chunk arguments next profile .closure a b
  | matchValue {a b : Nat} {matcher : Matcher} : chunk.matchers[a]? = some matcher → b < profile.height →
      next ⟨profile.offset + 5, profile.height + matcher.bindingCount + 1, profile.held, some true⟩ →
      next ⟨profile.offset + 5, profile.height + 1, profile.held, some false⟩ →
      Fine globals chunk arguments next profile .matchValue a b
  | matchArgs {a b : Nat} {matchers : List Matcher} : chunk.clauses[a]? = some matchers →
      arguments ≤ profile.height →
      (arguments = matchers.length →
        next ⟨profile.offset + 3, profile.height + Matcher.bindings matchers + 1, profile.held, some true⟩) →
      next ⟨profile.offset + 3, profile.height + 1, profile.held, some false⟩ →
      Fine globals chunk arguments next profile .matchArgs a b
  | noMatchingArm {a b : Nat} : Fine globals chunk arguments next profile .noMatchingArm a b
  | noMatchingOverload {a b : Nat} : Fine globals chunk arguments next profile .noMatchingOverload a b

theorem Fine.mono {next wider : Profile → Prop} {profile : Profile} {op : Opcode} {a b : Nat}
    (hfine : Fine globals chunk arguments next profile op a b) (hwider : ∀ other, next other → wider other) :
    Fine globals chunk arguments wider profile op a b := by
  cases hfine with
  | plain hplain htaken hseen hslot hfree hnext => exact .plain hplain htaken hseen hslot hfree (hwider _ hnext)
  | close hheight hnext => exact .close hheight (hwider _ hnext)
  | jump hnext => exact .jump (hwider _ hnext)
  | back hnext => exact .back (hwider _ hnext)
  | ifFalse hheight hthere hhere =>
    exact .ifFalse hheight (fun h => hwider _ (hthere h)) fun h => hwider _ (hhere h)
  | ifTrue hheight hthere hhere =>
    exact .ifTrue hheight (fun h => hwider _ (hthere h)) fun h => hwider _ (hhere h)
  | call hheight hfree hnext => exact .call hheight hfree (hwider _ hnext)
  | ret hheight hfree => exact .ret hheight hfree
  | halt => exact .halt
  | closure hfound hcompiled hcaptures hnext => exact .closure hfound hcompiled hcaptures (hwider _ hnext)
  | matchValue hfound hslot hmatches hfails =>
    exact .matchValue hfound hslot (hwider _ hmatches) (hwider _ hfails)
  | matchArgs hfound harguments hmatches hfails =>
    exact .matchArgs hfound harguments (fun h => hwider _ (hmatches h)) (hwider _ hfails)
  | noMatchingArm => exact .noMatchingArm
  | noMatchingOverload => exact .noMatchingOverload

/-- Fewer slots with cells do no harm. -/
theorem Fine.of_fewer {next : Profile → Prop}
    (hnext : ∀ (other : Profile) (fewer : Nat → Prop), next other →
      (∀ slot, fewer slot → other.held slot) → next { other with held := fewer })
    {profile : Profile} {op : Opcode} {a b : Nat} (hfine : Fine globals chunk arguments next profile op a b)
    {fewer : Nat → Prop} (hfewer : ∀ slot, fewer slot → profile.held slot) :
    Fine globals chunk arguments next { profile with held := fewer } op a b := by
  cases hfine with
  | plain hplain htaken hseen hslot hfree hthen =>
    exact .plain hplain htaken hseen hslot (fun slot h hheld => hfree slot h (hfewer slot hheld))
      (hnext _ fewer hthen hfewer)
  | close hheight hthen =>
    exact .close hheight (hnext _ _ hthen fun slot h => ⟨hfewer slot h.1, h.2⟩)
  | jump hthen => exact .jump (hnext _ fewer hthen hfewer)
  | back hthen => exact .back (hnext _ fewer hthen hfewer)
  | ifFalse hheight hthere hhere =>
    exact .ifFalse hheight (fun h => hnext _ fewer (hthere h) hfewer) fun h => hnext _ fewer (hhere h) hfewer
  | ifTrue hheight hthere hhere =>
    exact .ifTrue hheight (fun h => hnext _ fewer (hthere h) hfewer) fun h => hnext _ fewer (hhere h) hfewer
  | call hheight hfree hthen =>
    exact .call hheight (fun slot h hheld => hfree slot h (hfewer slot hheld)) (hnext _ fewer hthen hfewer)
  | ret hheight hfree => exact .ret hheight fun hheld => hfree (hfewer _ hheld)
  | halt => exact .halt
  | closure hfound hcompiled hcaptures hthen =>
    exact .closure hfound hcompiled hcaptures
      (hnext _ _ hthen fun slot h => h.imp_left (hfewer slot))
  | matchValue hfound hslot hmatches hfails =>
    exact .matchValue hfound hslot (hnext _ fewer hmatches hfewer) (hnext _ fewer hfails hfewer)
  | matchArgs hfound harguments hmatches hfails =>
    exact .matchArgs hfound harguments (fun h => hnext _ fewer (hmatches h) hfewer)
      (hnext _ fewer hfails hfewer)
  | noMatchingArm => exact .noMatchingArm
  | noMatchingOverload => exact .noMatchingOverload

/-- So many operations from a profile on do not go wrong: each is there, is fine, and finds the frame at
the height that stands beside it. -/
def Safe (globals : GlobalTable) (F : Listing True) (arguments : Nat) : Nat → Profile → Prop
  | 0, _ => True
  | count + 1, profile =>
    (∀ height, F.Holds profile.offset height → profile.height = height) ∧
      (∀ slot, profile.held slot → slot < profile.height) ∧
      ∃ op a b, F.chunk.instructionAt? profile.offset = some (op, a, b) ∧
        Fine globals F.chunk arguments (Safe globals F arguments count) profile op a b

theorem Safe.fewer {count : Nat} {profile : Profile} (hsafe : Safe globals F arguments (count + 1) profile) :
    Safe globals F arguments count profile := by
  induction count generalizing profile with
  | zero => trivial
  | succ count ih =>
    obtain ⟨hheight, hheld, op, a, b, hinstruction, hfine⟩ := hsafe
    exact ⟨hheight, hheld, op, a, b, hinstruction, hfine.mono fun _ => ih⟩

theorem Safe.of_le {count more : Nat} (hle : count ≤ more) {profile : Profile}
    (hsafe : Safe globals F arguments more profile) : Safe globals F arguments count profile := by
  induction hle with
  | refl => exact hsafe
  | step _ ih => exact ih hsafe.fewer

theorem Safe.of_held {count : Nat} {profile : Profile} (hsafe : Safe globals F arguments count profile)
    {fewer : Nat → Prop} (hfewer : ∀ slot, fewer slot → profile.held slot) :
    Safe globals F arguments count { profile with held := fewer } := by
  induction count generalizing profile fewer with
  | zero => trivial
  | succ count ih =>
    obtain ⟨hheight, hheld, op, a, b, hinstruction, hfine⟩ := hsafe
    refine ⟨hheight, fun slot h => hheld slot (hfewer slot h), op, a, b, hinstruction, ?_⟩
    exact hfine.of_fewer (fun other fewer hother h => ih hother h) hfewer

/-- An instruction in front of safe code. -/
theorem safe_step {count p height a b : Nat} {op : Opcode} {location : Location} {held : Nat → Prop}
    {top : Option Bool} (hhas : F.Has p (some height) op a b location)
    (hheld : ∀ slot, held slot → slot < height)
    (hfine : Fine globals F.chunk arguments (Safe globals F arguments count) ⟨p, height, held, top⟩ op a b) :
    Safe globals F arguments (count + 1) ⟨p, height, held, top⟩ := by
  refine ⟨fun other hholds => ?_, hheld, op, a, b, hhas.instruction, hfine⟩
  have hsame := (hhas.height trivial).symm.trans (hholds trivial)
  cases hsame
  rfl

/-- An instruction in front of safe code, where the code says nothing about the height. -/
theorem safe_step_any {count p height a b : Nat} {op : Opcode} {location : Location} {held : Nat → Prop}
    {top : Option Bool} (hhas : F.Has p none op a b location) (hheld : ∀ slot, held slot → slot < height)
    (hfine : Fine globals F.chunk arguments (Safe globals F arguments count) ⟨p, height, held, top⟩ op a b) :
    Safe globals F arguments (count + 1) ⟨p, height, held, top⟩ := by
  refine ⟨fun other hholds => ?_, hheld, op, a, b, hhas.instruction, hfine⟩
  have hsame := (hhas.height trivial).symm.trans (hholds trivial)
  cases hsame

end Profile

end OwnScript
