import OwnScript.Proofs.Code.Instructions

/-!
Which globals are defined, as code alone decides it. A place says where control is and which globals are
defined there. It is covered if no sequence of operations from it reads an undefined global; how many
operations are looked at is counted, so that loops are no obstacle. A function may run once its first
instruction is covered. A closure of a function that may not run yet is on top of the stack for a moment
only: it is dropped, or it becomes the value of a global that is known to start with it.
-/

namespace OwnScript

/-- The matchers that accept every value. -/
def Matcher.acceptsAll : Matcher → Bool
  | .node .wildcard _ | .node .binding _ => true
  | _ => false

namespace Opcode

/-- The operations that need their global to be defined. -/
def readsGlobal : Opcode → Bool
  | .getGlobal | .moveGlobal => true
  | _ => false

/-- Where control may be in the code of the same function after an operation. If the value on top is
surely true, a jump that needs a false one is not taken. -/
def targets (offset a : Nat) (met : Bool) : Opcode → List Nat
  | .jump => [offset + 3 + a]
  | .loopBack => [offset + 3 - a]
  | .jumpIfFalse => if met then [offset + 3] else [offset + 3 + a, offset + 3]
  | .jumpIfTrue => [offset + 3 + a, offset + 3]
  | .ret | .halt | .noMatchingArm | .noMatchingOverload => []
  | op => [offset + op.size]

/-- The operations after which as much is known as before and control goes on behind. -/
def isQuiet : Opcode → Bool
  | .jump | .loopBack | .jumpIfFalse | .jumpIfTrue | .ret | .halt | .noMatchingArm | .noMatchingOverload
  | .getGlobal | .setGlobal | .moveGlobal | .closure | .matchValue => false
  | _ => true

end Opcode

/-- Where control is, and what is known there. -/
structure Place where
  chunk : Chunk
  offset : Nat
  /-- The slots of the globals that are defined. -/
  defined : Set Nat
  /-- The functions that may not run yet of which the value on top may be a closure. -/
  loose : Set (Option Prototype) := ∅
  /-- Whether the value on top is surely true. -/
  met : Bool := false

/-- The functions whose closures the globals are given before any statement runs. -/
abbrev Originals := Nat → Set (Option Prototype)

namespace Place

/-- The globals that are defined after an operation. -/
def definedAfter (place : Place) (a : Nat) : Opcode → Set Nat
  | .setGlobal => insert a place.defined
  | _ => place.defined

/-- The closures that may be loose after an operation. -/
def looseAfter (originals : Originals) (place : Place) (a : Nat) : Opcode → Set (Option Prototype)
  | .getGlobal | .moveGlobal => originals a
  | .closure => { function | place.chunk.functions[a]? = some function }
  | .setGlobal => place.loose
  | _ => ∅

/-- Whether the value on top is surely true after an operation. -/
def metAfter (place : Place) (a : Nat) : Opcode → Bool
  | .matchValue => place.chunk.matchers[a]?.any Matcher.acceptsAll
  | _ => false

/-- The place at an offset after an operation. -/
def next (originals : Originals) (place : Place) (op : Opcode) (a offset : Nat) : Place :=
  ⟨place.chunk, offset, place.definedAfter a op, place.looseAfter originals a op, place.metAfter a op⟩

/-- An operation lets nobody get hold of a loose closure. -/
def Hides (originals : Originals) (place : Place) (op : Opcode) (a : Nat) : Prop :=
  op = .pop ∨ (op = .setGlobal ∧ place.loose ⊆ originals a)

end Place

/-- So many operations from a place on find the globals that they read defined. Unless a loose closure stays
hidden, its function may run. -/
def Covers (originals : Originals) : Nat → Place → Prop
  | 0, _ => True
  | count + 1, place =>
    ∃ op a b, place.chunk.instructionAt? place.offset = some (op, a, b) ∧
      (op.readsGlobal = true → a ∈ place.defined) ∧
      (place.Hides originals op a ∨ ∀ function ∈ place.loose, ∃ prototype chunk, function = some prototype ∧
        prototype.chunk = some chunk ∧ Covers originals count { chunk, offset := 0, defined := place.defined }) ∧
      ∀ offset ∈ op.targets place.offset a place.met, Covers originals count (place.next originals op a offset)

/-- So many operations of a function find the globals that they read defined. -/
def Entered (originals : Originals) (count : Nat) (defined : Set Nat) (function : Option Prototype) : Prop :=
  ∃ prototype chunk, function = some prototype ∧ prototype.chunk = some chunk ∧
    Covers originals count { chunk, offset := 0, defined }

/-- The functions that may run. -/
def Runnable (originals : Originals) (defined : Set Nat) (function : Option Prototype) : Prop :=
  ∃ prototype chunk, function = some prototype ∧ prototype.chunk = some chunk ∧
    ∀ count, Covers originals count { chunk, offset := 0, defined }

variable {originals : Originals} {place : Place} {count longer : Nat}

/-- What a covered place says of its next operation. -/
theorem covers_succ : Covers originals (count + 1) place ↔
    ∃ op a b, place.chunk.instructionAt? place.offset = some (op, a, b) ∧
      (op.readsGlobal = true → a ∈ place.defined) ∧
      (place.Hides originals op a ∨ ∀ function ∈ place.loose, Entered originals count place.defined function) ∧
      ∀ offset ∈ op.targets place.offset a place.met, Covers originals count (place.next originals op a offset) :=
  Iff.rfl

theorem Covers.fewer (hcovers : Covers originals (count + 1) place) : Covers originals count place := by
  induction count generalizing place with
  | zero => trivial
  | succ count ih =>
    obtain ⟨op, a, b, hinstruction, hreads, hloose, hnext⟩ := covers_succ.mp hcovers
    refine covers_succ.mpr ⟨op, a, b, hinstruction, hreads, hloose.imp_right fun h function hfunction => ?_,
      fun offset hoffset => ih (hnext offset hoffset)⟩
    obtain ⟨prototype, chunk, hsome, hchunk, hentered⟩ := h function hfunction
    exact ⟨prototype, chunk, hsome, hchunk, ih hentered⟩

theorem Covers.of_le (hle : count ≤ longer) (hcovers : Covers originals longer place) :
    Covers originals count place := by
  induction hle with
  | refl => exact hcovers
  | step _ ih => exact ih hcovers.fewer

/-- More globals that are defined and fewer loose closures do no harm. -/
theorem Covers.mono (hcovers : Covers originals count place) {defined : Set Nat} {loose : Set (Option Prototype)}
    (hdefined : place.defined ⊆ defined) (hloose : loose ⊆ place.loose) :
    Covers originals count { place with defined, loose } := by
  induction count generalizing place defined loose with
  | zero => trivial
  | succ count ih =>
    obtain ⟨op, a, b, hinstruction, hreads, hhides, hnext⟩ := covers_succ.mp hcovers
    refine covers_succ.mpr ⟨op, a, b, hinstruction, fun h => hdefined (hreads h), ?_, fun offset hoffset => ?_⟩
    · refine hhides.imp (fun h => h.imp_right fun h => ⟨h.1, hloose.trans h.2⟩) fun h function hfunction => ?_
      obtain ⟨prototype, chunk, hsome, hchunk, hentered⟩ := h function (hloose hfunction)
      exact ⟨prototype, chunk, hsome, hchunk, ih hentered hdefined subset_rfl⟩
    · have hthen := hnext offset hoffset
      cases op with
      | setGlobal => exact ih hthen (Set.insert_subset_insert hdefined) hloose
      | _ => exact ih hthen hdefined subset_rfl

theorem Covers.more (hcovers : Covers originals count place) {defined : Set Nat} (hdefined : place.defined ⊆ defined) :
    Covers originals count { place with defined } :=
  hcovers.mono hdefined subset_rfl

theorem Entered.more {defined wider : Set Nat} {function : Option Prototype}
    (hentered : Entered originals count defined function) (hdefined : defined ⊆ wider) :
    Entered originals count wider function := by
  obtain ⟨prototype, chunk, hsome, hchunk, hcovers⟩ := hentered
  exact ⟨prototype, chunk, hsome, hchunk, hcovers.more hdefined⟩

theorem Runnable.more {defined wider : Set Nat} {function : Option Prototype}
    (hrunnable : Runnable originals defined function) (hdefined : defined ⊆ wider) :
    Runnable originals wider function := by
  obtain ⟨prototype, chunk, hsome, hchunk, hcovers⟩ := hrunnable
  exact ⟨prototype, chunk, hsome, hchunk, fun count => (hcovers count).more hdefined⟩

/-- A closure of a function that may run is not loose. -/
theorem Covers.settle (hcovers : Covers originals count place) (hempty : place.loose = ∅)
    {loose : Set (Option Prototype)}
    (hentered : ∀ fewer < count, ∀ function ∈ loose, Entered originals fewer place.defined function) :
    Covers originals count { place with loose } := by
  induction count generalizing place with
  | zero => trivial
  | succ count ih =>
    obtain ⟨op, a, b, hinstruction, hreads, -, hnext⟩ := covers_succ.mp hcovers
    refine covers_succ.mpr ⟨op, a, b, hinstruction, hreads, .inr (hentered count (Nat.lt_succ_self _)),
      fun offset hoffset => ?_⟩
    have hthen := hnext offset hoffset
    cases op with
    | setGlobal =>
      refine ih hthen hempty fun fewer hfewer function hfunction => ?_
      exact (hentered fewer (hfewer.trans (Nat.lt_succ_self _)) function hfunction).more (Set.subset_insert _ _)
    | _ => exact hthen

/-- However many operations are looked at, the same holds of the next one. -/
theorem covers_always (hcovers : ∀ count, Covers originals count place) :
    ∃ op a b, place.chunk.instructionAt? place.offset = some (op, a, b) ∧
      (op.readsGlobal = true → a ∈ place.defined) ∧
      (place.Hides originals op a ∨ ∀ function ∈ place.loose, Runnable originals place.defined function) ∧
      ∀ offset ∈ op.targets place.offset a place.met,
        ∀ count, Covers originals count (place.next originals op a offset) := by
  obtain ⟨op, a, b, hinstruction, hreads, -, -⟩ := covers_succ.mp (hcovers 1)
  have hagain (count : Nat) :
      (place.Hides originals op a ∨ ∀ function ∈ place.loose, Entered originals count place.defined function) ∧
      ∀ offset ∈ op.targets place.offset a place.met,
        Covers originals count (place.next originals op a offset) := by
    obtain ⟨op', a', b', hsame, -, hloose, hnext⟩ := covers_succ.mp (hcovers (count + 1))
    cases hinstruction.symm.trans hsame
    exact ⟨hloose, hnext⟩
  refine ⟨op, a, b, hinstruction, hreads, ?_, fun offset hoffset count => (hagain count).2 offset hoffset⟩
  by_cases hhides : place.Hides originals op a
  · exact .inl hhides
  · have hentered (count : Nat) := (hagain count).1.resolve_left hhides
    refine .inr fun function hfunction => ?_
    obtain ⟨prototype, chunk, rfl, hchunk, -⟩ := hentered 0 function hfunction
    refine ⟨prototype, chunk, rfl, hchunk, fun count => ?_⟩
    obtain ⟨other, code, hsome, hcode, hcode'⟩ := hentered count _ hfunction
    cases hsome
    cases hchunk.symm.trans hcode
    exact hcode'

/-- A quiet operation leaves everything as it is. -/
theorem next_quiet {op : Opcode} (hquiet : op.isQuiet = true) (a : Nat) :
    op.readsGlobal = false ∧ op.targets place.offset a place.met = [place.offset + op.size] ∧
      ∀ offset, place.next originals op a offset = { chunk := place.chunk, offset, defined := place.defined } := by
  cases op <;> first | exact ⟨rfl, rfl, fun _ => rfl⟩ | cases hquiet

end OwnScript
