import Mathlib
import OwnScript.Program.Basic

/-!
Programs that read global variables in time. The rules follow control through a program whose names are
resolved and say, for the globals that are surely defined at a point, that those read from there on are among
them. A global never becomes undefined again, so a loop may be entered with what is defined before it, and a
function may run with what is defined where it is made.
-/

namespace OwnScript

/-- The globals that are surely defined at some point. -/
abbrev Globals := Set BindingId

/-- What has to hold where control leaves a statement: behind it, behind the innermost loop and at the next
turn of that loop. -/
structure Exits where
  fall : Globals → Prop
  leave : Globals → Prop
  skip : Globals → Prop

/-- Control may leave in every way. -/
def Exits.free : Exits :=
  ⟨fun _ => True, fun _ => True, fun _ => True⟩

/-- The ways out of the body of a loop that is entered with some globals: the next turn asks for no more than
these. -/
def Exits.turn (exits : Exits) (entered : Globals) : Exits :=
  ⟨fun defined => entered ⊆ defined, exits.fall, fun defined => entered ⊆ defined⟩

/-- What is defined once a name has got a value. -/
def Resolution.define (resolution : Resolution) (defined : Globals) : Globals :=
  { id | id ∈ defined ∨ (resolution.isGlobal = true ∧ resolution.binding = some id) }

/-- A name may be read: it is not that of a global, or its global may be read. -/
def Resolution.Timely (may : Globals → BindingId → Prop) (resolution : Resolution) (defined : Globals) : Prop :=
  resolution.isGlobal = true → ∀ id, resolution.binding = some id → may defined id

/-- The global functions of a program, which exist before its first statement runs, and the globals that each of
them may read when it is called. -/
structure Readiness where
  functions : Globals
  reads : BindingId → Globals

namespace Readiness

variable (readiness : Readiness)

/-- A global function may be called. -/
def Ready (function : BindingId) (defined : Globals) : Prop :=
  readiness.functions ⊆ defined ∧ readiness.reads function ⊆ defined

/-- A global may be read. Whoever gets hold of a global function may call it at once. -/
def May (defined : Globals) (id : BindingId) : Prop :=
  id ∈ defined ∧ (id ∈ readiness.functions → readiness.Ready id defined)

end Readiness

mutual

/-- An expression reads what may be read. A function inside may run from now on. -/
def Expr.Timely (may : Globals → BindingId → Prop) : Expr → Globals → Prop
  | .absent, _ | .literal _ _, _ => True
  | .name identifier, defined => identifier.resolution.Timely may defined
  | .unary _ _ operand, defined => operand.Timely may defined
  | .binary _ _ left right, defined => left.Timely may defined ∧ right.Timely may defined
  | .call _ callee arguments, defined => callee.Timely may defined ∧ exprsTimely may arguments defined
  | .field _ object _, defined => object.Timely may defined
  | .index _ object index, defined => object.Timely may defined ∧ index.Timely may defined
  | .record _ fields, defined => fieldsTimely may fields defined
  | .array _ items, defined => exprsTimely may items defined
  | .lambda _ function, defined => function.Timely may defined
  | .borrow _ target _, defined => target.Timely may defined
  | .move _ none, _ => True
  | .move _ (some identifier), defined => identifier.resolution.Timely may defined
  | .deref _ operand, defined => operand.Timely may defined

/-- Expressions read what may be read. -/
def exprsTimely (may : Globals → BindingId → Prop) : List Expr → Globals → Prop
  | [], _ => True
  | expr :: rest, defined => expr.Timely may defined ∧ exprsTimely may rest defined

/-- The values of fields read what may be read. -/
def fieldsTimely (may : Globals → BindingId → Prop) : List (String × Expr) → Globals → Prop
  | [], _ => True
  | (_, value) :: rest, defined => value.Timely may defined ∧ fieldsTimely may rest defined

/-- A statement reads what may be read, and control leaves it with what its exits ask for. -/
def Stmt.Timely (may : Globals → BindingId → Prop) : Stmt → Globals → Exits → Prop
  | .absent, defined, exits => exits.fall defined
  | .declare _ _ initial resolution, defined, exits =>
    initial.Timely may defined ∧
      exits.fall (if initial.isAbsent then defined else resolution.define defined)
  | .assign _ _ value resolution, defined, exits =>
    value.Timely may defined ∧ exits.fall (resolution.define defined)
  | .assignField _ object _ value, defined, exits =>
    object.Timely may defined ∧ value.Timely may defined ∧ exits.fall defined
  | .assignIndex _ object index value, defined, exits =>
    object.Timely may defined ∧ index.Timely may defined ∧ value.Timely may defined ∧ exits.fall defined
  | .evaluate _ expression, defined, exits => expression.Timely may defined ∧ exits.fall defined
  | .print _ expression, defined, exits => expression.Timely may defined ∧ exits.fall defined
  | .block _ body, defined, exits => stmtsTimely may body defined exits
  | .ifElse _ condition yes no, defined, exits =>
    condition.Timely may defined ∧ yes.Timely may defined exits ∧ no.Timely may defined exits
  | .cond _ scrutinee arms, defined, exits =>
    scrutinee.Timely may defined ∧ armsTimely may arms defined exits
  | .whileLoop _ condition body, defined, exits =>
    condition.Timely may defined ∧ body.Timely may defined (exits.turn defined) ∧ exits.fall defined
  | .forLoop _ _ _ first bound body, defined, exits =>
    first.Timely may defined ∧ bound.Timely may defined ∧ body.Timely may defined (exits.turn defined) ∧
      exits.fall defined
  | .forever _ body, defined, exits => body.Timely may defined (exits.turn defined)
  | .leave _, defined, exits => exits.leave defined
  | .skip _, defined, exits => exits.skip defined
  | .giveBack _ value, defined, _ => value.Timely may defined
  | .disown _ _ resolution, defined, exits =>
    -- Nobody gets hold of a value that is given up.
    resolution.Timely (fun defined id => id ∈ defined) defined ∧ exits.fall defined
  | .function _ declaration resolution, defined, exits =>
    -- The global functions exist before the first statement runs.
    (resolution.isGlobal = false → declaration.Timely may defined) ∧ exits.fall defined

/-- Statements in order. -/
def stmtsTimely (may : Globals → BindingId → Prop) : List Stmt → Globals → Exits → Prop
  | [], defined, exits => exits.fall defined
  | stmt :: rest, defined, exits =>
    stmt.Timely may defined { exits with fall := fun defined => stmtsTimely may rest defined exits }

/-- The arms of a cond: every guard may run, and so may every body. -/
def armsTimely (may : Globals → BindingId → Prop) : List Arm → Globals → Exits → Prop
  | [], _, _ => True
  | ⟨_, _, guard, body⟩ :: rest, defined, exits =>
    guard.Timely may defined ∧ stmtsTimely may body defined exits ∧ armsTimely may rest defined exits

/-- A function may run. -/
def Function.Timely (may : Globals → BindingId → Prop) : Function → Globals → Prop
  | ⟨_, _, clauses⟩, defined => clausesTimely may clauses defined

/-- Every clause of a function may run. -/
def clausesTimely (may : Globals → BindingId → Prop) : List Clause → Globals → Prop
  | [], _ => True
  | ⟨_, _, body⟩ :: rest, defined => stmtsTimely may body defined .free ∧ clausesTimely may rest defined

end

/-- A program reads its globals in time: its statements do if the global functions are defined, and each of
these does once it may be called. -/
structure Readiness.Respected (readiness : Readiness) (statements : List Stmt) : Prop where
  listed : ∀ id ∈ readiness.functions,
    ∃ location declaration, .function location declaration ⟨some id, true⟩ ∈ statements
  functions : ∀ location declaration id, .function location declaration ⟨some id, true⟩ ∈ statements →
    id ∈ readiness.functions ∧ ∀ defined, readiness.Ready id defined → declaration.Timely readiness.May defined
  statements : stmtsTimely readiness.May statements readiness.functions .free

end OwnScript
