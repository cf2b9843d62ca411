import OwnScript.Proofs.Program.Scoping

/-!
Programs without functions. Nothing in them is called, and nothing is there to be called: what such a program does
can be told from its tree alone, and what an earlier analysis has written on it makes no difference to a later one.
-/

namespace OwnScript

mutual

/-- Whether an expression neither calls a function nor makes one. -/
def Expr.callFree : Expr → Bool
  | .absent | .literal _ _ | .name _ | .move _ _ => true
  | .unary _ _ operand | .deref _ operand => operand.callFree
  | .binary _ _ left right => left.callFree && right.callFree
  | .call _ _ _ | .lambda _ _ => false
  | .field _ object _ => object.callFree
  | .index _ object index => object.callFree && index.callFree
  | .record _ fields => fieldsCallFree fields
  | .array _ items => exprsCallFree items
  | .borrow _ target _ => target.callFree

/-- Whether expressions neither call functions nor make any. -/
def exprsCallFree : List Expr → Bool
  | [] => true
  | expr :: rest => expr.callFree && exprsCallFree rest

/-- Whether the values of fields neither call functions nor make any. -/
def fieldsCallFree : List (String × Expr) → Bool
  | [] => true
  | (_, value) :: rest => value.callFree && fieldsCallFree rest

end

mutual

/-- Whether a statement neither calls a function nor makes one. -/
def Stmt.callFree : Stmt → Bool
  | .absent | .leave _ | .skip _ | .disown _ _ _ => true
  | .declare _ _ initial _ => initial.callFree
  | .assign _ _ value _ => value.callFree
  | .assignField _ object _ value => object.callFree && value.callFree
  | .assignIndex _ object index value => object.callFree && (index.callFree && value.callFree)
  | .evaluate _ expression | .print _ expression | .giveBack _ expression => expression.callFree
  | .block _ body => stmtsCallFree body
  | .ifElse _ condition yes no => condition.callFree && (yes.callFree && no.callFree)
  | .cond _ scrutinee arms => scrutinee.callFree && armsCallFree arms
  | .whileLoop _ condition body => condition.callFree && body.callFree
  | .forLoop _ _ _ first bound body => first.callFree && (bound.callFree && body.callFree)
  | .forever _ body => body.callFree
  | .function _ _ _ => false

/-- Whether statements neither call functions nor make any. -/
def stmtsCallFree : List Stmt → Bool
  | [] => true
  | stmt :: rest => stmt.callFree && stmtsCallFree rest

/-- Whether the arms of a cond neither call functions nor make any. -/
def armsCallFree : List Arm → Bool
  | [] => true
  | ⟨_, _, guard, body⟩ :: rest => (guard.callFree && stmtsCallFree body) && armsCallFree rest

end

theorem Stmt.isFunction_of_callFree {stmt : Stmt} (hfree : stmt.callFree = true) : stmt.isFunction = false := by
  cases stmt with
  | function => cases hfree
  | _ => rfl

theorem stmtsCallFree_iff {stmts : List Stmt} : stmtsCallFree stmts = true ↔ ∀ stmt ∈ stmts, stmt.callFree = true := by
  induction stmts with
  | nil => exact ⟨fun _ => nofun, fun _ => rfl⟩
  | cons stmt rest ih => rw [stmtsCallFree, Bool.and_eq_true, ih, List.forall_mem_cons]

/-- It is for an analysis to say where names lead: no name carries anything yet, or there are no functions. Of a
function that carries a number an analysis believes that it is declared already. -/
def Undecided (outline : List Naming) (free : Bool) : Prop :=
  Unresolved outline ∨ free = true

namespace Undecided

variable {outline more : List Naming} {free others : Bool}

theorem both (hopen : Undecided (outline ++ more) (free && others)) :
    Undecided outline free ∧ Undecided more others := by
  rcases hopen with hopen | hfree
  · exact (unresolved_append.mp hopen).imp .inl .inl
  · exact ((Bool.and_eq_true _ _).mp hfree).imp .inr .inr

theorem first (hopen : Undecided (outline ++ more) free) : Undecided outline free :=
  hopen.imp_left fun h => (unresolved_append.mp h).1

theorem second (hopen : Undecided (outline ++ more) free) : Undecided more free :=
  hopen.imp_left fun h => (unresolved_append.mp h).2

theorem inside (hopen : Undecided [.scope outline] free) : Undecided outline free :=
  hopen.imp_left unresolved_scope.mp

/-- The first scope of an outline and what comes after it. -/
theorem scope (hopen : Undecided (.scope outline :: more) (free && others)) :
    Undecided outline free ∧ Undecided more others :=
  (@both [.scope outline] more free others hopen).imp_left inside

end Undecided

namespace Program

/-- A program without functions. -/
def callFree (program : Program) : Bool :=
  stmtsCallFree program.statements

theorem isFunction_of_callFree {program : Program} (hfree : program.callFree = true) :
    ∀ stmt ∈ program.statements, stmt.isFunction = false :=
  fun stmt hstmt => Stmt.isFunction_of_callFree (stmtsCallFree_iff.mp hfree stmt hstmt)

end Program

end OwnScript
