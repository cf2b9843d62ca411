import OwnScript.Proofs.Stack.Alignment

/-!
How code begins. The code of a function starts with a test of its arguments, that of a script never does, so the
code of a prototype can be read in one of the two ways only.
-/

namespace OwnScript

/-- The operations that stand in the code of functions, in front of their clauses and behind them. -/
def Opcode.testsArguments : Opcode → Bool
  | .matchArgs | .noMatchingOverload => true
  | _ => false

/-- At an offset stands an operation that does not test arguments. -/
def Listing.Works (F : Listing True) (offset : Nat) : Prop :=
  ∃ op a b, F.chunk.instructionAt? offset = some (op, a, b) ∧ op.testsArguments = false

variable {globals : GlobalTable} {F G : Listing True} {p q : Nat}

theorem Listing.Has.works {height : Option Nat} {op : Opcode} {a b : Nat} {location : Location}
    (hhas : F.Has p height op a b location) (hop : op.testsArguments = false) : F.Works p :=
  ⟨op, a, b, hhas.instruction, hop⟩

theorem Listing.Jumps.works {height : Option Nat} {op : Opcode} {location : Location} {target : Nat}
    (hjumps : F.Jumps p height op location target) (hop : op.testsArguments = false) : F.Works p := by
  obtain ⟨distance, hhas, -⟩ := hjumps
  exact hhas.works hop

theorem testsArguments_access {scope : FrameScope} {resolution : Resolution} {how : Emit.Access} {op : Opcode} {a : Nat}
    (haccesses : Accesses globals scope resolution how op a) : op.testsArguments = false := by
  cases haccesses <;> cases how <;> rfl

theorem testsArguments_loads {chunk : Chunk} {value : Literal} {op : Opcode} {a : Nat}
    (hloads : Loads chunk value op a) : op.testsArguments = false := by
  cases hloads <;> rfl

theorem DropCode.works {location : Location} {outside : Nat} {dropped : FrameScope}
    (hcode : DropCode F location outside dropped p q) (hnext : F.Works q) : F.Works p := by
  cases hcode with
  | nil => exact hnext
  | @cons var _ _ _ hhas =>
    refine hhas.works ?_
    unfold FrameVar.dropOp
    split <;> rfl

theorem ClosureCode.works {height : Nat} {scope after : FrameScope} {location : Location} {function : Function}
    (hcode : ClosureCode globals F height scope p location function after) : F.Works p := by
  cases hcode with
  | intro hhas => exact hhas.works rfl

mutual

theorem ExprCode.works (expr : Expr) {height p q : Nat} {scope after : FrameScope}
    (hcode : ExprCode globals F height scope p expr after q) : F.Works p := by
  cases expr with
  | absent =>
    cases hcode with
    | absent huntracked => exact absurd trivial huntracked
  | literal =>
    cases hcode with
    | literal hhas hloads => exact hhas.works (testsArguments_loads hloads)
  | name =>
    cases hcode with
    | name hhas haccesses => exact hhas.works (testsArguments_access haccesses)
  | unary =>
    cases hcode with
    | unary hoperand => exact ExprCode.works _ hoperand
  | binary =>
    cases hcode with
    | binary _ hleft => exact ExprCode.works _ hleft
    | logical _ hleft => exact ExprCode.works _ hleft
  | call =>
    cases hcode with
    | call hcallee => exact ExprCode.works _ hcallee
  | field =>
    cases hcode with
    | field hobject => exact ExprCode.works _ hobject
  | index =>
    cases hcode with
    | index hobject => exact ExprCode.works _ hobject
  | record =>
    cases hcode with
    | record hfields hhas => exact FieldsCode.works _ hfields (hhas.works rfl)
  | array =>
    cases hcode with
    | array hitems hhas => exact ExprsCode.works _ hitems (hhas.works rfl)
  | lambda =>
    cases hcode with
    | lambda hclosure => exact hclosure.works
  | borrow =>
    cases hcode with
    | borrow htarget => exact ExprCode.works _ htarget
  | move =>
    cases hcode with
    | move hhas haccesses => exact hhas.works (testsArguments_access haccesses)
  | deref =>
    cases hcode with
    | deref hoperand => exact ExprCode.works _ hoperand
termination_by structural expr

theorem ExprsCode.works (exprs : List Expr) {height p q : Nat} {scope after : FrameScope}
    (hcode : ExprsCode globals F height scope p exprs after q) (hnext : F.Works q) : F.Works p := by
  cases exprs with
  | nil =>
    cases hcode
    exact hnext
  | cons =>
    cases hcode with
    | cons hfirst => exact ExprCode.works _ hfirst
termination_by structural exprs

theorem FieldsCode.works (fields : List (String × Expr)) {height p q : Nat} {scope after : FrameScope}
    (hcode : FieldsCode globals F height scope p fields after q) (hnext : F.Works q) : F.Works p := by
  cases fields with
  | nil =>
    cases hcode
    exact hnext
  | cons field =>
    obtain ⟨name, value⟩ := field
    cases hcode with
    | cons hfirst => exact ExprCode.works value hfirst
termination_by structural fields

end

mutual

/-- A statement without code is followed by the next one. -/
theorem StmtCode.works (stmt : Stmt) {loop : Option LoopPlan} {scope after : FrameScope} {p q : Nat}
    (hcode : StmtCode globals F loop scope p stmt after q) (hnext : F.Works q) : F.Works p := by
  cases stmt with
  | absent =>
    cases hcode
    exact hnext
  | declare =>
    cases hcode with
    | declareUndefined => exact hnext
    | declareGlobal _ _ _ hinitial => exact ExprCode.works _ hinitial
    | declareEmpty _ hhas => exact hhas.works rfl
    | declareLocal _ hinitial => exact ExprCode.works _ hinitial
  | assign =>
    cases hcode with
    | assign hvalue => exact ExprCode.works _ hvalue
  | assignField =>
    cases hcode with
    | assignField hobject => exact ExprCode.works _ hobject
  | assignIndex =>
    cases hcode with
    | assignIndex hobject => exact ExprCode.works _ hobject
  | evaluate =>
    cases hcode with
    | evaluate hexpression => exact ExprCode.works _ hexpression
  | print =>
    cases hcode with
    | print hexpression => exact ExprCode.works _ hexpression
  | block location body =>
    cases hcode with
    | block hbody _ hdrop => exact StmtsCode.works body hbody (hdrop.works hnext)
  | ifElse =>
    cases hcode with
    | ifElse hcondition => exact ExprCode.works _ hcondition
  | cond location scrutinee arms =>
    cases hcode with
    | condGuards harms => exact GuardedCode.works arms harms
    | condPatterns _ hscrutinee => exact ExprCode.works _ hscrutinee
  | whileLoop =>
    cases hcode with
    | whileLoop hcondition => exact ExprCode.works _ hcondition
  | forLoop =>
    cases hcode with
    | forLoop hstart => exact ExprCode.works _ hstart
  | forever location body =>
    cases hcode with
    | forever _ hbody _ hdrop hrepeats =>
      obtain ⟨distance, hhas, -⟩ := hrepeats
      exact StmtCode.works body hbody (hdrop.works (hhas.works rfl))
  | leave =>
    cases hcode with
    | leave _ hdrop hjumps => exact hdrop.works (hjumps.works rfl)
  | skip =>
    cases hcode with
    | skip _ hdrop hjumps => exact hdrop.works (hjumps.works rfl)
  | giveBack =>
    cases hcode with
    | giveBackNil hhas => exact hhas.works rfl
    | giveBack hvalue => exact ExprCode.works _ hvalue
  | disown =>
    cases hcode with
    | disown hhas haccesses => exact hhas.works (testsArguments_access haccesses)
  | function =>
    cases hcode with
    | functionGlobal => exact hnext
    | functionLocal _ hclosure => exact hclosure.works
termination_by structural stmt

theorem StmtsCode.works (stmts : List Stmt) {loop : Option LoopPlan} {scope after : FrameScope} {p q : Nat}
    (hcode : StmtsCode globals F loop scope p stmts after q) (hnext : F.Works q) : F.Works p := by
  cases stmts with
  | nil =>
    cases hcode
    exact hnext
  | cons stmt rest =>
    cases hcode with
    | cons _ hstmt hrest => exact StmtCode.works stmt hstmt (StmtsCode.works rest hrest hnext)
termination_by structural stmts

theorem GuardedCode.works (arms : List Arm) {loop : Option LoopPlan} {location : Location} {scope after : FrameScope}
    {p q : Nat} (hcode : GuardedCode globals F loop location scope p arms after q) : F.Works p := by
  cases arms with
  | nil =>
    cases hcode with
    | nil hhas => exact hhas.works rfl
  | cons arm rest =>
    obtain ⟨place, pattern, guard, body⟩ := arm
    cases hcode with
    | last hbody _ hdrop hjumps => exact StmtsCode.works body hbody (hdrop.works (hjumps.works rfl))
    | cons _ hguard => exact ExprCode.works _ hguard
termination_by structural arms

end

theorem HoistCode.works {statements : List Stmt} (hcode : HoistCode globals F p statements q) (hnext : F.Works q) :
    F.Works p := by
  induction hcode with
  | nil => exact hnext
  | function hclosure => exact hclosure.works
  | skip _ _ ih => exact ih hnext

theorem ScriptCode.works {prototype : Prototype} {statements : List Stmt}
    (hcode : ScriptCode globals F prototype statements) : F.Works 0 := by
  cases hcode with
  | intro _ hhoist hbody hhalt => exact hhoist.works (StmtsCode.works _ hbody (hhalt.works rfl))

/-- The code of a function tests the arguments first, also where it has no clause. -/
theorem PrototypeCode.tests {location : Location} {prototype : Prototype} {function : Function}
    (hcode : PrototypeCode globals F location prototype function) : ¬ F.Works 0 := by
  rintro ⟨op, a, b, hinstruction, hop⟩
  have hother {height : Option Nat} {other : Opcode} {c d : Nat} {place : Location}
      (hhas : F.Has 0 height other c d place) (htests : other.testsArguments = true) : False := by
    cases hinstruction.symm.trans hhas.instruction
    rw [htests] at hop
    cases hop
  cases hcode with
  | intro _ hclauses hlast =>
    cases hclauses with
    | nil => exact hother hlast rfl
    | cons _ hmatch => exact hother hmatch rfl

/-- The code of a prototype is that of a script or that of a function. -/
theorem LaidOut.unique {statements : List Stmt} {prototype : Prototype} {asScript other : Bool}
    (hlaid : LaidOut globals statements asScript prototype F) (hagain : LaidOut globals statements other prototype G) :
    asScript = other := by
  have hsame : F.chunk = G.chunk := Option.some.inj (hlaid.1.symm.trans hagain.1)
  have hworks (H : Listing True) : H.Works 0 ↔ ∃ op a b, H.chunk.instructionAt? 0 = some (op, a, b) ∧
      op.testsArguments = false := Iff.rfl
  obtain ⟨-, hlaid⟩ := hlaid
  obtain ⟨-, hagain⟩ := hagain
  cases asScript with
  | true =>
    cases other with
    | true => rfl
    | false =>
      obtain ⟨location, function, hcode⟩ := hagain
      refine absurd ?_ hcode.tests
      rw [hworks, ← hsame]
      exact ScriptCode.works hlaid
  | false =>
    cases other with
    | false => rfl
    | true =>
      obtain ⟨location, function, hcode⟩ := hlaid
      refine absurd ?_ hcode.tests
      rw [hworks, hsame]
      exact ScriptCode.works hagain

end OwnScript
