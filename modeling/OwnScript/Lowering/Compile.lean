import OwnScript.Lowering.Emitter
import OwnScript.Lowering.Patterns

/-!
Code generation. An expression becomes code that pushes its value; a statement becomes code that
leaves the stack as it was, apart from the variables that it declares. Global functions are
built before the first statement runs. Statements and expressions nest to a fixed depth only.
-/

namespace OwnScript

/-- How deep expressions and statements may nest, function bodies included. -/
def maxSourceNesting : Nat := 256

/-- The operation of an operator with one operand. -/
def UnaryOp.opcode : UnaryOp → Opcode
  | .negate => .negate
  | .logicalNot => .logicalNot
  | .bitwiseNot => .bitwiseNot

/-- The operation of an operator with two operands. For the two that decide whether their right
operand runs, it is the jump over that operand. -/
def BinaryOp.opcode : BinaryOp → Opcode
  | .add => .add
  | .subtract => .subtract
  | .multiply => .multiply
  | .divide => .divide
  | .modulo => .modulo
  | .bitwiseAnd => .bitwiseAnd
  | .bitwiseOr => .bitwiseOr
  | .bitwiseXor => .bitwiseXor
  | .shiftLeft => .leftShift
  | .shiftRight => .rightShift
  | .equal => .equal
  | .notEqual => .notEqual
  | .less => .less
  | .lessEqual => .lessEqual
  | .greater => .greater
  | .greaterEqual => .greaterEqual
  | .logicalAnd => .jumpIfFalse
  | .logicalOr => .jumpIfTrue

namespace Emit

/-- One level deeper, if that is still allowed. -/
def deeper (nesting : Nat) (location : Location) : Emit Nat := do
  if nesting ≥ maxSourceNesting then
    limit "maximum nesting depth exceeded" location
  return nesting + 1

/-- Pushes a literal. -/
def literal (value : Literal) (location : Location) : Emit Unit :=
  match value with
  | .text text => onString .string text location
  | .scalar .nil => op .pushNil location
  | .scalar (.bool true) => op .pushTrue location
  | .scalar (.bool false) => op .pushFalse location
  | .scalar value => constant value location

/-- Stores the top of the stack in a global variable and drops it. -/
def defineGlobal (resolution : Resolution) (location : Location) : Emit Unit := do
  op .setGlobal location
  match resolution.binding with
  | some id => short (← globalSlot id location) location
  | none => throw (.noGlobalSlot location.line)
  op .pop location

/-- Declares variables for values that are on the stack. -/
def declareVariables (vars : List Pattern.Variable) : Emit Unit :=
  vars.forM fun bound => do
    let _ ← declareLocal bound.binding bound.location

/-- Declares the slots of arguments. A named parameter is its slot; any other pattern has a hidden
slot and its variables come later. The results are the matchers of the parameters and the
variables inside them. -/
def declareParameters : List Pattern → List Matcher → List Pattern.Variable →
    Emit (List Matcher × List Pattern.Variable)
  | [], matchers, vars => return (matchers.reverse, vars)
  | .bind location _ binding :: rest, matchers, vars => do
    let _ ← declareLocal binding location
    declareParameters rest (.any :: matchers) vars
  | pattern :: rest, matchers, vars => do
    let _ ← declareLocal none pattern.location
    declareParameters rest (pattern.toMatcher :: matchers) (vars ++ pattern.vars)

/-- One turn of a loop whose body is given: a scope around the body, the jumps to the next turn,
what happens between turns, and the jump back. -/
def loopTurn (start : Nat) (body between : Emit Unit) (location : Location) : Emit Unit := do
  enterScope
  body
  exitScope
  landSkipping location
  between
  back start location

/-- The test of an arm of a cond with a scrutinee. The variables of the pattern are declared in a
scope of their own; if the guard fails, they are dropped again. -/
def patternArm (slot : Nat) (location : Location) (pattern : Option Pattern) (hasGuard : Bool)
    (guard body : Emit Unit) : Emit Nat := do
  let matcher := pattern.elim .any Pattern.toMatcher
  let vars := pattern.elim [] Pattern.vars
  let index ← withChunk (·.addMatcher matcher)
  opIndex .matchValue index location "patterns"
  short slot location
  let noMatch ← jump .jumpIfFalse location
  op .pop location
  enterScope
  let base := (← get).current.nextSlot
  declareVariables vars
  let noGuard ← if hasGuard then do
      guard
      let place ← jump .jumpIfFalse location
      op .pop location
      pure (some place)
    else pure none
  body
  let bound ← localsFrom base vars.length
  exitScope
  let done ← jump .jump location
  match noGuard with
  | some place =>
    land place location
    op .pop location
    bound.forM (drop · location)
    let next ← jump .jump location
    land noMatch location
    op .pop location
    land next location
  | none =>
    land noMatch location
    op .pop location
  return done

mutual

/-- Pushes the value of an expression. -/
def compileExpr (nesting : Nat) : Expr → Emit Unit
  | .absent => pure ()
  | .literal location value => do
    let _ ← deeper nesting location
    literal value location
  | .name identifier => do
    let _ ← deeper nesting identifier.location
    access identifier.resolution .get identifier.location
  | .unary location operator operand => do
    let nesting ← deeper nesting location
    compileExpr nesting operand
    op operator.opcode location
  | .binary location operator left right => do
    let nesting ← deeper nesting location
    compileExpr nesting left
    if operator.isLogical then
      let done ← jump operator.opcode location
      op .pop location
      compileExpr nesting right
      land done location
    else
      compileExpr nesting right
      op operator.opcode location
  | .call location callee arguments => do
    let nesting ← deeper nesting location
    compileExpr nesting callee
    compileExprs nesting arguments
    opIndex .call arguments.length location "call arguments"
  | .field location object name => do
    let nesting ← deeper nesting location
    compileExpr nesting object
    onString .getField name location
  | .index location object index => do
    let nesting ← deeper nesting location
    compileExpr nesting object
    compileExpr nesting index
    op .getIndex location
  | .record location fields => do
    let nesting ← deeper nesting location
    compileFields nesting fields
    let index ← withChunk (·.addShape (fields.map (·.1)))
    opIndex .record index location "record shapes"
  | .array location items => do
    let nesting ← deeper nesting location
    compileExprs nesting items
    opIndex .array items.length location "array elements"
  | .lambda location function => do
    let nesting ← deeper nesting location
    compileFunction nesting location function
  | .borrow location target _ => do
    -- A borrow has the value of what it borrows.
    let nesting ← deeper nesting location
    compileExpr nesting target
  | .move location target => do
    let _ ← deeper nesting location
    access (target.elim {} (·.resolution)) .move location
  | .deref location operand => do
    let nesting ← deeper nesting location
    compileExpr nesting operand
termination_by structural expr => expr

/-- Pushes the values of expressions in order. -/
def compileExprs (nesting : Nat) : List Expr → Emit Unit
  | [] => pure ()
  | expr :: rest => do
    compileExpr nesting expr
    compileExprs nesting rest
termination_by structural exprs => exprs

/-- Pushes the values of fields in order. -/
def compileFields (nesting : Nat) : List (String × Expr) → Emit Unit
  | [] => pure ()
  | (_, value) :: rest => do
    compileExpr nesting value
    compileFields nesting rest
termination_by structural fields => fields

/-- Carries out a statement. -/
def compileStmt (nesting : Nat) : Stmt → Emit Unit
  | .absent => pure ()
  | .declare location _ initial resolution => do
    let nesting ← deeper nesting location
    if resolution.isGlobal then
      -- A global variable without an initial value stays undefined until it is assigned.
      unless initial.isAbsent do
        compileExpr nesting initial
        defineGlobal resolution location
    else
      if initial.isAbsent then op .pushNil location
      compileExpr nesting initial
      let _ ← declareLocal resolution.binding location
  | .assign location _ value resolution => do
    let nesting ← deeper nesting location
    compileExpr nesting value
    access resolution .set location
    op .pop location
  | .assignField location object field value => do
    let nesting ← deeper nesting location
    compileExpr nesting object
    compileExpr nesting value
    onString .setField field location
    op .pop location
  | .assignIndex location object index value => do
    let nesting ← deeper nesting location
    compileExpr nesting object
    compileExpr nesting index
    compileExpr nesting value
    op .setIndex location
    op .pop location
  | .evaluate location expression => do
    let nesting ← deeper nesting location
    compileExpr nesting expression
    op .pop location
  | .print location expression => do
    let nesting ← deeper nesting location
    compileExpr nesting expression
    op .printTop location
  | .block location body => do
    let nesting ← deeper nesting location
    enterScope
    compileStmts nesting body
    exitScope
  | .ifElse location condition yes no => do
    let nesting ← deeper nesting location
    compileExpr nesting condition
    let otherwise ← jump .jumpIfFalse location
    op .pop location
    compileStmt nesting yes
    let done ← jump .jump location
    land otherwise location
    op .pop location
    compileStmt nesting no
    land done location
  | .cond location .absent arms => do
    let nesting ← deeper nesting location
    compileGuardedArms nesting location arms []
  | .cond location scrutinee arms => do
    let nesting ← deeper nesting location
    enterScope
    compileExpr nesting scrutinee
    let slot ← declareLocal none location
    compilePatternArms nesting location slot arms []
    exitScope
  | .whileLoop location condition body => do
    let nesting ← deeper nesting location
    enterLoop
    let start ← position
    compileExpr nesting condition
    let done ← jump .jumpIfFalse location
    op .pop location
    loopTurn start (compileStmt nesting body) (pure ()) location
    land done location
    op .pop location
    exitLoop location
  | .forLoop location _ binding first bound body => do
    -- A hidden counter and the bound; the variable is a copy of the counter in each turn.
    let nesting ← deeper nesting location
    enterScope
    compileExpr nesting first
    let next ← declareLocal none location
    compileExpr nesting bound
    let last ← declareLocal none location
    enterLoop
    let start ← position
    opShort .getLocal next location
    opShort .getLocal last location
    op .less location
    let done ← jump .jumpIfFalse location
    op .pop location
    let turn : Emit Unit := do
      opShort .getLocal next location
      let _ ← declareLocal binding location
      compileStmt nesting body
    let advance : Emit Unit := do
      opShort .getLocal next location
      constant (.int 1) location
      op .add location
      opShort .setLocal next location
      op .pop location
    loopTurn start turn advance location
    land done location
    op .pop location
    exitLoop location
    exitScope
  | .forever location body => do
    let nesting ← deeper nesting location
    enterLoop
    let start ← position
    loopTurn start (compileStmt nesting body) (pure ()) location
    exitLoop location
  | .leave location => do
    let _ ← deeper nesting location
    leaveLoop location
  | .skip location => do
    let _ ← deeper nesting location
    skipLoop location
  | .giveBack location value => do
    let nesting ← deeper nesting location
    if value.isAbsent then op .pushNil location
    compileExpr nesting value
    op .ret location
  | .disown location _ resolution => do
    let _ ← deeper nesting location
    access resolution .move location
    op .pop location
  | .function location declaration resolution => do
    let nesting ← deeper nesting location
    -- Global functions are built before the first statement.
    unless resolution.isGlobal do
      -- Declared first, so that the body can refer to the function itself.
      let _ ← declareLocal resolution.binding location
      compileFunction nesting location declaration
termination_by structural stmt => stmt

/-- Carries out statements in order. -/
def compileStmts (nesting : Nat) : List Stmt → Emit Unit
  | [] => pure ()
  | stmt :: rest => do
    compileStmt nesting stmt
    compileStmts nesting rest
termination_by structural stmts => stmts

/-- The arms of a cond without a scrutinee, after the jumps to its end so far: the first guard
that is true decides, and an arm without a guard ends the list. -/
def compileGuardedArms (nesting : Nat) (location : Location) : List Arm → List Nat → Emit Unit
  | [], done => do
    op .noMatchingArm location
    landAll done location
  | ⟨place, _, guard, body⟩ :: rest, done => do
    let failed ← if guard.isAbsent then pure none else do
      compileExpr nesting guard
      let failed ← jump .jumpIfFalse place
      op .pop place
      pure (some failed)
    enterScope
    compileStmts nesting body
    exitScope
    let finished ← jump .jump place
    match failed with
    | none => landAll (finished :: done) location
    | some failed =>
      land failed place
      op .pop place
      compileGuardedArms nesting location rest (finished :: done)
termination_by structural arms _ => arms

/-- The arms of a cond with a scrutinee in a slot, after the jumps to its end so far. An arm that
accepts everything ends the list. -/
def compilePatternArms (nesting : Nat) (location : Location) (slot : Nat) :
    List Arm → List Nat → Emit Unit
  | [], done => do
    op .noMatchingArm location
    landAll done location
  | ⟨place, pattern, guard, body⟩ :: rest, done => do
    let finished ← patternArm slot place pattern (!guard.isAbsent) (compileExpr nesting guard)
      (compileStmts nesting body)
    if guard.isAbsent && pattern.all Pattern.isIrrefutable then
      landAll (finished :: done) location
    else
      compilePatternArms nesting location slot rest (finished :: done)
termination_by structural arms _ => arms

/-- Pushes a closure of a function. -/
def compileFunction (nesting : Nat) (location : Location) : Function → Emit Unit
  | ⟨name, isProc, clauses⟩ => do
    enterFunction
    compileClauses nesting location clauses
    op .noMatchingOverload location
    exitFunction name isProc location
termination_by structural function => function

/-- The clauses of a function. Each tests its arguments first and passes on to the next clause if
they do not match. -/
def compileClauses (nesting : Nat) (location : Location) : List Clause → Emit Unit
  | [] => pure ()
  | ⟨place, parameters, body⟩ :: rest => do
    let place := if place.known then place else location
    enterClause
    let (matchers, vars) ← declareParameters parameters [] []
    let index ← withChunk (·.addClause matchers)
    opIndex .matchArgs index place "function clauses"
    let next ← jump .jumpIfFalse place
    op .pop place
    declareVariables vars
    compileStmts nesting body
    op .pushNil place
    op .ret place
    land next place
    op .pop place
    compileClauses nesting location rest
termination_by structural clauses => clauses

end

/-- Builds the global functions. -/
def hoistFunctions : List Stmt → Emit Unit
  | [] => pure ()
  | .function location declaration resolution :: rest => do
    if resolution.isGlobal then
      compileFunction 0 location declaration
      defineGlobal resolution location
    hoistFunctions rest
  | _ :: rest => hoistFunctions rest

end Emit

namespace GlobalTable

/-- Gives a slot to a global variable, unless it has one. -/
def assign (table : GlobalTable) (id : BindingId) (name : String) (location : Location) :
    Except LoweringFault GlobalTable :=
  if table.slots.contains id then .ok table
  else if table.names.size > maxOperand then
    .error (.rejected { kind := .limitExceeded, location, message := "too many global bindings" })
  else
    .ok { table with
          slots := table.slots.insert id table.names.size
          names := table.names.push name }

/-- Gives slots to the global variables and functions of a program, in the order of their
declarations. A function can be called by its name. -/
def ofStatements (table : GlobalTable) : List Stmt → Except LoweringFault GlobalTable
  | [] => .ok table
  | .declare location name _ ⟨some id, true⟩ :: rest => do
    ofStatements (← table.assign id name location) rest
  | .function location declaration ⟨some id, true⟩ :: rest => do
    let table ← table.assign id declaration.name location
    let slot := table.slots[id]?.getD 0
    ofStatements { table with entryPoints := table.entryPoints.insert declaration.name slot } rest
  | _ :: rest => table.ofStatements rest

end GlobalTable

namespace Program

/-- The unit of a program that analysis has accepted. -/
def compile (program : Program) : Except LoweringFault CodeUnit := do
  unless program.analyzed do throw .notAnalyzed
  let globals ← GlobalTable.ofStatements {} program.statements
  let generate : Emit Unit := do
    Emit.hoistFunctions program.statements
    Emit.compileStmts 0 program.statements
    Emit.op .halt {}
  let ((), final) ← generate.run { globals }
  let script : Prototype :=
    { name := "<script>", chunk := some final.current.chunk, maxSlots := final.current.maxLocals }
  return { script := some script, globalNames := globals.names, entryPoints := globals.entryPoints }

end Program

end OwnScript
