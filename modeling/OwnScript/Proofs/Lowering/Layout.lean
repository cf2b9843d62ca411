import OwnScript.Lowering.Compile
import OwnScript.Proofs.Code.Instructions

/-!
How the code of a program is laid out. For every construct of the language there is one rule that says
which instructions stand for it, where they stand, where its jumps lead and how many values the frame
holds in front of each of them. The rules speak about finished code, so they know no jump that is still
to be completed.
-/

namespace OwnScript

/-- A variable as the code of its function knows it at some point: which declaration it belongs to, and
whether a function inside has been seen to use it. -/
structure FrameVar where
  binding : Option BindingId
  captured : Bool

/-- The variables of a frame, innermost first. The slot of a variable is the number of those outside
of it. -/
abbrev FrameScope := List FrameVar

namespace FrameScope

/-- The slot of the innermost variable of a declaration. -/
def slotOf? : FrameScope → BindingId → Option Nat
  | [], _ => none
  | var :: rest, id => if var.binding == some id then some (List.length rest) else slotOf? rest id

/-- The slots of variables that functions inside have been seen to use. -/
def Held : FrameScope → Nat → Prop
  | [], _ => False
  | var :: rest, slot => (slot = List.length rest ∧ var.captured = true) ∨ Held rest slot

end FrameScope

/-- A variable later on: it stays the same, but may have been captured since, unless it has no name. -/
structure FrameVar.Later (before after : FrameVar) : Prop where
  binding : after.binding = before.binding
  captured : before.captured = true → after.captured = true
  unnamed : before.binding = none → after.captured = before.captured

/-- The same variables later on. -/
abbrev FrameScope.Later (before after : FrameScope) : Prop :=
  List.Forall₂ FrameVar.Later before after

/-- Finished code. Where the code alone decides how many values the frame holds when control gets to an
instruction, that number stands beside it. The numbers are tracked for programs of good shape only; for
others they mean nothing. -/
structure Listing (tracked : Prop) where
  chunk : Chunk
  heights : Array (Option Nat)

namespace Listing

variable {tracked : Prop}

/-- The frame holds that many values whenever control gets to an offset. -/
def Holds (F : Listing tracked) (offset height : Nat) : Prop :=
  tracked → F.heights[offset]? = some (some height)

/-- An instruction stands at an offset. -/
structure Has (F : Listing tracked) (offset : Nat) (height : Option Nat) (op : Opcode) (a b : Nat)
    (location : Location) : Prop where
  instruction : F.chunk.instructionAt? offset = some (op, a, b)
  location : F.chunk.locationAt offset = location
  height : tracked → F.heights[offset]? = some height

/-- A jump forward stands at an offset. -/
def Jumps (F : Listing tracked) (offset : Nat) (height : Option Nat) (op : Opcode) (location : Location)
    (target : Nat) : Prop :=
  ∃ distance, F.Has offset height op distance 0 location ∧ offset + 3 + distance = target

/-- A jump back stands at an offset. -/
def Repeats (F : Listing tracked) (offset : Nat) (height : Option Nat) (location : Location) (target : Nat) :
    Prop :=
  ∃ distance, F.Has offset height .loopBack distance 0 location ∧ offset + 3 = target + distance

end Listing

/-- The operation that drops a variable. -/
def FrameVar.dropOp (var : FrameVar) : Opcode :=
  if var.captured then .closeUpvalue else .pop

variable {tracked : Prop}

/-- Code that drops variables, innermost first, down to those outside. -/
inductive DropCode (F : Listing tracked) (location : Location) (outside : Nat) : FrameScope → Nat → Nat → Prop where
  | nil {p : Nat} : DropCode F location outside [] p p
  | cons {var : FrameVar} {rest : FrameScope} {p after : Nat} :
      F.Has p (some (outside + rest.length + 1)) var.dropOp 0 0 location →
      DropCode F location outside rest (p + 1) after → DropCode F location outside (var :: rest) p after

/-- The operation that pushes a literal. -/
inductive Loads (chunk : Chunk) : Literal → Opcode → Nat → Prop where
  | nil : Loads chunk (.scalar .nil) .pushNil 0
  | true : Loads chunk (.scalar (.bool true)) .pushTrue 0
  | false : Loads chunk (.scalar (.bool false)) .pushFalse 0
  | constant {value : Scalar} {index : Nat} : chunk.constants[index]? = some (.scalar value) →
      Loads chunk (.scalar value) .constant index
  | text {text : String} {index : Nat} : chunk.strings[index]? = some text →
      Loads chunk (.text text) .string index

/-- The operation that accesses a variable wherever it lives. -/
inductive Accesses (globals : GlobalTable) (scope : FrameScope) (resolution : Resolution) (how : Emit.Access) :
    Opcode → Nat → Prop where
  | global {id : BindingId} {slot : Nat} : resolution.binding = some id → resolution.isGlobal = true →
      globals.slots[id]? = some slot → Accesses globals scope resolution how how.global slot
  | frame {id : BindingId} {slot : Nat} : resolution.binding = some id → resolution.isGlobal = false →
      scope.slotOf? id = some slot → Accesses globals scope resolution how how.frame slot
  | captured {id : BindingId} {index : Nat} : resolution.binding = some id →
      resolution.isGlobal = false → scope.slotOf? id = none →
      Accesses globals scope resolution how how.captured index

/-- The body of a loop seen from inside: how many variables there are around it, and where the jumps go
that leave the loop or go on with its next turn. -/
structure LoopPlan where
  outside : Nat
  leave : Nat
  skip : Nat

mutual

/-- A matcher binds as many values as its pattern has variables. -/
theorem Pattern.bindingCount_toMatcher (pattern : Pattern) : pattern.toMatcher.bindingCount = pattern.vars.length := by
  cases pattern with
  | wildcard | bind => rfl
  | literal location literal => cases literal <;> rfl
  | destructure location fields => exact Pattern.bindingCounts_toMatchers fields
termination_by structural pattern

theorem Pattern.bindingCounts_toMatchers (fields : List (String × Pattern)) :
    Matcher.bindingCounts (Pattern.toMatchers fields) = (Pattern.fieldVariables fields).length := by
  cases fields with
  | nil => rfl
  | cons field rest =>
    obtain ⟨name, pattern⟩ := field
    rw [Pattern.toMatchers, Matcher.bindingCounts, Pattern.fieldVariables, List.length_append,
      Pattern.bindingCount_toMatcher pattern, Pattern.bindingCounts_toMatchers rest]
termination_by structural fields

end

/-- The variables of a pattern, innermost first, when they come into being. -/
def boundScope (vars : List Pattern.Variable) : FrameScope :=
  (vars.map fun var => ⟨var.binding, false⟩).reverse

/-- The variables that stand for parameters, innermost first: a named parameter is its own variable. -/
def parameterScope (parameters : List Pattern) : FrameScope :=
  (parameters.map fun pattern =>
    match pattern with
    | .bind _ _ binding => ⟨binding, false⟩
    | _ => ⟨none, false⟩).reverse

/-- The variables inside the patterns of parameters, in order. -/
def parameterVariables (parameters : List Pattern) : List Pattern.Variable :=
  parameters.flatMap fun pattern =>
    match pattern with
    | .bind _ _ _ => []
    | _ => pattern.vars

/-- What a parameter asks of its argument: a named one asks nothing. -/
def parameterMatcher : Pattern → Matcher
  | .bind _ _ _ => .any
  | pattern => pattern.toMatcher

mutual

/-- Code that pushes the value of an expression on a frame that holds so many values. The scope before
and after is the same but for what functions inside the expression capture. -/
inductive ExprCode (globals : GlobalTable) :
    Listing tracked → Nat → FrameScope → Nat → Expr → FrameScope → Nat → Prop where
  | absent {F : Listing tracked} {height p : Nat} {scope : FrameScope} : ¬ tracked →
      ExprCode globals F height scope p .absent scope p
  | literal {F : Listing tracked} {height p a : Nat} {scope : FrameScope} {location : Location} {value : Literal}
      {op : Opcode} :
      F.Has p (some height) op a 0 location → Loads F.chunk value op a →
      ExprCode globals F height scope p (.literal location value) scope (p + op.size)
  | name {F : Listing tracked} {height p a : Nat} {scope : FrameScope} {identifier : Identifier} {op : Opcode} :
      F.Has p (some height) op a 0 identifier.location →
      Accesses globals scope identifier.resolution .get op a →
      ExprCode globals F height scope p (.name identifier) scope (p + 3)
  | unary {F : Listing tracked} {height p q : Nat} {scope after : FrameScope} {location : Location}
      {operator : UnaryOp} {operand : Expr} :
      ExprCode globals F height scope p operand after q →
      F.Has q (some (height + 1)) operator.opcode 0 0 location →
      ExprCode globals F height scope p (.unary location operator operand) after (q + 1)
  | binary {F : Listing tracked} {height p q r : Nat} {scope middle after : FrameScope} {location : Location}
      {operator : BinaryOp} {left right : Expr} :
      operator.isLogical = false → ExprCode globals F height scope p left middle q →
      ExprCode globals F (height + 1) middle q right after r →
      F.Has r (some (height + 2)) operator.opcode 0 0 location →
      ExprCode globals F height scope p (.binary location operator left right) after (r + 1)
  | logical {F : Listing tracked} {height p q r : Nat} {scope middle after : FrameScope} {location : Location}
      {operator : BinaryOp} {left right : Expr} :
      operator.isLogical = true → ExprCode globals F height scope p left middle q →
      F.Jumps q (some (height + 1)) operator.opcode location r →
      F.Has (q + 3) (some (height + 1)) .pop 0 0 location →
      ExprCode globals F height middle (q + 4) right after r →
      ExprCode globals F height scope p (.binary location operator left right) after r
  | call {F : Listing tracked} {height p q r : Nat} {scope middle after : FrameScope} {location : Location}
      {callee : Expr} {arguments : List Expr} :
      ExprCode globals F height scope p callee middle q →
      ExprsCode globals F (height + 1) middle q arguments after r →
      F.Has r (some (height + 1 + arguments.length)) .call arguments.length 0 location →
      ExprCode globals F height scope p (.call location callee arguments) after (r + 3)
  | field {F : Listing tracked} {height p q a : Nat} {scope after : FrameScope} {location : Location}
      {object : Expr} {name : String} :
      ExprCode globals F height scope p object after q →
      F.Has q (some (height + 1)) .getField a 0 location → F.chunk.strings[a]? = some name →
      ExprCode globals F height scope p (.field location object name) after (q + 3)
  | index {F : Listing tracked} {height p q r : Nat} {scope middle after : FrameScope} {location : Location}
      {object index : Expr} :
      ExprCode globals F height scope p object middle q →
      ExprCode globals F (height + 1) middle q index after r →
      F.Has r (some (height + 2)) .getIndex 0 0 location →
      ExprCode globals F height scope p (.index location object index) after (r + 1)
  | record {F : Listing tracked} {height p q a : Nat} {scope after : FrameScope} {location : Location}
      {fields : List (String × Expr)} :
      FieldsCode globals F height scope p fields after q →
      F.Has q (some (height + fields.length)) .record a 0 location →
      F.chunk.shapes[a]? = some (fields.map (·.1)) →
      ExprCode globals F height scope p (.record location fields) after (q + 3)
  | array {F : Listing tracked} {height p q : Nat} {scope after : FrameScope} {location : Location}
      {items : List Expr} :
      ExprsCode globals F height scope p items after q →
      F.Has q (some (height + items.length)) .array items.length 0 location →
      ExprCode globals F height scope p (.array location items) after (q + 3)
  | lambda {F : Listing tracked} {height p : Nat} {scope after : FrameScope} {location : Location}
      {function : Function} :
      ClosureCode globals F height scope p location function after →
      ExprCode globals F height scope p (.lambda location function) after (p + 3)
  | borrow {F : Listing tracked} {height p q : Nat} {scope after : FrameScope} {location : Location} {target : Expr}
      {exclusive : Bool} :
      ExprCode globals F height scope p target after q →
      ExprCode globals F height scope p (.borrow location target exclusive) after q
  | move {F : Listing tracked} {height p a : Nat} {scope : FrameScope} {location : Location}
      {target : Option Identifier}
      {op : Opcode} :
      F.Has p (some height) op a 0 location →
      Accesses globals scope (target.elim {} (·.resolution)) .move op a →
      ExprCode globals F height scope p (.move location target) scope (p + 3)
  | deref {F : Listing tracked} {height p q : Nat} {scope after : FrameScope} {location : Location} {operand : Expr} :
      ExprCode globals F height scope p operand after q →
      ExprCode globals F height scope p (.deref location operand) after q

/-- Code that pushes the values of expressions in order. -/
inductive ExprsCode (globals : GlobalTable) :
    Listing tracked → Nat → FrameScope → Nat → List Expr → FrameScope → Nat → Prop where
  | nil {F : Listing tracked} {height p : Nat} {scope : FrameScope} : ExprsCode globals F height scope p [] scope p
  | cons {F : Listing tracked} {height p q r : Nat} {scope middle after : FrameScope} {expr : Expr}
      {rest : List Expr} :
      ExprCode globals F height scope p expr middle q →
      ExprsCode globals F (height + 1) middle q rest after r →
      ExprsCode globals F height scope p (expr :: rest) after r

/-- Code that pushes the values of fields in order. -/
inductive FieldsCode (globals : GlobalTable) :
    Listing tracked → Nat → FrameScope → Nat → List (String × Expr) → FrameScope → Nat → Prop where
  | nil {F : Listing tracked} {height p : Nat} {scope : FrameScope} : FieldsCode globals F height scope p [] scope p
  | cons {F : Listing tracked} {height p q r : Nat} {scope middle after : FrameScope} {name : String} {value : Expr}
      {rest : List (String × Expr)} :
      ExprCode globals F height scope p value middle q →
      FieldsCode globals F (height + 1) middle q rest after r →
      FieldsCode globals F height scope p ((name, value) :: rest) after r

/-- Code that pushes a closure of a function. What the function captures from the frame is known to be
captured from then on. -/
inductive ClosureCode (globals : GlobalTable) :
    Listing tracked → Nat → FrameScope → Nat → Location → Function → FrameScope → Prop where
  | intro {F inner : Listing tracked} {height p a : Nat} {scope after : FrameScope} {location : Location}
      {function : Function} {prototype : Prototype} :
      F.Has p (some height) .closure a 0 location →
      F.chunk.functions[a]? = some (some prototype) → PrototypeCode globals inner location prototype function →
      scope.Later after →
      (∀ capture ∈ prototype.captures, capture.isLocal = true → after.Held capture.index) →
      ClosureCode globals F height scope p location function after

/-- A prototype that holds the code of a function. -/
inductive PrototypeCode (globals : GlobalTable) :
    Listing tracked → Location → Prototype → Function → Prop where
  | intro {F : Listing tracked} {location : Location} {prototype : Prototype} {name : String} {isProc : Bool}
      {clauses : List Clause} {p : Nat} :
      prototype.chunk = some F.chunk → ClausesCode globals F location 0 clauses p →
      F.Has p none .noMatchingOverload 0 0 location →
      PrototypeCode globals F location prototype ⟨name, isProc, clauses⟩

/-- Code of clauses. Each tests the arguments and passes on to the next if they do not match; then the
frame holds the arguments alone, however many they are. -/
inductive ClausesCode (globals : GlobalTable) :
    Listing tracked → Location → Nat → List Clause → Nat → Prop where
  | nil {F : Listing tracked} {location : Location} {p : Nat} : ClausesCode globals F location p [] p
  | cons {F : Listing tracked} {location place given : Location} {p q a after : Nat} {scope last : FrameScope}
      {parameters : List Pattern} {body : List Stmt} {rest : List Clause} :
      (if given.known then given else location) = place →
      F.Has p none .matchArgs a 0 place →
      F.chunk.clauses[a]? = some (parameters.map parameterMatcher) →
      F.Jumps (p + 3) none .jumpIfFalse place (q + 2) →
      boundScope (parameterVariables parameters) ++ parameterScope parameters = scope →
      F.Has (p + 6) (some (scope.length + 1)) .pop 0 0 place →
      StmtsCode globals F none scope (p + 7) body last q →
      F.Has q (some last.length) .pushNil 0 0 place →
      F.Has (q + 1) (some (last.length + 1)) .ret 0 0 place →
      F.Has (q + 2) none .pop 0 0 place →
      ClausesCode globals F location (q + 3) rest after →
      ClausesCode globals F location p (⟨given, parameters, body⟩ :: rest) after

/-- Code that carries out a statement on a frame that holds its variables and nothing else. The scope
afterwards has the variables that the statement declares, also where the statement never gets there. -/
inductive StmtCode (globals : GlobalTable) :
    Listing tracked → Option LoopPlan → FrameScope → Nat → Stmt → FrameScope → Nat → Prop where
  | absent {F : Listing tracked} {loop : Option LoopPlan} {scope : FrameScope} {p : Nat} :
      StmtCode globals F loop scope p .absent scope p
  | declareUndefined {F : Listing tracked} {loop : Option LoopPlan} {scope : FrameScope} {p : Nat}
      {location : Location} {name : String} {resolution : Resolution} :
      resolution.isGlobal = true →
      StmtCode globals F loop scope p (.declare location name .absent resolution) scope p
  | declareGlobal {F : Listing tracked} {loop : Option LoopPlan} {scope after : FrameScope} {p q slot : Nat}
      {location : Location} {name : String} {initial : Expr} {resolution : Resolution}
      {id : BindingId} :
      resolution.isGlobal = true → resolution.binding = some id → globals.slots[id]? = some slot →
      ExprCode globals F scope.length scope p initial after q →
      F.Has q (some (scope.length + 1)) .setGlobal slot 0 location →
      F.Has (q + 3) (some (scope.length + 1)) .pop 0 0 location →
      StmtCode globals F loop scope p (.declare location name initial resolution) after (q + 4)
  | declareEmpty {F : Listing tracked} {loop : Option LoopPlan} {scope : FrameScope} {p : Nat}
      {location : Location} {name : String} {resolution : Resolution} :
      resolution.isGlobal = false →
      F.Has p (some scope.length) .pushNil 0 0 location →
      StmtCode globals F loop scope p (.declare location name .absent resolution)
        (⟨resolution.binding, false⟩ :: scope) (p + 1)
  | declareLocal {F : Listing tracked} {loop : Option LoopPlan} {scope after : FrameScope} {p q : Nat}
      {location : Location} {name : String} {initial : Expr} {resolution : Resolution} :
      resolution.isGlobal = false → ExprCode globals F scope.length scope p initial after q →
      StmtCode globals F loop scope p (.declare location name initial resolution)
        (⟨resolution.binding, false⟩ :: after) q
  | assign {F : Listing tracked} {loop : Option LoopPlan} {scope after : FrameScope} {p q a : Nat}
      {location : Location} {name : String} {value : Expr} {resolution : Resolution} {op : Opcode} :
      ExprCode globals F scope.length scope p value after q →
      F.Has q (some (scope.length + 1)) op a 0 location → Accesses globals after resolution .set op a →
      F.Has (q + 3) (some (scope.length + 1)) .pop 0 0 location →
      StmtCode globals F loop scope p (.assign location name value resolution) after (q + 4)
  | assignField {F : Listing tracked} {loop : Option LoopPlan} {scope middle after : FrameScope} {p q r a : Nat}
      {location : Location} {object : Expr} {field : String} {value : Expr} :
      ExprCode globals F scope.length scope p object middle q →
      ExprCode globals F (scope.length + 1) middle q value after r →
      F.Has r (some (scope.length + 2)) .setField a 0 location → F.chunk.strings[a]? = some field →
      F.Has (r + 3) (some (scope.length + 1)) .pop 0 0 location →
      StmtCode globals F loop scope p (.assignField location object field value) after (r + 4)
  | assignIndex {F : Listing tracked} {loop : Option LoopPlan} {scope middle next after : FrameScope} {p q r s : Nat}
      {location : Location} {object index value : Expr} :
      ExprCode globals F scope.length scope p object middle q →
      ExprCode globals F (scope.length + 1) middle q index next r →
      ExprCode globals F (scope.length + 2) next r value after s →
      F.Has s (some (scope.length + 3)) .setIndex 0 0 location →
      F.Has (s + 1) (some (scope.length + 1)) .pop 0 0 location →
      StmtCode globals F loop scope p (.assignIndex location object index value) after (s + 2)
  | evaluate {F : Listing tracked} {loop : Option LoopPlan} {scope after : FrameScope} {p q : Nat}
      {location : Location} {expression : Expr} :
      ExprCode globals F scope.length scope p expression after q →
      F.Has q (some (scope.length + 1)) .pop 0 0 location →
      StmtCode globals F loop scope p (.evaluate location expression) after (q + 1)
  | print {F : Listing tracked} {loop : Option LoopPlan} {scope after : FrameScope} {p q : Nat}
      {location : Location} {expression : Expr} :
      ExprCode globals F scope.length scope p expression after q →
      F.Has q (some (scope.length + 1)) .printTop 0 0 location →
      StmtCode globals F loop scope p (.print location expression) after (q + 1)
  | block {F : Listing tracked} {loop : Option LoopPlan} {scope dropped after : FrameScope} {p q r : Nat}
      {location : Location} {body : List Stmt} :
      StmtsCode globals F loop scope p body (dropped ++ after) q → after.length = scope.length →
      DropCode F {} scope.length dropped q r →
      StmtCode globals F loop scope p (.block location body) after r
  | ifElse {F : Listing tracked} {loop : Option LoopPlan} {scope first second after : FrameScope} {p q r s : Nat}
      {location : Location} {condition : Expr} {yes no : Stmt} :
      ExprCode globals F scope.length scope p condition first q →
      F.Jumps q (some (scope.length + 1)) .jumpIfFalse location (r + 3) →
      F.Has (q + 3) (some (scope.length + 1)) .pop 0 0 location →
      F.Holds (q + 4) scope.length → StmtCode globals F loop first (q + 4) yes second r →
      (tracked → second.length = scope.length) → F.Jumps r (some second.length) .jump location s →
      F.Has (r + 3) (some (second.length + 1)) .pop 0 0 location →
      F.Holds (r + 4) second.length → StmtCode globals F loop second (r + 4) no after s →
      (tracked → after.length = second.length) → F.Holds s after.length →
      StmtCode globals F loop scope p (.ifElse location condition yes no) after s
  | condGuards {F : Listing tracked} {loop : Option LoopPlan} {scope after : FrameScope} {p q : Nat}
      {location : Location} {arms : List Arm} :
      GuardedCode globals F loop location scope p arms after q →
      StmtCode globals F loop scope p (.cond location .absent arms) after q
  | condPatterns {F : Listing tracked} {loop : Option LoopPlan} {scope middle after : FrameScope}
      {hidden : FrameVar} {p q r s : Nat} {location : Location} {scrutinee : Expr} {arms : List Arm} :
      scrutinee.isAbsent = false → ExprCode globals F scope.length scope p scrutinee middle q →
      PatternedCode globals F loop location scope.length (⟨none, false⟩ :: middle) q arms
        (hidden :: after) r →
      after.length = scope.length → DropCode F {} scope.length [hidden] r s →
      StmtCode globals F loop scope p (.cond location scrutinee arms) after s
  | whileLoop {F : Listing tracked} {loop : Option LoopPlan} {scope first dropped after : FrameScope} {p q r s : Nat}
      {location : Location} {condition : Expr} {body : Stmt} :
      ExprCode globals F scope.length scope p condition first q →
      F.Jumps q (some (scope.length + 1)) .jumpIfFalse location (s + 3) →
      F.Has (q + 3) (some (scope.length + 1)) .pop 0 0 location → F.Holds (q + 4) scope.length →
      StmtCode globals F (some ⟨scope.length, s + 4, s⟩) first (q + 4) body (dropped ++ after) r →
      after.length = scope.length → DropCode F {} scope.length dropped r s →
      F.Repeats s (some scope.length) location p →
      F.Has (s + 3) (some (scope.length + 1)) .pop 0 0 location →
      StmtCode globals F loop scope p (.whileLoop location condition body) after (s + 4)
  | forLoop {F : Listing tracked} {loop : Option LoopPlan} {scope first second dropped hidden after : FrameScope}
      {p q r s t u a : Nat} {location : Location} {counter : String} {binding : Option BindingId}
      {start bound : Expr} {body : Stmt} :
      ExprCode globals F scope.length scope p start first q →
      ExprCode globals F (scope.length + 1) (⟨none, false⟩ :: first) q bound second r →
      F.Has r (some (scope.length + 2)) .getLocal scope.length 0 location →
      F.Has (r + 3) (some (scope.length + 3)) .getLocal (scope.length + 1) 0 location →
      F.Has (r + 6) (some (scope.length + 4)) .less 0 0 location →
      F.Jumps (r + 7) (some (scope.length + 3)) .jumpIfFalse location (t + 14) →
      F.Has (r + 10) (some (scope.length + 3)) .pop 0 0 location →
      F.Has (r + 11) (some (scope.length + 2)) .getLocal scope.length 0 location →
      F.Holds (r + 14) (scope.length + 3) →
      StmtCode globals F (some ⟨scope.length + 2, t + 15, t⟩)
        (⟨binding, false⟩ :: ⟨none, false⟩ :: second) (r + 14) body (dropped ++ (hidden ++ after)) s →
      hidden.length = 2 → after.length = scope.length →
      DropCode F {} (scope.length + 2) dropped s t →
      F.Has t (some (scope.length + 2)) .getLocal scope.length 0 location →
      F.Has (t + 3) (some (scope.length + 3)) .constant a 0 location →
      F.chunk.constants[a]? = some (.scalar (.int 1)) →
      F.Has (t + 6) (some (scope.length + 4)) .add 0 0 location →
      F.Has (t + 7) (some (scope.length + 3)) .setLocal scope.length 0 location →
      F.Has (t + 10) (some (scope.length + 3)) .pop 0 0 location →
      F.Repeats (t + 11) (some (scope.length + 2)) location r →
      F.Has (t + 14) (some (scope.length + 3)) .pop 0 0 location →
      DropCode F {} scope.length hidden (t + 15) u →
      StmtCode globals F loop scope p (.forLoop location counter binding start bound body) after u
  | forever {F : Listing tracked} {loop : Option LoopPlan} {scope dropped after : FrameScope} {p r s : Nat}
      {location : Location} {body : Stmt} :
      F.Holds p scope.length →
      StmtCode globals F (some ⟨scope.length, s + 3, s⟩) scope p body (dropped ++ after) r →
      after.length = scope.length → DropCode F {} scope.length dropped r s →
      F.Repeats s (some scope.length) location p →
      StmtCode globals F loop scope p (.forever location body) after (s + 3)
  | leave {F : Listing tracked} {loop : LoopPlan} {dropped outer : FrameScope} {p q : Nat} {location : Location} :
      outer.length = loop.outside → DropCode F location loop.outside dropped p q →
      F.Jumps q (some loop.outside) .jump location loop.leave →
      StmtCode globals F (some loop) (dropped ++ outer) p (.leave location) (dropped ++ outer) (q + 3)
  | skip {F : Listing tracked} {loop : LoopPlan} {dropped outer : FrameScope} {p q : Nat} {location : Location} :
      outer.length = loop.outside → DropCode F location loop.outside dropped p q →
      F.Jumps q (some loop.outside) .jump location loop.skip →
      StmtCode globals F (some loop) (dropped ++ outer) p (.skip location) (dropped ++ outer) (q + 3)
  | giveBackNil {F : Listing tracked} {loop : Option LoopPlan} {scope : FrameScope} {p : Nat} {location : Location} :
      F.Has p (some scope.length) .pushNil 0 0 location →
      F.Has (p + 1) (some (scope.length + 1)) .ret 0 0 location →
      StmtCode globals F loop scope p (.giveBack location .absent) scope (p + 2)
  | giveBack {F : Listing tracked} {loop : Option LoopPlan} {scope after : FrameScope} {p q : Nat}
      {location : Location} {value : Expr} :
      ExprCode globals F scope.length scope p value after q →
      F.Has q (some (scope.length + 1)) .ret 0 0 location →
      StmtCode globals F loop scope p (.giveBack location value) after (q + 1)
  | disown {F : Listing tracked} {loop : Option LoopPlan} {scope : FrameScope} {p a : Nat} {location : Location}
      {name : String} {resolution : Resolution} {op : Opcode} :
      F.Has p (some scope.length) op a 0 location → Accesses globals scope resolution .move op a →
      F.Has (p + 3) (some (scope.length + 1)) .pop 0 0 location →
      StmtCode globals F loop scope p (.disown location name resolution) scope (p + 4)
  | functionGlobal {F : Listing tracked} {loop : Option LoopPlan} {scope : FrameScope} {p : Nat}
      {location : Location} {declaration : Function} {resolution : Resolution} :
      resolution.isGlobal = true →
      StmtCode globals F loop scope p (.function location declaration resolution) scope p
  | functionLocal {F : Listing tracked} {loop : Option LoopPlan} {scope after : FrameScope} {p : Nat}
      {location : Location} {declaration : Function} {resolution : Resolution} :
      resolution.isGlobal = false →
      ClosureCode globals F scope.length (⟨resolution.binding, false⟩ :: scope) p location declaration
        after →
      StmtCode globals F loop scope p (.function location declaration resolution) after (p + 3)

/-- Code that carries out statements in order. -/
inductive StmtsCode (globals : GlobalTable) :
    Listing tracked → Option LoopPlan → FrameScope → Nat → List Stmt → FrameScope → Nat → Prop where
  | nil {F : Listing tracked} {loop : Option LoopPlan} {scope : FrameScope} {p : Nat} :
      StmtsCode globals F loop scope p [] scope p
  | cons {F : Listing tracked} {loop : Option LoopPlan} {scope middle after : FrameScope} {p q r : Nat} {stmt : Stmt}
      {rest : List Stmt} :
      F.Holds p scope.length → StmtCode globals F loop scope p stmt middle q →
      StmtsCode globals F loop middle q rest after r →
      StmtsCode globals F loop scope p (stmt :: rest) after r

/-- Code of the arms of a cond without a scrutinee. Every arm ends with a jump behind the last one. -/
inductive GuardedCode (globals : GlobalTable) :
    Listing tracked → Option LoopPlan → Location → FrameScope → Nat → List Arm → FrameScope → Nat → Prop where
  | nil {F : Listing tracked} {loop : Option LoopPlan} {location : Location} {scope : FrameScope} {p : Nat} :
      F.Has p (some scope.length) .noMatchingArm 0 0 location →
      GuardedCode globals F loop location scope p [] scope (p + 1)
  | last {F : Listing tracked} {loop : Option LoopPlan} {location place : Location} {scope dropped after : FrameScope}
      {p q r : Nat} {pattern : Option Pattern} {body : List Stmt} {rest : List Arm} :
      StmtsCode globals F loop scope p body (dropped ++ after) q → after.length = scope.length →
      DropCode F {} scope.length dropped q r → F.Jumps r (some scope.length) .jump place (r + 3) →
      GuardedCode globals F loop location scope p (⟨place, pattern, .absent, body⟩ :: rest) after (r + 3)
  | cons {F : Listing tracked} {loop : Option LoopPlan} {location place : Location}
      {scope first dropped second after : FrameScope} {p q r s t : Nat} {pattern : Option Pattern}
      {guard : Expr} {body : List Stmt} {rest : List Arm} :
      guard.isAbsent = false → ExprCode globals F scope.length scope p guard first q →
      F.Jumps q (some (scope.length + 1)) .jumpIfFalse place (s + 3) →
      F.Has (q + 3) (some (scope.length + 1)) .pop 0 0 place →
      StmtsCode globals F loop first (q + 4) body (dropped ++ second) r →
      second.length = scope.length → DropCode F {} scope.length dropped r s →
      F.Jumps s (some scope.length) .jump place t →
      F.Has (s + 3) (some (scope.length + 1)) .pop 0 0 place →
      GuardedCode globals F loop location second (s + 4) rest after t →
      GuardedCode globals F loop location scope p (⟨place, pattern, guard, body⟩ :: rest) after t

/-- Code of the arms of a cond whose scrutinee is in a slot. Every arm ends with a jump behind the last
one. -/
inductive PatternedCode (globals : GlobalTable) :
    Listing tracked → Option LoopPlan → Location → Nat → FrameScope → Nat → List Arm → FrameScope → Nat → Prop where
  | nil {F : Listing tracked} {loop : Option LoopPlan} {location : Location} {slot : Nat}
      {scope : FrameScope} {p : Nat} :
      F.Has p (some scope.length) .noMatchingArm 0 0 location →
      PatternedCode globals F loop location slot scope p [] scope (p + 1)
  | last {F : Listing tracked} {loop : Option LoopPlan} {location place : Location} {slot : Nat}
      {scope after : FrameScope} {p t : Nat} {pattern : Option Pattern} {body : List Stmt}
      {rest : List Arm} :
      pattern.all Pattern.isIrrefutable = true →
      PlainArmCode globals F loop place slot scope p pattern body after t t →
      PatternedCode globals F loop location slot scope p (⟨place, pattern, .absent, body⟩ :: rest) after t
  | plain {F : Listing tracked} {loop : Option LoopPlan} {location place : Location} {slot : Nat}
      {scope middle after : FrameScope} {p s t : Nat} {pattern : Option Pattern} {body : List Stmt}
      {rest : List Arm} :
      pattern.all Pattern.isIrrefutable = false →
      PlainArmCode globals F loop place slot scope p pattern body middle s t →
      PatternedCode globals F loop location slot middle s rest after t →
      PatternedCode globals F loop location slot scope p (⟨place, pattern, .absent, body⟩ :: rest) after t
  | guarded {F : Listing tracked} {loop : Option LoopPlan} {location place : Location} {slot : Nat}
      {scope middle after : FrameScope} {p s t : Nat} {pattern : Option Pattern} {guard : Expr}
      {body : List Stmt} {rest : List Arm} :
      guard.isAbsent = false →
      GuardedArmCode globals F loop place slot scope p pattern guard body middle s t →
      PatternedCode globals F loop location slot middle s rest after t →
      PatternedCode globals F loop location slot scope p (⟨place, pattern, guard, body⟩ :: rest) after t

/-- Code of an arm with a pattern and without a guard: it starts at one offset, the next arm follows at
another, and if the pattern matches, control goes on at a third. -/
inductive PlainArmCode (globals : GlobalTable) :
    Listing tracked → Option LoopPlan → Location → Nat → FrameScope → Nat → Option Pattern → List Stmt →
      FrameScope → Nat → Nat → Prop where
  | intro {F : Listing tracked} {loop : Option LoopPlan} {place : Location} {slot : Nat}
      {scope bound dropped after : FrameScope} {p q r a t : Nat} {pattern : Option Pattern}
      {body : List Stmt} :
      boundScope (pattern.elim [] Pattern.vars) = bound →
      F.Has p (some scope.length) .matchValue a slot place →
      F.chunk.matchers[a]? = some (pattern.elim .any Pattern.toMatcher) →
      F.Jumps (p + 5) none .jumpIfFalse place (r + 3) →
      F.Has (p + 8) (some (scope.length + bound.length + 1)) .pop 0 0 place →
      StmtsCode globals F loop (bound ++ scope) (p + 9) body (dropped ++ after) q →
      after.length = scope.length → DropCode F {} scope.length dropped q r →
      F.Jumps r (some scope.length) .jump place t →
      F.Has (r + 3) (some (scope.length + 1)) .pop 0 0 place →
      PlainArmCode globals F loop place slot scope p pattern body after (r + 4) t

/-- Code of an arm with a pattern and a guard. If the guard fails, the variables of the pattern are
dropped as they were known after the body. -/
inductive GuardedArmCode (globals : GlobalTable) :
    Listing tracked → Option LoopPlan → Location → Nat → FrameScope → Nat → Option Pattern → Expr → List Stmt →
      FrameScope → Nat → Nat → Prop where
  | intro {F : Listing tracked} {loop : Option LoopPlan} {place : Location} {slot : Nat}
      {scope bound tested declared rebound after : FrameScope} {p q r s u a t : Nat}
      {pattern : Option Pattern} {guard : Expr} {body : List Stmt} :
      boundScope (pattern.elim [] Pattern.vars) = bound →
      F.Has p (some scope.length) .matchValue a slot place →
      F.chunk.matchers[a]? = some (pattern.elim .any Pattern.toMatcher) →
      F.Jumps (p + 5) none .jumpIfFalse place (u + 3) →
      F.Has (p + 8) (some (scope.length + bound.length + 1)) .pop 0 0 place →
      ExprCode globals F (scope.length + bound.length) (bound ++ scope) (p + 9) guard tested q →
      F.Jumps q (some (scope.length + bound.length + 1)) .jumpIfFalse place (s + 3) →
      F.Has (q + 3) (some (scope.length + bound.length + 1)) .pop 0 0 place →
      StmtsCode globals F loop tested (q + 4) body (declared ++ (rebound ++ after)) r →
      rebound.length = bound.length → after.length = scope.length →
      DropCode F {} scope.length (declared ++ rebound) r s →
      F.Jumps s (some scope.length) .jump place t →
      F.Has (s + 3) (some (scope.length + bound.length + 1)) .pop 0 0 place →
      DropCode F place scope.length rebound (s + 4) u →
      F.Jumps u (some scope.length) .jump place (u + 4) →
      F.Has (u + 3) (some (scope.length + 1)) .pop 0 0 place →
      GuardedArmCode globals F loop place slot scope p pattern guard body after (u + 4) t

end

/-- Code that builds the global functions of statements before the first of them runs. -/
inductive HoistCode (globals : GlobalTable) (F : Listing tracked) : Nat → List Stmt → Nat → Prop where
  | nil {p : Nat} : HoistCode globals F p [] p
  | function {p after slot : Nat} {location : Location} {declaration : Function} {id : BindingId}
      {rest : List Stmt} :
      ClosureCode globals F 0 [] p location declaration [] →
      globals.slots[id]? = some slot → F.Has (p + 3) (some 1) .setGlobal slot 0 location →
      F.Has (p + 6) (some 1) .pop 0 0 location → HoistCode globals F (p + 7) rest after →
      HoistCode globals F p (.function location declaration ⟨some id, true⟩ :: rest) after
  | skip {p after : Nat} {stmt : Stmt} {rest : List Stmt} :
      (∀ location declaration id, stmt ≠ .function location declaration ⟨some id, true⟩) →
      HoistCode globals F p rest after → HoistCode globals F p (stmt :: rest) after

/-- The code of a script: the global functions, the statements in order, and the end. -/
inductive ScriptCode (globals : GlobalTable) (F : Listing tracked) (prototype : Prototype)
    (statements : List Stmt) : Prop where
  | intro {p q : Nat} {scope : FrameScope} :
      prototype.chunk = some F.chunk → HoistCode globals F 0 statements p →
      StmtsCode globals F none [] p statements scope q → F.Has q (some scope.length) .halt 0 0 {} →
      ScriptCode globals F prototype statements

end OwnScript
