import OwnScript.Proofs.Program.Shape

/-!
Lexical scoping. The outline of a program keeps the declarations and the uses of names and the scopes around
them, in the order in which declarations become visible, and forgets everything else. A name leads to its
declaration in the innermost scope around it that has declared it so far.
-/

namespace OwnScript

/-- What a program says about names. -/
inductive Naming where
  | declares (name : String) (resolution : Resolution)
  | refers (name : String) (resolution : Resolution)
  | scope (body : List Naming)

/-- The scopes around a point of a program, each with its declarations so far, the latest first. -/
structure Scopes where
  innermost : List (String × Resolution) := []
  /-- The scopes around the innermost one, from the inside out. -/
  outer : List (List (String × Resolution)) := []

/-- The rules of scoping: a scope declares a name once, and a name that is used leads to a declaration. -/
def scopingRules : List ErrorKind :=
  [.duplicateBinding, .undefinedName]

namespace Scopes

/-- The declaration that a name leads to, from the inside out. -/
def visible (scopes : Scopes) (name : String) : Option Resolution :=
  (scopes.innermost :: scopes.outer).findSome? (·.lookup name)

def enter (scopes : Scopes) : Scopes :=
  { outer := scopes.innermost :: scopes.outer }

/-- The scopes after a part of a program. A scope that it closes leaves nothing behind. -/
def after (scopes : Scopes) : Naming → Scopes
  | .declares name resolution => { scopes with innermost := (name, resolution) :: scopes.innermost }
  | .refers _ _ | .scope _ => scopes

def afterAll (scopes : Scopes) (outline : List Naming) : Scopes :=
  outline.foldl after scopes

/-- The rule that a declaration or a use breaks where it stands. -/
def fault (scopes : Scopes) : Naming → Option ErrorKind
  | .declares name _ => if (scopes.innermost.lookup name).isSome then some .duplicateBinding else none
  | .refers name _ => if (scopes.visible name).isNone then some .undefinedName else none
  | .scope _ => none

/-- What a name carries where it stands: a declaration a number and whether it is in the outermost scope, and
a use what the declaration carries that it leads to. -/
def Resolves (scopes : Scopes) : Naming → Prop
  | .declares _ resolution => resolution.binding.isSome ∧ (resolution.isGlobal = true ↔ scopes.outer = [])
  | .refers name resolution => scopes.visible name = some resolution
  | .scope _ => True

end Scopes

section Outlines

mutual

/-- A part of an outline has a property at every declaration and every use, in the scopes around it. -/
def Naming.Throughout (property : Scopes → Naming → Prop) (scopes : Scopes) : Naming → Prop
  | .declares name resolution => property scopes (.declares name resolution)
  | .refers name resolution => property scopes (.refers name resolution)
  | .scope body => Throughout property scopes.enter body
termination_by structural naming => naming

/-- An outline has a property at every declaration and every use, in the scopes around it. -/
def Throughout (property : Scopes → Naming → Prop) (scopes : Scopes) : List Naming → Prop
  | [] => True
  | naming :: rest => naming.Throughout property scopes ∧ Throughout property (scopes.after naming) rest
termination_by structural outline => outline

end

mutual

/-- The declarations and uses in a part of an outline. -/
def Naming.mentions : Naming → List Naming
  | .declares name resolution => [.declares name resolution]
  | .refers name resolution => [.refers name resolution]
  | .scope body => mentions body
termination_by structural naming => naming

/-- The declarations and uses in an outline, in all its scopes. -/
def mentions : List Naming → List Naming
  | [] => []
  | naming :: rest => naming.mentions ++ mentions rest
termination_by structural outline => outline

end

/-- What a name carries. -/
def Naming.resolution : Naming → Resolution
  | .declares _ resolution | .refers _ resolution => resolution
  | .scope _ => {}

/-- The number that a declaration carries. -/
def Naming.declared? : Naming → Option BindingId
  | .declares _ resolution => resolution.binding
  | .refers _ _ | .scope _ => none

/-- The numbers of the declarations in an outline. -/
def declaredIds (outline : List Naming) : List BindingId :=
  (mentions outline).filterMap Naming.declared?

/-- No name carries anything yet. -/
def Unresolved (outline : List Naming) : Prop :=
  ∀ naming ∈ mentions outline, naming.resolution = {}

/-- The names that have a number have one below a bound. -/
def NumberedBelow (bound : Nat) (outline : List Naming) : Prop :=
  ∀ naming ∈ mentions outline, ∀ id, naming.resolution.binding = some id → id < bound

/-- No declaration and no use breaks a rule. -/
def Obeys (rule : ErrorKind) (scopes : Scopes) (outline : List Naming) : Prop :=
  Throughout (fun scopes naming => scopes.fault naming ≠ some rule) scopes outline

mutual

/-- A part of an outline without what its names carry. -/
def Naming.bare : Naming → Naming
  | .declares name _ => .declares name {}
  | .refers name _ => .refers name {}
  | .scope body => .scope (bare body)
termination_by structural naming => naming

/-- An outline without what its names carry. -/
def bare : List Naming → List Naming
  | [] => []
  | naming :: rest => naming.bare :: bare rest
termination_by structural outline => outline

end

section Algebra

variable {scopes other : Scopes} {property : Scopes → Naming → Prop} {rule : ErrorKind} {name : String}
  {resolution : Resolution} {outline more : List Naming}

namespace Scopes

@[simp] theorem afterAll_nil : scopes.afterAll [] = scopes := rfl

@[simp] theorem afterAll_cons (naming : Naming) :
    scopes.afterAll (naming :: outline) = (scopes.after naming).afterAll outline := rfl

@[simp] theorem afterAll_append : scopes.afterAll (outline ++ more) = (scopes.afterAll outline).afterAll more :=
  List.foldl_append

@[simp] theorem outer_after (naming : Naming) : (scopes.after naming).outer = scopes.outer := by
  cases naming <;> rfl

@[simp] theorem outer_afterAll (outline : List Naming) : (scopes.afterAll outline).outer = scopes.outer := by
  induction outline generalizing scopes with
  | nil => rfl
  | cons naming rest ih => rw [afterAll_cons, ih, outer_after]

@[simp] theorem visible_enter (name : String) : scopes.enter.visible name = scopes.visible name := rfl

theorem lookup_declares (wanted : String) :
    (scopes.after (.declares name resolution)).innermost.lookup wanted =
      if wanted = name then some resolution else scopes.innermost.lookup wanted := by
  by_cases heq : wanted = name
  · simp [after, heq]
  · simp [after, List.lookup_cons, heq, beq_false_of_ne heq]

theorem visible_declares (wanted : String) :
    (scopes.after (.declares name resolution)).visible wanted =
      if wanted = name then some resolution else scopes.visible wanted := by
  by_cases heq : wanted = name
  · simp [visible, lookup_declares, heq]
  · simp only [visible, List.findSome?_cons, lookup_declares, if_neg heq]
    rfl

/-- Scopes in which the same names are declared. -/
structure SameNames (scopes other : Scopes) : Prop where
  innermost : ∀ name, (scopes.innermost.lookup name).isSome = (other.innermost.lookup name).isSome
  visible : ∀ name, (scopes.visible name).isSome = (other.visible name).isSome

theorem SameNames.refl (scopes : Scopes) : scopes.SameNames scopes :=
  ⟨fun _ => rfl, fun _ => rfl⟩

theorem SameNames.enter (hsame : scopes.SameNames other) : scopes.enter.SameNames other.enter :=
  ⟨fun _ => rfl, hsame.visible⟩

theorem SameNames.declares (hsame : scopes.SameNames other) (name : String) (resolution second : Resolution) :
    (scopes.after (.declares name resolution)).SameNames (other.after (.declares name second)) where
  innermost wanted := by
    rw [lookup_declares, lookup_declares]
    split
    · rfl
    · exact hsame.innermost wanted
  visible wanted := by
    rw [visible_declares, visible_declares]
    split
    · rfl
    · exact hsame.visible wanted

end Scopes

theorem throughout_append :
    Throughout property scopes (outline ++ more) ↔
      Throughout property scopes outline ∧ Throughout property (scopes.afterAll outline) more := by
  induction outline generalizing scopes with
  | nil => exact (iff_of_eq (true_and _)).symm
  | cons naming rest ih =>
    simp only [List.cons_append, Throughout, ih, and_assoc, Scopes.afterAll_cons]

theorem throughout_scope :
    Throughout property scopes [.scope outline] ↔ Throughout property scopes.enter outline :=
  iff_of_eq (and_true _)

theorem obeys_append :
    Obeys rule scopes (outline ++ more) ↔ Obeys rule scopes outline ∧ Obeys rule (scopes.afterAll outline) more :=
  throughout_append

theorem obeys_scope : Obeys rule scopes [.scope outline] ↔ Obeys rule scopes.enter outline :=
  throughout_scope

theorem mentions_append : mentions (outline ++ more) = mentions outline ++ mentions more := by
  induction outline with
  | nil => rfl
  | cons naming rest ih => simp only [List.cons_append, mentions, ih, List.append_assoc]

theorem mentions_scope : mentions [.scope outline] = mentions outline :=
  List.append_nil _

theorem unresolved_append : Unresolved (outline ++ more) ↔ Unresolved outline ∧ Unresolved more := by
  simp only [Unresolved, mentions_append, List.forall_mem_append]

theorem unresolved_scope : Unresolved [.scope outline] ↔ Unresolved outline := by
  rw [Unresolved, mentions_scope, Unresolved]

theorem NumberedBelow.mono {bound higher : Nat} (hnumbered : NumberedBelow bound outline) (hle : bound ≤ higher) :
    NumberedBelow higher outline :=
  fun naming hmem id hid => Nat.lt_of_lt_of_le (hnumbered naming hmem id hid) hle

theorem numberedBelow_append {bound : Nat} :
    NumberedBelow bound (outline ++ more) ↔ NumberedBelow bound outline ∧ NumberedBelow bound more := by
  simp only [NumberedBelow, mentions_append, List.forall_mem_append]

theorem declaredIds_append : declaredIds (outline ++ more) = declaredIds outline ++ declaredIds more := by
  rw [declaredIds, mentions_append, List.filterMap_append, declaredIds, declaredIds]

theorem bare_append : bare (outline ++ more) = bare outline ++ bare more := by
  induction outline with
  | nil => rfl
  | cons naming rest ih => simp only [List.cons_append, bare, ih]

mutual

theorem Naming.obeys_congr (first second : Naming) (hbare : first.bare = second.bare) (scopes other : Scopes)
    (hsame : scopes.SameNames other) :
    first.Throughout (fun scopes naming => scopes.fault naming ≠ some rule) scopes ↔
      second.Throughout (fun scopes naming => scopes.fault naming ≠ some rule) other := by
  cases first with
  | declares name resolution =>
    cases second <;> cases hbare
    simp only [Naming.Throughout, Scopes.fault, hsame.innermost]
  | refers name resolution =>
    cases second <;> cases hbare
    simp only [Naming.Throughout, Scopes.fault, ← Option.not_isSome, hsame.visible]
  | scope body =>
    cases second with
    | scope others => exact obeys_congr body others (Naming.scope.inj hbare) _ _ hsame.enter
    | _ => cases hbare
termination_by structural first

/-- Whether an outline breaks a rule does not depend on what its names carry. -/
theorem obeys_congr (first second : List Naming) (hbare : bare first = bare second) (scopes other : Scopes)
    (hsame : scopes.SameNames other) : Obeys rule scopes first ↔ Obeys rule other second := by
  cases first with
  | nil =>
    cases second with
    | nil => exact Iff.rfl
    | cons => cases hbare
  | cons naming rest =>
    cases second with
    | nil => cases hbare
    | cons counterpart others =>
      obtain ⟨hhead, hrest⟩ := List.cons.inj hbare
      have hafter : (scopes.after naming).SameNames (other.after counterpart) := by
        cases naming with
        | declares name resolution =>
          cases counterpart <;> cases hhead
          exact hsame.declares ..
        | refers name resolution =>
          cases counterpart <;> cases hhead
          exact hsame
        | scope body =>
          cases counterpart with
          | scope others => exact hsame
          | _ => cases hhead
      exact and_congr (Naming.obeys_congr naming counterpart hhead _ _ hsame)
        (obeys_congr rest others hrest _ _ hafter)
termination_by structural first

end

/-- An outline that declares nothing outside of scopes of its own leaves the scopes around it. -/
def Neutral (outline : List Naming) : Prop :=
  ∀ scopes : Scopes, scopes.afterAll outline = scopes

theorem neutral_nil : Neutral [] :=
  fun _ => rfl

theorem Neutral.append (hfirst : Neutral outline) (hsecond : Neutral more) : Neutral (outline ++ more) :=
  fun scopes => by rw [Scopes.afterAll_append, hfirst, hsecond]

theorem neutral_refers (name : String) (resolution : Resolution) : Neutral [.refers name resolution] :=
  fun _ => rfl

theorem Neutral.scope (hrest : Neutral outline) (body : List Naming) : Neutral (.scope body :: outline) :=
  fun scopes => hrest scopes

end Algebra

end Outlines

mutual

/-- The variables of a pattern are declared from left to right. -/
def Pattern.outline : Pattern → List Naming
  | .bind _ name binding => [.declares name { binding }]
  | .destructure _ fields => Pattern.fieldOutlines fields
  | .wildcard _ | .literal _ _ => []

def Pattern.fieldOutlines : List (String × Pattern) → List Naming
  | [] => []
  | (_, pattern) :: rest => pattern.outline ++ Pattern.fieldOutlines rest

end

mutual

def Expr.outline : Expr → List Naming
  | .absent | .literal _ _ | .move _ none => []
  | .name identifier | .move _ (some identifier) => [.refers identifier.name identifier.resolution]
  | .unary _ _ operand | .deref _ operand => operand.outline
  | .binary _ _ left right => left.outline ++ right.outline
  | .call _ callee arguments => callee.outline ++ Expr.outlines arguments
  | .field _ object _ => object.outline
  | .index _ object index => object.outline ++ index.outline
  | .record _ fields => Expr.fieldOutlines fields
  | .array _ items => Expr.outlines items
  | .lambda _ function => function.outline
  | .borrow _ target _ => target.outline

def Expr.outlines : List Expr → List Naming
  | [] => []
  | expr :: rest => expr.outline ++ Expr.outlines rest

def Expr.fieldOutlines : List (String × Expr) → List Naming
  | [] => []
  | (_, value) :: rest => value.outline ++ Expr.fieldOutlines rest

/-- A block has a scope of its own, and so has each turn of a loop; the variable of a for loop and the body
share a scope in it. The branches of an if have none. A function is visible in its own body, but the initial
value of a variable does not see the variable. -/
def Stmt.outline : Stmt → List Naming
  | .absent | .leave _ | .skip _ => []
  | .declare _ name initial resolution => initial.outline ++ [.declares name resolution]
  | .assign _ name value resolution => value.outline ++ [.refers name resolution]
  | .assignField _ object _ value => object.outline ++ value.outline
  | .assignIndex _ object index value => object.outline ++ (index.outline ++ value.outline)
  | .evaluate _ expression | .print _ expression | .giveBack _ expression => expression.outline
  | .block _ body => [.scope (Stmt.outlines body)]
  | .ifElse _ condition yes no => condition.outline ++ (yes.outline ++ no.outline)
  | .cond _ scrutinee arms => scrutinee.outline ++ Arm.outlines arms
  | .whileLoop _ condition body => [.scope (condition.outline ++ body.outline)]
  | .forLoop _ counter binding first bound body =>
    first.outline ++ (bound.outline ++ [.scope [.scope (.declares counter { binding } :: body.outline)]])
  | .forever _ body => [.scope body.outline]
  | .disown _ name resolution => [.refers name resolution]
  | .function _ declaration resolution => .declares declaration.name resolution :: declaration.outline

def Stmt.outlines : List Stmt → List Naming
  | [] => []
  | stmt :: rest => stmt.outline ++ Stmt.outlines rest

/-- Pattern, guard and body of an arm share a scope. -/
def Arm.outlines : List Arm → List Naming
  | [] => []
  | ⟨_, pattern, guard, body⟩ :: rest =>
    .scope ((pattern.map Pattern.outline).getD [] ++ (guard.outline ++ Stmt.outlines body)) :: Arm.outlines rest

def Function.outline : Function → List Naming
  | ⟨_, _, clauses⟩ => Clause.outlines clauses

/-- Parameters and body of a clause share a scope. -/
def Clause.outlines : List Clause → List Naming
  | [] => []
  | ⟨_, parameters, body⟩ :: rest =>
    .scope (parameters.flatMap Pattern.outline ++ Stmt.outlines body) :: Clause.outlines rest

end

theorem Clause.neutral_outlines (clauses : List Clause) : Neutral (Clause.outlines clauses) := by
  induction clauses with
  | nil => exact neutral_nil
  | cons clause rest ih =>
    obtain ⟨location, parameters, body⟩ := clause
    exact ih.scope _

mutual

/-- Expressions declare nothing. -/
theorem Expr.neutral_outline (expr : Expr) : Neutral expr.outline := by
  cases expr with
  | absent | literal => exact neutral_nil
  | name identifier => exact neutral_refers _ _
  | unary location op operand => exact operand.neutral_outline
  | binary location op left right => exact left.neutral_outline.append right.neutral_outline
  | call location callee arguments => exact callee.neutral_outline.append (Expr.neutral_outlines arguments)
  | field location object name => exact object.neutral_outline
  | index location object index => exact object.neutral_outline.append index.neutral_outline
  | record location fields => exact Expr.neutral_fieldOutlines fields
  | array location items => exact Expr.neutral_outlines items
  | lambda location function =>
    obtain ⟨name, isProc, clauses⟩ := function
    exact Clause.neutral_outlines clauses
  | borrow location target exclusive => exact target.neutral_outline
  | move location target =>
    cases target with
    | none => exact neutral_nil
    | some identifier => exact neutral_refers _ _
  | deref location operand => exact operand.neutral_outline
termination_by structural expr

theorem Expr.neutral_outlines (exprs : List Expr) : Neutral (Expr.outlines exprs) := by
  cases exprs with
  | nil => exact neutral_nil
  | cons expr rest => exact expr.neutral_outline.append (Expr.neutral_outlines rest)
termination_by structural exprs

theorem Expr.neutral_fieldOutlines (fields : List (String × Expr)) : Neutral (Expr.fieldOutlines fields) := by
  cases fields with
  | nil => exact neutral_nil
  | cons field rest =>
    obtain ⟨name, value⟩ := field
    exact value.neutral_outline.append (Expr.neutral_fieldOutlines rest)
termination_by structural fields

end

theorem Arm.neutral_outlines (arms : List Arm) : Neutral (Arm.outlines arms) := by
  induction arms with
  | nil => exact neutral_nil
  | cons arm rest ih =>
    obtain ⟨place, pattern, guard, body⟩ := arm
    exact ih.scope _

theorem Stmt.neutral_outline (stmt : Stmt) (hcontained : stmt.isContained = true) : Neutral stmt.outline := by
  cases stmt with
  | absent | leave | skip => exact neutral_nil
  | declare | function => cases hcontained
  | assign location name value resolution => exact value.neutral_outline.append (neutral_refers name resolution)
  | assignField location object field value => exact object.neutral_outline.append value.neutral_outline
  | assignIndex location object index value =>
    exact object.neutral_outline.append (index.neutral_outline.append value.neutral_outline)
  | evaluate location expression | print location expression => exact expression.neutral_outline
  | giveBack location value => exact value.neutral_outline
  | block | whileLoop | forever => exact neutral_nil.scope _
  | forLoop location counter binding first bound body =>
    exact first.neutral_outline.append (bound.neutral_outline.append (neutral_nil.scope _))
  | cond location scrutinee arms => exact scrutinee.neutral_outline.append (Arm.neutral_outlines arms)
  | disown location name resolution => exact neutral_refers name resolution
  | ifElse location condition yes no =>
    obtain ⟨hyes, hno⟩ := Bool.and_eq_true_iff.mp hcontained
    exact condition.neutral_outline.append ((yes.neutral_outline hyes).append (no.neutral_outline hno))
termination_by structural stmt

theorem Function.neutral_outline (function : Function) : Neutral function.outline := by
  obtain ⟨name, isProc, clauses⟩ := function
  exact Clause.neutral_outlines clauses

def Stmt.isFunction : Stmt → Bool
  | .function .. => true
  | _ => false

theorem Stmt.isFunction_of_isContained {stmt : Stmt} (hcontained : stmt.isContained = true) :
    stmt.isFunction = false := by
  cases stmt with
  | function => cases hcontained
  | _ => rfl

/-- What a statement of a program declares before the first statement runs: the functions. -/
def Stmt.early : Stmt → List Naming
  | .function _ declaration resolution => [.declares declaration.name resolution]
  | _ => []

/-- What a statement of a program says about names when its functions are declared already. -/
def Stmt.late : Stmt → List Naming
  | .function _ declaration _ => declaration.outline
  | stmt => stmt.outline

theorem Stmt.early_eq_nil {stmt : Stmt} (hfunction : stmt.isFunction = false) : stmt.early = [] := by
  cases stmt with
  | function => cases hfunction
  | _ => rfl

theorem Stmt.late_eq_outline {stmt : Stmt} (hfunction : stmt.isFunction = false) : stmt.late = stmt.outline := by
  cases stmt with
  | function => cases hfunction
  | _ => rfl

namespace Program

/-- The outline of a program, which declares its functions first. -/
def outline (program : Program) : List Naming :=
  program.statements.flatMap Stmt.early ++ program.statements.flatMap Stmt.late

/-- A program that no analysis has looked at. -/
def IsFresh (program : Program) : Prop :=
  Unresolved program.outline

/-- A program breaks a rule of scoping somewhere. -/
def Breaks (program : Program) (rule : ErrorKind) : Prop :=
  ¬ Obeys rule {} program.outline

/-- Every name carries what lexical scoping says about it. -/
structure LexicallyResolved (program : Program) : Prop where
  resolves : Throughout Scopes.Resolves {} program.outline
  distinct : (declaredIds program.outline).Nodup
  numbered : NumberedBelow program.bindingCount program.outline

end Program

end OwnScript
