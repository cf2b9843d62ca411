import Std.Data.TreeMap
import OwnScript.Analysis.Flow
import OwnScript.Analysis.Summary

/-!
The state of an analysis: declarations, scopes, the knowledge on the current path, live borrows
and the diagnostics found so far, with the events that change it. A variable may be read when it
is initialized on every path; it may be moved when no function has captured it and no borrow of
it is live; it may be borrowed exclusively when no other borrow of it is live.
-/

namespace OwnScript

/-- The number of a stretch of the program after which borrows end. -/
abbrev Extent := Nat

/-- A declaration. -/
structure Symbol where
  name : String
  location : Location
  /-- The extent of the scope that the declaration lives in. -/
  extent : Extent
  /-- How many function bodies surround the declaration. -/
  functionDepth : Nat
  isGlobal : Bool
  /-- Set on global functions, which exist before the first statement runs. -/
  hoisted : Bool := false
  /-- Set when a function inside reads the variable. -/
  captured : Bool := false
  deriving Repr, DecidableEq

/-- The names declared in one scope, and the extent that ends with it. -/
structure Scope where
  names : Std.TreeMap String BindingId := {}
  extent : Extent

/-- A live borrow of a variable. -/
structure Borrow where
  target : BindingId
  /-- The variable that the borrow is stored in. -/
  holder : Option BindingId := none
  exclusive : Bool
  /-- The extent that ends the borrow. -/
  extent : Extent
  location : Location
  deriving Repr, DecidableEq

/-- A global function named where it may run before its declaration. -/
structure PendingReference where
  function : BindingId
  flow : FlowState
  location : Location
  deriving DecidableEq

/-- The paths that leave the body of a loop early. -/
structure LoopPaths where
  leaving : Array FlowState := #[]
  skipping : Array FlowState := #[]
  deriving DecidableEq

/-- The state of an analysis. -/
structure Analysis where
  symbols : Array Symbol := #[]
  /-- The innermost scope. -/
  scope : Scope := { extent := 0 }
  /-- The scopes around it, from the inside out. -/
  outerScopes : List Scope := []
  flow : FlowState := {}
  borrows : Array Borrow := #[]
  /-- The loops around the current statement, from the inside out. -/
  loops : List LoopPaths := []
  errors : Array Diagnostic := #[]
  summaries : Summaries := {}
  pending : Array PendingReference := #[]
  /-- The global function whose body is looked at. -/
  currentFunction : Option BindingId := none
  /-- How many function bodies surround the current statement. -/
  functionDepth : Nat := 0
  nextExtent : Extent := 1
  /-- Diagnostics are reported only while this is zero. -/
  silence : Nat := 0

/-- A step of an analysis. -/
abbrev Check := StateM Analysis

namespace Check

/-- Reports a diagnostic about a name. -/
def report (kind : ErrorKind) (message : String) (location : Location) (name : String) :
    Check Unit :=
  modify fun a =>
    if a.silence = 0 then
      { a with errors := a.errors.push { kind, location, message, context := name } }
    else a

/-- A new extent. -/
def newExtent : Check Extent :=
  modifyGet fun a => (a.nextExtent, { a with nextExtent := a.nextExtent + 1 })

/-- Ends the borrows of an extent. -/
def releaseExtent (extent : Extent) : Check Unit :=
  modify fun a => { a with borrows := a.borrows.filter (·.extent != extent) }

/-- Ends the borrows that a variable holds. -/
def releaseHeldBy (holder : BindingId) : Check Unit :=
  modify fun a => { a with borrows := a.borrows.filter (·.holder != some holder) }

/-- Opens a scope. -/
def enterScope : Check Unit := do
  let extent ← newExtent
  modify fun a => { a with scope := { extent }, outerScopes := a.scope :: a.outerScopes }

/-- Closes the innermost scope. -/
def exitScope : Check Unit := do
  releaseExtent (← get).scope.extent
  modify fun a =>
    match a.outerScopes with
    | [] => a
    | scope :: outerScopes => { a with scope, outerScopes }

/-- Changes the knowledge about a variable on the current path. -/
def setState (id : BindingId) (state : InitState) : Check Unit :=
  modify fun a => { a with flow := a.flow.set id state }

/-- Replaces the current path. -/
def setFlow (flow : FlowState) : Check Unit :=
  modify fun a => { a with flow }

/-- The current path. -/
def getFlow : Check FlowState :=
  return (← get).flow

/-- Ends the current path: what follows cannot be reached. -/
def endPath : Check Unit :=
  modify fun a => { a with flow.reachable := false }

/-- Declares a name in the innermost scope. A name that is already there keeps its declaration. -/
def declareName (name : String) (location : Location) (initial : InitState) : Check BindingId := do
  let a ← get
  match a.scope.names[name]? with
  | some id =>
    report .duplicateBinding s!"'{name}' is already declared in this scope" location name
    return id
  | none =>
    let id := a.symbols.size
    let symbol : Symbol :=
      { name, location, extent := a.scope.extent, functionDepth := a.functionDepth
        isGlobal := a.outerScopes.isEmpty }
    modify fun a =>
      { a with
        symbols := a.symbols.push symbol
        scope := { a.scope with names := a.scope.names.insert name id } }
    setState id initial
    return id

/-- The declaration that a name leads to, from the inside out. -/
def lookup (name : String) : Check (Option BindingId) := do
  let a ← get
  return (a.scope :: a.outerScopes).findSome? (·.names[name]?)

/-- Whether a declaration is global. -/
def isGlobal (id : BindingId) : Check Bool :=
  return ((← get).symbols[id]?.map (·.isGlobal)).getD false

/-- Whether a borrow of the variable is live. -/
def isBorrowed (id : BindingId) : Check Bool :=
  return (← get).borrows.any (·.target == id)

/-- A variable is read. On one path the fault is reported once. -/
def useBinding (id : BindingId) (name : String) (location : Location) : Check Unit := do
  let flow ← getFlow
  if flow.reachable then
    match flow.get id with
    | .initialized => return
    | .uninitialized =>
      report .useOfUninitialized s!"'{name}' may be read before it is initialized" location name
    | .moved =>
      report .useAfterMove s!"'{name}' is used after its value was moved" location name
    setState id .initialized

/-- A variable is read and gives up its value. -/
def moveBinding (id : BindingId) (name : String) (location : Location) : Check Unit := do
  useBinding id name location
  let a ← get
  match a.symbols[id]? with
  | some symbol =>
    if symbol.functionDepth < a.functionDepth then
      report .useAfterMove s!"cannot move '{name}' out of an enclosing function" location name
    else if symbol.captured then
      -- A function that read the variable may still run and read it again.
      report .useAfterMove s!"cannot move '{name}' after a function has captured it" location name
  | none => pure ()
  if ← isBorrowed id then
    report .conflictingBorrow s!"cannot move '{name}' while it is borrowed" location name
  releaseHeldBy id
  setState id .moved

/-- A variable gets a new value. -/
def assignBinding (id : BindingId) (name : String) (location : Location) : Check Unit := do
  if ← isBorrowed id then
    report .conflictingBorrow s!"cannot assign to '{name}' while it is borrowed" location name
  setState id .initialized

/-- The word for a kind of borrow. -/
def borrowWord (exclusive : Bool) : String :=
  if exclusive then "exclusive" else "shared"

/-- A borrow begins, and its place among the live borrows is the result. It conflicts with a live
borrow of the same variable if either is exclusive. -/
def beginBorrow (target : BindingId) (name : String) (exclusive : Bool) (extent : Extent)
    (location : Location) : Check Nat := do
  let a ← get
  match a.borrows.find? (fun live => live.target == target && (exclusive || live.exclusive)) with
  | some live =>
    let wanted := borrowWord exclusive
    let found := borrowWord live.exclusive
    report .conflictingBorrow
      s!"{wanted} borrow of '{name}' conflicts with a live {found} borrow" location name
  | none => pure ()
  modify fun a => { a with borrows := a.borrows.push { target, exclusive, extent, location } }
  return a.borrows.size

/-- A live borrow is stored in a variable. -/
def holdBorrow (place : Nat) (holder : BindingId) : Check Unit :=
  modify fun a =>
    { a with borrows := a.borrows.modify place (fun borrow => { borrow with holder := some holder }) }

/-- Records what a reference means for code that runs later: captures of variables of enclosing
functions, and the globals that a global function reads or refers to. -/
def noteReference (id : BindingId) (location : Location) : Check Unit :=
  modify fun a =>
    match a.symbols[id]? with
    | none => a
    | some symbol =>
      let a := if symbol.functionDepth < a.functionDepth then
          { a with symbols := a.symbols.modify id (fun symbol => { symbol with captured := true }) }
        else a
      if !symbol.isGlobal then a
      else
        match a.currentFunction with
        | some function =>
          let summary := a.summaries.of function
          let summary := if symbol.hoisted then { summary with calls := id :: summary.calls }
            else { summary with reads := id :: summary.reads }
          { a with summaries := a.summaries.insert function summary }
        | none =>
          if symbol.hoisted && a.silence == 0 && a.flow.reachable then
            { a with pending := a.pending.push { function := id, flow := a.flow, location } }
          else a

/-- Resolves a name where a variable is used. -/
def resolve (identifier : Identifier) : Check (Identifier × Option BindingId) := do
  match ← lookup identifier.name with
  | none =>
    report .undefinedName s!"undefined name '{identifier.name}'" identifier.location identifier.name
    return (identifier, none)
  | some id =>
    let resolution : Resolution := { binding := some id, isGlobal := ← isGlobal id }
    noteReference id identifier.location
    return ({ identifier with resolution }, some id)

/-- Declares the global functions, which are visible from the start of the program. -/
def hoistFunctions (hoisted : List Stmt) : List Stmt → Check (List Stmt)
  | [] => return hoisted.reverse
  | .function location declaration _ :: rest => do
    let id ← declareName declaration.name location .initialized
    modify fun a =>
      { a with symbols := a.symbols.modify id (fun symbol => { symbol with hoisted := true }) }
    let resolution : Resolution := { binding := some id, isGlobal := true }
    hoistFunctions (.function location declaration resolution :: hoisted) rest
  | stmt :: rest => hoistFunctions (stmt :: hoisted) rest

/-- Reports the globals that a function may read too early at one reference to it. -/
def checkReference (reference : PendingReference) : Check Unit := do
  let a ← get
  let nameOf (id : BindingId) : String := (a.symbols[id]?.map (·.name)).getD ""
  let function := nameOf reference.function
  (a.summaries.globalReads reference.function).forM fun global => do
    let name := nameOf global
    match reference.flow.get global with
    | .initialized => pure ()
    | .uninitialized =>
      report .useOfUninitialized s!"'{function}' may read '{name}' before it is initialized"
        reference.location name
    | .moved =>
      report .useAfterMove s!"'{function}' reads '{name}' after its value was moved"
        reference.location name

/-- Reports on every global function that was named where it may run too early. -/
def checkPendingReferences : Check Unit := do
  (← get).pending.forM checkReference

end Check

end OwnScript
