import Std.Data.TreeMap
import Std.Data.TreeSet
import OwnScript.Program.Basic

/-!
Summaries of global functions: the globals that each one reads itself and the global functions
that it refers to. What a call may read is found by following references from function to
function.
-/

namespace OwnScript

/-- The globals that a function reads and the global functions that it refers to. -/
structure FunctionSummary where
  reads : List BindingId := []
  calls : List BindingId := []
  deriving Repr, DecidableEq

/-- The summaries of the global functions seen so far. -/
abbrev Summaries := Std.TreeMap BindingId FunctionSummary

namespace Summaries

/-- The summary of a function, empty if it has none. -/
def of (summaries : Summaries) (function : BindingId) : FunctionSummary :=
  summaries[function]?.getD {}

/-- How many references from function to function there are. -/
def edgeCount (summaries : Summaries) : Nat :=
  summaries.toList.foldr (fun entry count => entry.2.calls.length + count) 0

/-- Puts those functions on the list that were never there. -/
def visit (pending visited : List BindingId) : List BindingId → List BindingId × List BindingId
  | [] => (pending, visited)
  | callee :: rest =>
    if visited.contains callee then visit pending visited rest
    else visit (callee :: pending) (callee :: visited) rest

/-- The functions that can be reached from those on the list, together with those visited
before; one is taken from the list in each step. -/
def reachSteps (summaries : Summaries) : Nat → List BindingId → List BindingId → List BindingId
  | 0, _, visited => visited
  | _, [], visited => visited
  | steps + 1, function :: pending, visited =>
    let (pending, visited) := visit pending visited (summaries.of function).calls
    reachSteps summaries steps pending visited

/-- The functions that can be reached from one, itself included. Each is put on the list once,
so there are at most as many steps as references and one more. -/
def reachable (summaries : Summaries) (function : BindingId) : List BindingId :=
  reachSteps summaries (summaries.edgeCount + 1) [function] [function]

/-- The globals that a call of a function may read, in order and without repetition. -/
def globalReads (summaries : Summaries) (function : BindingId) : List BindingId :=
  let reads := (summaries.reachable function).flatMap fun f => (summaries.of f).reads
  (reads.foldl (fun (seen : Std.TreeSet BindingId) id => seen.insert id) {}).toList

end Summaries

end OwnScript
