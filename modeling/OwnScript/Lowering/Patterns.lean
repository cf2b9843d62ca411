import OwnScript.Code.Matcher
import OwnScript.Program.Basic

/-!
Patterns in executable form. A pattern becomes a matcher, and the variables of the pattern are
listed in the order in which the matcher binds values.
-/

namespace OwnScript.Pattern

mutual

/-- The matcher of a pattern. -/
def toMatcher : Pattern → Matcher
  | .wildcard _ => .any
  | .bind _ _ _ => .node .binding []
  | .literal _ (.scalar value) => .node (.literal value) []
  | .literal _ (.text value) => .node (.text value) []
  | .destructure _ fields => .node .destructure (toMatchers fields)

/-- The matchers of the patterns of fields. -/
def toMatchers : List (String × Pattern) → List (String × Matcher)
  | [] => []
  | (name, pattern) :: rest => (name, pattern.toMatcher) :: toMatchers rest

end

/-- A variable that a pattern binds. -/
structure Variable where
  binding : Option BindingId
  location : Location
  deriving Repr, DecidableEq

mutual

/-- The variables of a pattern from left to right. -/
def vars : Pattern → List Variable
  | .bind location _ binding => [{ binding, location }]
  | .destructure _ fields => fieldVariables fields
  | _ => []

/-- The variables of the patterns of fields. -/
def fieldVariables : List (String × Pattern) → List Variable
  | [] => []
  | (_, pattern) :: rest => pattern.vars ++ fieldVariables rest

end

end OwnScript.Pattern
