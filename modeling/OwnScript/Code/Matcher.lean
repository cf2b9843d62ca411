import OwnScript.Scalar

/-!
Matchers: the patterns of the language as the machine interprets them. A matcher tests one value
and, for a record, the values of listed fields; the values that it binds come out in the order
of a walk from left to right.
-/

namespace OwnScript

/-- What a matcher asks of the value itself. -/
inductive Matcher.Test where
  /-- Nothing. -/
  | wildcard
  /-- Nothing; the value is bound. -/
  | binding
  /-- Equality with a scalar. -/
  | literal (value : Scalar)
  /-- A string with this text. -/
  | text (value : String)
  /-- A record that has every listed field. -/
  | destructure
  deriving DecidableEq

/-- A test with matchers for fields. Only the test for a record makes use of fields, and
verification refuses them elsewhere. -/
inductive Matcher where
  | node (test : Matcher.Test) (fields : List (String × Matcher))

namespace Matcher

/-- The matcher that accepts everything and binds nothing. -/
def any : Matcher :=
  .node .wildcard []

/-- What a matcher asks of the value itself. -/
def test : Matcher → Test
  | .node test _ => test

/-- The fields that a matcher looks at. -/
def fields : Matcher → List (String × Matcher)
  | .node _ fields => fields

mutual

/-- How many values a successful match binds. -/
def bindingCount : Matcher → Nat
  | .node .binding _ => 1
  | .node .destructure fields => bindingCounts fields
  | .node _ _ => 0

/-- How many values the matchers of several fields bind together. -/
def bindingCounts : List (String × Matcher) → Nat
  | [] => 0
  | (_, matcher) :: rest => matcher.bindingCount + bindingCounts rest

end

mutual

/-- Whether only tests for records have fields, and the matcher stays within a number of levels. -/
def wellFormed (levels : Nat) : Matcher → Bool
  | .node test fields =>
    match fields with
    | [] => true
    | _ => test == .destructure && wellFormedFields levels fields

/-- Whether the matchers of fields are well formed one level further down. -/
def wellFormedFields (levels : Nat) : List (String × Matcher) → Bool
  | [] => true
  | (_, matcher) :: rest =>
    (match levels with
      | 0 => false
      | levels + 1 => matcher.wellFormed levels)
    && wellFormedFields levels rest

end

end Matcher

end OwnScript
