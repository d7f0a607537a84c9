import Telemetry.Expression.Formula

/-!
# Formulas by position

To be evaluated again and again, a formula reads its numbers by position: each label gives way to
its place among the labels, which are gathered in order of first use.
-/

namespace Telemetry

/-- A formula that reads numbers by their positions. -/
inductive Positional
  | number (x : Float)
  | argument (i : Nat)
  | negate (inner : Positional)
  | binary (op : Operator) (left right : Positional)
  | call (f : Builtin) (args : List Positional)

namespace Positional

mutual

/-- The value of a formula, given the numbers. A position that is not taken is unknown. -/
def evaluate (xs : List Float) : Positional → Float
  | number x => x
  | argument i => xs.getD i unknown
  | negate inner => -inner.evaluate xs
  | binary op left right => op.apply (left.evaluate xs) (right.evaluate xs)
  | call f args => f.apply (evaluateAll xs args)

def evaluateAll (xs : List Float) : List Positional → List Float
  | [] => []
  | a :: rest => a.evaluate xs :: evaluateAll xs rest

end

end Positional

namespace Formula

mutual

/-- The formula by position, and the labels so far with its own new ones behind them. A label that
is known already keeps its place. -/
def positional : Formula → List String → Positional × List String
  | number x, labels => (.number x, labels)
  | label name, labels =>
    match labels.idxOf? name with
    | some i => (.argument i, labels)
    | none => (.argument labels.length, labels ++ [name])
  | negate inner, labels =>
    let (inner, labels) := inner.positional labels
    (.negate inner, labels)
  | binary op left right, labels =>
    let (left, labels) := left.positional labels
    let (right, labels) := right.positional labels
    (.binary op left right, labels)
  | call f args, labels =>
    let (args, labels) := positionalAll args labels
    (.call f args, labels)

def positionalAll : List Formula → List String → List Positional × List String
  | [], labels => ([], labels)
  | a :: rest, labels =>
    let (a, labels) := a.positional labels
    let (rest, labels) := positionalAll rest labels
    (a :: rest, labels)

end

end Formula

end Telemetry
