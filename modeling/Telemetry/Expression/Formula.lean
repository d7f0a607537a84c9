import Telemetry.Row
import Telemetry.Decimal.Reader

/-!
# Formulas

The syntax trees of arithmetic over labels, and their values once every label has one.
-/

namespace Telemetry

/-- An arithmetic operator. -/
inductive Operator
  | add
  | subtract
  | multiply
  | divide
deriving DecidableEq

namespace Operator

def symbol : Operator → String
  | add => "+"
  | subtract => "-"
  | multiply => "*"
  | divide => "/"

def apply : Operator → Float → Float → Float
  | add, x, y => x + y
  | subtract, x, y => x - y
  | multiply, x, y => x * y
  | divide, x, y => x / y

end Operator

/-- A function that formulas can call. -/
inductive Builtin
  | abs
  | min
  | max
deriving DecidableEq

namespace Builtin

def name : Builtin → String
  | abs => "abs"
  | min => "min"
  | max => "max"

def all : List Builtin := [abs, min, max]

def ofName? (s : String) : Option Builtin :=
  all.find? (·.name = s)

/-- The lesser of two numbers, unknown as soon as one of them is. -/
def leastKnown (a b : Float) : Float :=
  if a.isNaN || b.isNaN then unknown else if b < a then b else a

/-- The greater of two numbers, unknown as soon as one of them is. -/
def greatestKnown (a b : Float) : Float :=
  if a.isNaN || b.isNaN then unknown else if a < b then b else a

def apply : Builtin → List Float → Float
  | abs, [] => unknown
  | abs, x :: _ => x.abs
  | min, xs => xs.foldl leastKnown infinity
  | max, xs => xs.foldl greatestKnown (-infinity)

end Builtin

/-- The syntax tree of an expression. -/
inductive Formula
  | number (x : Float)
  | label (name : String)
  | negate (inner : Formula)
  | binary (op : Operator) (left right : Formula)
  | call (f : Builtin) (args : List Formula)

namespace Formula

mutual

/-- The value of a formula, given the value of each label. -/
def evaluate (env : String → Float) : Formula → Float
  | number x => x
  | label name => env name
  | negate inner => -inner.evaluate env
  | binary op left right => op.apply (left.evaluate env) (right.evaluate env)
  | call f args => f.apply (evaluateAll env args)

def evaluateAll (env : String → Float) : List Formula → List Float
  | [] => []
  | a :: rest => a.evaluate env :: evaluateAll env rest

end

mutual

/-- The labels of a formula from left to right, as often as they stand in it. -/
def mentions : Formula → List String
  | number _ => []
  | label name => [name]
  | negate inner => inner.mentions
  | binary _ left right => left.mentions ++ right.mentions
  | call _ args => mentionsAll args

def mentionsAll : List Formula → List String
  | [] => []
  | a :: rest => a.mentions ++ mentionsAll rest

end

/-- The distinct labels of a formula, in order of first use. -/
def labels (e : Formula) : List String :=
  e.mentions.eraseDups

mutual

/-- The number of arguments of the first call of `abs`, from the outside in and from left to
right, that has not exactly one. -/
def wrongArity? : Formula → Option Nat
  | number _ | label _ => none
  | negate inner => inner.wrongArity?
  | binary _ left right => left.wrongArity?.or right.wrongArity?
  | call f args =>
    if f = .abs ∧ args.length ≠ 1 then some args.length else wrongArityAll? args

def wrongArityAll? : List Formula → Option Nat
  | [] => none
  | a :: rest => a.wrongArity?.or (wrongArityAll? rest)

end

end Formula

end Telemetry
