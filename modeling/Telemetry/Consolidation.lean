import Telemetry.Row

/-!
# Consolidation functions

A consolidation function reduces the numbers of a bucket to one and leaves aside what is unknown.
-/

namespace Telemetry

/-- How the numbers of a bucket become one. -/
inductive Consolidation
  | average
  | min
  | max
deriving DecidableEq

namespace Consolidation

def name : Consolidation → String
  | average => "AVERAGE"
  | min => "MIN"
  | max => "MAX"

def all : List Consolidation := [average, min, max]

def ofName? (s : String) : Option Consolidation :=
  all.find? (·.name = s)

/-- Reads a function's name, short or long, in any case. -/
def parse? (s : String) : Option Consolidation :=
  let word := s.toUpper
  if word = "AVG" then some average
  else if word = "MINIMUM" then some min
  else if word = "MAXIMUM" then some max
  else ofName? word

/-- The greatest finite number, from which a search for the least number starts. -/
def greatestFinite : Float := Float.ofBits 0x7FEFFFFFFFFFFFFF

/-- The lesser of two numbers. -/
def lesser (a b : Float) : Float :=
  if b < a then b else a

/-- The greater of two numbers. -/
def greater (a b : Float) : Float :=
  if a < b then b else a

/-- The numbers that are known. -/
def known (xs : List Float) : List Float :=
  xs.filter (! ·.isNaN)

/-- Reduces numbers to one. Of no numbers at all nothing is known; where numbers are given but none
is known, the search for an extreme ends where it starts. -/
def apply (f : Consolidation) (xs : List Float) : Float :=
  if xs.isEmpty then unknown
  else
    let ks := known xs
    match f with
    | average =>
      if ks.isEmpty then unknown else ks.foldl (· + ·) 0 / ks.length.toUInt64.toFloat
    | min => ks.foldl lesser greatestFinite
    | max => ks.foldl greater (-greatestFinite)

end Consolidation

/-! ## Calculations over the numbers of a row -/

namespace Calculation

/-- The sum, starting from negative zero, which adds nothing to any number. -/
def sum (xs : List Float) : Float :=
  xs.foldl (· + ·) (-0.0)

def product (xs : List Float) : Float :=
  xs.foldl (· * ·) 1

/-- The first number less all others. -/
def difference : List Float → Float
  | [] => unknown
  | x :: xs => xs.foldl (· - ·) x

/-- The first number divided by all others in turn. -/
def quotient : List Float → Float
  | [] => unknown
  | x :: xs => xs.foldl (· / ·) x

/-- A function of one number, applied to the first. -/
def unary (f : Float → Float) : List Float → Float
  | [] => unknown
  | x :: _ => f x

/-- A function of two numbers, applied to two and no more. -/
def binary (f : Float → Float → Float) : List Float → Float
  | [x, y] => f x y
  | _ => unknown

end Calculation

end Telemetry
