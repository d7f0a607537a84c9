import Telemetry.Decimal.Reader

/-!
# Tokens of expressions

The text of an expression is cut into numbers, names and marks; blanks between them are skipped.
Every token comes with the text that begins with it, by which errors are reported.
-/

namespace Telemetry

/-- The smallest parts of an expression. -/
inductive Token
  | number (x : Float)
  /-- A number whose exponent lacks digits, and the text where they are missing. -/
  | unfinished (rest : List Char)
  | name (s : List Char)
  | plus
  | minus
  | times
  | divide
  | comma
  | leftParen
  | rightParen
  | other

/-- A token and the text that begins with it. -/
structure Lexeme where
  token : Token
  text : List Char

namespace Token

/-- A name begins with a letter or an underscore. -/
def startsName (c : Char) : Bool :=
  c.isAlpha || c = '_'

/-- A name goes on with letters, digits, underscores, points and colons. -/
def inName (c : Char) : Bool :=
  c.isAlphanum || c = '_' || c = '.' || c = ':'

/-- The token of one character that is neither part of a number nor of a name. -/
def ofChar (c : Char) : Token :=
  match c with
  | '+' => plus
  | '-' => minus
  | '*' => times
  | '/' => divide
  | ',' => comma
  | '(' => leftParen
  | ')' => rightParen
  | _ => other

/-- The first token of the text `c :: cs`, and the text behind it. -/
def next (c : Char) (cs : List Char) : Token × List Char :=
  if startsName c then (name (c :: cs.takeWhile inName), cs.dropWhile inName)
  else
    match DecimalLiteral.scan (c :: cs) with
    | .literal l rest => (number l.value, rest)
    | .unfinished rest => (unfinished rest, [])
    | .nothing => (ofChar c, cs)

theorem length_next_le (c : Char) (cs : List Char) : (next c cs).2.length ≤ cs.length := by
  unfold next
  split
  · exact DecimalLiteral.length_dropWhile_le _ _
  · split
    next h =>
      have := DecimalLiteral.length_rest_scan h
      simp only [List.length_cons] at this
      simpa using by omega
    · simp
    · exact Nat.le_refl _

end Token

/-- Cuts a text into tokens. Behind a number that is not finished nothing is read any more. -/
def lexemes : List Char → List Lexeme
  | [] => []
  | c :: cs =>
    if isBlank c then lexemes cs
    else ⟨(Token.next c cs).1, c :: cs⟩ :: lexemes (Token.next c cs).2
termination_by s => s.length
decreasing_by
  · simp
  · exact Nat.lt_succ_of_le (Token.length_next_le c cs)

end Telemetry
