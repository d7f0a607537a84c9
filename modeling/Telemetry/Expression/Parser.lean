import Telemetry.Expression.Positional
import Telemetry.Expression.Token

/-!
# Reading expressions

The grammar, with the usual precedence and operators that associate to the left:

    expr   = term (("+" | "-") term)*
    term   = factor (("*" | "/") factor)*
    factor = "-" factor | atom
    atom   = number | ("abs" | "min" | "max") "(" expr ("," expr)* ")" | label | "(" expr ")"

A choice that leads nowhere is given up for the next one, and what is reported is where the last
choice failed. Only an exponent without digits ends the reading at once.
-/

namespace Telemetry

/-- How reading a part of an expression ends. -/
inductive Parsed
  /-- The part is read; `rest` follows. -/
  | found (formula : Formula) (rest : List Lexeme)
  /-- There is no such part; reading failed at `text`. -/
  | refused (text : List Char)
  /-- Nothing can be read any more, whatever else is tried. -/
  | broken (text : List Char)

namespace Expression

/-- The text at which the lexemes begin. -/
def here : List Lexeme → List Char
  | [] => []
  | l :: _ => l.text

/-- Goes on with operators of one level and their right operands, as long as both are there. -/
def chain (op : Token → Option Operator) (item : List Lexeme → Parsed) :
    Nat → Formula → List Lexeme → Parsed
  | 0, left, ls => .found left ls
  | _, left, [] => .found left []
  | fuel + 1, left, l :: ls =>
    match op l.token with
    | none => .found left (l :: ls)
    | some o =>
      match item ls with
      | .found right rest => chain op item fuel (.binary o left right) rest
      | .refused _ => .found left (l :: ls)
      | .broken text => .broken text

/-- One operand, and the chain of operators behind it. -/
def level (op : Token → Option Operator) (item : List Lexeme → Parsed) (ls : List Lexeme) :
    Parsed :=
  match item ls with
  | .found left rest => chain op item rest.length left rest
  | failure => failure

def sumOperator : Token → Option Operator
  | .plus => some .add
  | .minus => some .subtract
  | _ => none

def productOperator : Token → Option Operator
  | .times => some .multiply
  | .divide => some .divide
  | _ => none

/-- A run of minus signs and an atom. Where the signs lead nowhere, an atom is looked for at the
first of them, which is none. -/
def factor (atom : List Lexeme → Parsed) : List Lexeme → Parsed
  | ⟨.minus, text⟩ :: ls =>
    match factor atom ls with
    | .found inner rest => .found (.negate inner) rest
    | .refused _ => atom (⟨.minus, text⟩ :: ls)
    | .broken text => .broken text
  | ls => atom ls

/-- How reading the arguments of a call ends. -/
inductive ParsedArguments
  | found (args : List Formula) (rest : List Lexeme)
  | refused
  | broken (text : List Char)

/-- Further arguments, each behind a comma, as long as there are any. -/
def arguments (item : List Lexeme → Parsed) :
    Nat → List Formula → List Lexeme → ParsedArguments
  | 0, args, ls => .found args ls
  | fuel + 1, args, ls =>
    match ls with
    | ⟨.comma, text⟩ :: behind =>
      match item behind with
      | .found a rest => arguments item fuel (args ++ [a]) rest
      | .refused _ => .found args (⟨.comma, text⟩ :: behind)
      | .broken text => .broken text
    | _ => .found args ls

/-- The arguments of a call and the parenthesis behind them. -/
def callArguments (item : List Lexeme → Parsed) (ls : List Lexeme) : ParsedArguments :=
  match item ls with
  | .refused _ => .refused
  | .broken text => .broken text
  | .found a rest =>
    match arguments item rest.length [a] rest with
    | .found args (⟨.rightParen, _⟩ :: behind) => .found args behind
    | .found _ _ => .refused
    | failure => failure

/-- A number, a call, a label or an expression in parentheses. What looks like a call and is none
is a label. -/
def atom (item : List Lexeme → Parsed) : List Lexeme → Parsed
  | ⟨.number x, _⟩ :: ls => .found (.number x) ls
  | ⟨.unfinished rest, _⟩ :: _ => .broken rest
  | ⟨.name s, _⟩ :: ls =>
    let asLabel := Parsed.found (.label (String.ofList s)) ls
    match Builtin.ofName? (String.ofList s), ls with
    | some f, ⟨.leftParen, _⟩ :: behind =>
      match callArguments item behind with
      | .found args rest => .found (.call f args) rest
      | .refused => asLabel
      | .broken text => .broken text
    | _, _ => asLabel
  | ⟨.leftParen, _⟩ :: ls =>
    match item ls with
    | .found inner (⟨.rightParen, _⟩ :: behind) => .found inner behind
    | .found _ rest => .refused (here rest)
    | failure => failure
  | ls => .refused (here ls)

/-- An expression that nests no deeper than `fuel` parentheses. -/
def expr : Nat → List Lexeme → Parsed
  | 0, ls => .refused (here ls)
  | fuel + 1, ls => level sumOperator (level productOperator (factor (atom (expr fuel)))) ls

/-! ## The nesting limit -/

/-- The deepest nesting that is accepted. -/
def maxNesting : Nat := 64

/-- What is counted while a text is looked through for nesting. -/
structure Nesting where
  parens : Nat
  minusRun : Nat
  deepest : Nat

/-- Takes one character into account. White space does not end a run of minus signs, everything
else but a minus sign does. -/
def Nesting.step (n : Nesting) (c : Char) : Nesting :=
  let parens := if c = '(' then n.parens + 1 else if c = ')' then n.parens - 1 else n.parens
  let minusRun := if c = '-' then n.minusRun + 1 else if isSpace c then n.minusRun else 0
  { parens, minusRun, deepest := max n.deepest (parens + minusRun) }

/-- The greatest number of open parentheses and minus signs in a run that precede a point of the
text. -/
def nestingDepth (s : List Char) : Nat :=
  (s.foldl Nesting.step ⟨0, 0, 0⟩).deepest

end Expression

/-- Why a text is no expression. -/
inductive ExpressionError
  | empty
  | tooDeep
  | unexpected (rest : String)
  | wrongArity (count : Nat)
deriving DecidableEq

namespace ExpressionError

def message : ExpressionError → String
  | empty => "empty expression"
  | tooDeep => "expression nested deeper than " ++ toString Expression.maxNesting ++ " levels"
  | unexpected rest => "unexpected input at '" ++ rest ++ "'"
  | wrongArity count => "abs() takes one argument, got " ++ toString count

end ExpressionError

/-- Reads the syntax tree of an expression. -/
def Formula.parse (s : List Char) : Except ExpressionError Formula :=
  if s.all isSpace then .error .empty
  else if Expression.maxNesting < Expression.nestingDepth s then .error .tooDeep
  else
    let ls := lexemes s
    match Expression.expr (ls.length + 1) ls with
    | .found e [] =>
      match e.wrongArity? with
      | some count => .error (.wrongArity count)
      | none => .ok e
    | .found _ rest => .error (.unexpected (String.ofList (Expression.here rest)))
    | .refused text | .broken text => .error (.unexpected (String.ofList text))

/-- An expression: its text and its syntax tree. -/
structure Expression where
  source : String
  formula : Formula

namespace Expression

def parse (s : String) : Except ExpressionError Expression :=
  (Formula.parse s.toList).map fun e => ⟨String.ofList (trim s.toList), e⟩

/-- The labels that the expression reads, in the order of its arguments. -/
def labels (e : Expression) : List String :=
  (e.formula.positional []).2

/-- The syntax tree with labels replaced by their places in the arguments. -/
def root (e : Expression) : Positional :=
  (e.formula.positional []).1

/-- The value where the labels have these values, in order. -/
def evaluate (e : Expression) (args : List Float) : Float :=
  e.root.evaluate args

end Expression

end Telemetry
