import Telemetry.Toml.Basic
import Telemetry.Decimal.Text

/-!
# Writing documents

Strings are written in the plainest of four kinds of quotes that can hold them, and arrays of more
than one item on a line for each. Tables, and arrays of nothing but tables, become blocks below
headers, with an empty line between them; all other pairs stand in the block of their table.
-/

namespace Telemetry.Toml

/-- What decides on the quotes of a string. -/
structure StringTraits where
  /-- The longest run of single quotes. -/
  singles : Nat
  /-- The longest run of double quotes. -/
  doubles : Nat
  backslash : Bool
  newline : Bool
  /-- Whether there is a control character other than tab and line feed. -/
  control : Bool

/-- The longest run of a character. -/
def longestRun (c : Char) (s : List Char) : Nat :=
  (s.foldl
    (fun (run, longest) d => if d = c then (run + 1, max longest (run + 1)) else (0, longest))
    (0, 0)).2

def isControl (c : Char) : Bool :=
  (c.toNat < 0x20 && c ≠ '\t' && c ≠ '\n') || c.toNat = 0x7F

def StringTraits.of (s : List Char) : StringTraits where
  singles := longestRun '\'' s
  doubles := longestRun '"' s
  backslash := s.contains '\\'
  newline := s.contains '\n'
  control := s.any isControl

/-- The kinds of quotes. -/
inductive Quotes
  | basic
  | literal
  | basicLines
  | literalLines
deriving DecidableEq

/-- The first kind that holds the string without escapes, or else the one that can escape. -/
def Quotes.choose (t : StringTraits) : Quotes :=
  if !t.control && !t.backslash && t.doubles = 0 && !t.newline then basic
  else if !t.control && t.singles = 0 && !t.newline then literal
  else if !t.control && !t.backslash && t.doubles ≤ 2 then basicLines
  else if !t.control && t.singles ≤ 2 then literalLines
  else if t.newline then basicLines
  else basic

def hexUpper (n : Nat) : Char :=
  if n < 10 then Char.ofNat ('0'.toNat + n) else Char.ofNat ('A'.toNat + n - 10)

/-- Writes the characters between double quotes. Over several lines, line ends and as many as two
double quotes in a row stand as they are; `run` counts the double quotes just written. -/
def escapeFrom (lines : Bool) : Nat → List Char → List Char
  | _, [] => []
  | run, c :: cs =>
    if c = '"' then
      if lines && run < 2 then '"' :: escapeFrom lines (run + 1) cs
      else '\\' :: '"' :: escapeFrom lines 0 cs
    else if c = '\n' && lines then '\n' :: escapeFrom lines 0 cs
    else
      let written :=
        if c = '\x08' then ['\\', 'b']
        else if c = '\t' then ['\\', 't']
        else if c = '\n' then ['\\', 'n']
        else if c = '\x0c' then ['\\', 'f']
        else if c = '\r' then ['\\', 'r']
        else if c = '\\' then ['\\', '\\']
        else if c.toNat < 0x20 || c.toNat = 0x7F then
          ['\\', 'u', '0', '0', hexUpper (c.toNat / 16), hexUpper (c.toNat % 16)]
        else [c]
      written ++ escapeFrom lines 0 cs

/-- A string in quotes. Over several lines it begins on a line of its own. -/
def quote (s : String) : String :=
  let cs := s.toList
  let t := StringTraits.of cs
  let start := if t.newline then "\n" else ""
  match Quotes.choose t with
  | .basic => "\"" ++ String.ofList (escapeFrom false 0 cs) ++ "\""
  | .literal => "'" ++ s ++ "'"
  | .basicLines => "\"\"\"" ++ start ++ String.ofList (escapeFrom true 0 cs) ++ "\"\"\""
  | .literalLines => "'''" ++ start ++ s ++ "'''"

/-- A number; the sign of what is no number is left out. -/
def floatToml (x : Float) : String :=
  floatText .document x

/-- A key, in quotes if it has to be. -/
def keyText (key : String) : String :=
  if !key.isEmpty && key.toList.all isBare then key
  else "\"" ++ String.ofList (escapeFrom false 0 key.toList) ++ "\""

mutual

/-- A value behind its key. -/
def valueText : Toml → String
  | string s => quote s
  | integer n => toString n
  | float x => floatToml x
  | bool b => if b then "true" else "false"
  | moment t => t
  | array [] => "[]"
  | array [item] => "[" ++ item.valueText ++ "]"
  | array items => "[\n" ++ itemLines items ++ "]"
  | table [] => "\x7b\x7d"
  | table ((key, v) :: fields) =>
    "\x7b " ++ keyText key ++ " = " ++ v.valueText ++ fieldsText fields ++ " \x7d"

/-- Items, each on a line of its own. -/
def itemLines : List Toml → String
  | [] => ""
  | item :: items => "    " ++ item.valueText ++ ",\n" ++ itemLines items

/-- Pairs behind the first one of a table in braces. -/
def fieldsText : List (String × Toml) → String
  | [] => ""
  | (key, v) :: fields => ", " ++ keyText key ++ " = " ++ v.valueText ++ fieldsText fields

end

def isTable : Toml → Bool
  | table _ => true
  | _ => false

/-- Whether a value is written as blocks of its own. -/
def isBlock : Toml → Bool
  | table _ => true
  | array items => !items.isEmpty && items.all isTable
  | _ => false

/-- The pairs of a table that stand in its own block, each on a line. -/
def lines (fields : List (String × Toml)) : String :=
  String.join ((fields.filter (! ·.2.isBlock)).map fun (key, v) =>
    keyText key ++ " = " ++ v.valueText ++ "\n")

/-- The block of a table's own pairs below its header. A table that only holds other tables has
none, unless it is an item of an array. -/
def ownBlock (isItem : Bool) (path : List String) (fields : List (String × Toml)) : List String :=
  let name := ".".intercalate (path.map keyText)
  if isItem then ["[[" ++ name ++ "]]\n" ++ lines fields]
  else if !fields.isEmpty && fields.all (·.2.isBlock) then []
  else ["[" ++ name ++ "]\n" ++ lines fields]

mutual

/-- The blocks of a value under a path. -/
def valueBlocks (path : List String) : Toml → List String
  | table fields => ownBlock false path fields ++ fieldBlocks path fields
  | array items => if isBlock (.array items) then itemBlocks path items else []
  | _ => []

/-- The blocks of tables that are items of an array. -/
def itemBlocks (path : List String) : List Toml → List String
  | [] => []
  | table fields :: items => ownBlock true path fields ++ fieldBlocks path fields
      ++ itemBlocks path items
  | _ :: items => itemBlocks path items

/-- The blocks of the tables in a table. -/
def fieldBlocks (path : List String) : List (String × Toml) → List String
  | [] => []
  | (key, v) :: fields => valueBlocks (path ++ [key]) v ++ fieldBlocks path fields

end

/-- The document of these fields. -/
def document (fields : List (String × Toml)) : String :=
  let own := if fields.all (·.2.isBlock) then [] else [lines fields]
  "\n".intercalate (own ++ fieldBlocks [] fields)

end Telemetry.Toml
