import Telemetry.Json.Number

/-!
# JSON

The syntax of JSON texts, read and written. Numbers and strings are kept as they are written, since
a text may hold some that have no value, such as half of a surrogate pair, where nobody asks for
them. Texts are written without blanks.
-/

namespace Telemetry

/-- A part of a string: a character, or a code unit written as an escape. -/
inductive StringPart
  | char (c : Char)
  | unit (n : Nat)

/-- A JSON text taken apart. -/
inductive Json
  | null
  | bool (b : Bool)
  | number (l : NumberLiteral)
  | string (parts : List StringPart)
  | array (items : List Json)
  | object (fields : List (List StringPart × Json))

namespace Json

/-! ## Strings -/

/-- The character of a short escape. -/
def escaped? : Char → Option Char
  | '"' => some '"'
  | '\\' => some '\\'
  | '/' => some '/'
  | 'b' => some '\x08'
  | 'f' => some '\x0c'
  | 'n' => some '\n'
  | 'r' => some '\r'
  | 't' => some '\t'
  | _ => none

/-- Reads a string behind its opening quote. -/
def readString : List Char → Option (List StringPart × List Char)
  | [] => none
  | '"' :: rest => some ([], rest)
  | '\\' :: 'u' :: a :: b :: c :: d :: rest => do
    let n ← hexValue? [a, b, c, d]
    let (parts, rest) ← readString rest
    return (.unit n :: parts, rest)
  | '\\' :: e :: rest => do
    let c ← escaped? e
    let (parts, rest) ← readString rest
    return (.char c :: parts, rest)
  | c :: rest =>
    if c.toNat < 0x20 then none
    else (readString rest).map fun (parts, rest) => (.char c :: parts, rest)

/-- The text of a string. A code unit of a surrogate pair has to stand with the other one. -/
def text? : List StringPart → Option (List Char)
  | [] => some []
  | .char c :: rest => (text? rest).map (c :: ·)
  | .unit n :: rest =>
    if n < 0xD800 || 0xDFFF < n then (text? rest).map (Char.ofNat n :: ·)
    else if n < 0xDC00 then
      match rest with
      | .unit m :: rest =>
        if 0xDC00 ≤ m && m ≤ 0xDFFF then
          let code := 0x10000 + (n - 0xD800) * 0x400 + (m - 0xDC00)
          (text? rest).map (Char.ofNat code :: ·)
        else none
      | _ => none
    else none

/-! ## Numbers -/

/-- The point and the digits behind it, if there are any. -/
def readFraction : List Char → Option (Option (List Char) × List Char)
  | '.' :: rest =>
    let digits := rest.takeWhile Char.isDigit
    if digits.isEmpty then none else some (some digits, rest.dropWhile Char.isDigit)
  | rest => some (none, rest)

/-- The exponent, if there is one. -/
def readExponent : List Char → Option (Option (Bool × List Char) × List Char)
  | [] => some (none, [])
  | c :: rest =>
    if c = 'e' || c = 'E' then
      let (negative, rest) := DecimalLiteral.splitSign rest
      let digits := rest.takeWhile Char.isDigit
      if digits.isEmpty then none
      else some (some (negative, digits), rest.dropWhile Char.isDigit)
    else some (none, c :: rest)

/-- Reads a number. A zero at its start stands alone before the point. -/
def readNumber (s : List Char) : Option (NumberLiteral × List Char) := do
  let (negative, s) := match s with
    | '-' :: rest => (true, rest)
    | rest => (false, rest)
  let whole := s.takeWhile Char.isDigit
  if whole.isEmpty || (whole.head? = some '0' && 1 < whole.length) then none
  else do
    let (fraction, s) ← readFraction (s.dropWhile Char.isDigit)
    let (exponent, s) ← readExponent s
    return (⟨negative, whole, fraction, exponent⟩, s)

/-! ## Texts -/

def skipBlanks (s : List Char) : List Char :=
  s.dropWhile isBlank

/-- The value of a word. -/
def readWord (word : List Char) (value : Json) (s : List Char) : Option (Json × List Char) :=
  if word.isPrefixOf s then some (value, s.drop word.length) else none

mutual

/-- Reads one value that nests no deeper than `fuel`. -/
def readValue : Nat → List Char → Option (Json × List Char)
  | 0, _ => none
  | fuel + 1, s =>
    match skipBlanks s with
    | [] => none
    | 'n' :: rest => readWord ['u', 'l', 'l'] .null rest
    | 't' :: rest => readWord ['r', 'u', 'e'] (.bool true) rest
    | 'f' :: rest => readWord ['a', 'l', 's', 'e'] (.bool false) rest
    | '"' :: rest => (readString rest).map fun (parts, rest) => (.string parts, rest)
    | '[' :: rest =>
      match skipBlanks rest with
      | ']' :: rest => some (.array [], rest)
      | rest => (readItems fuel rest).map fun (items, rest) => (.array items, rest)
    | '{' :: rest =>
      match skipBlanks rest with
      | '}' :: rest => some (.object [], rest)
      | rest => (readFields fuel rest).map fun (fields, rest) => (.object fields, rest)
    | rest => (readNumber rest).map fun (l, rest) => (.number l, rest)

/-- Reads the items of an array up to its closing bracket. -/
def readItems : Nat → List Char → Option (List Json × List Char)
  | 0, _ => none
  | fuel + 1, s => do
    let (item, rest) ← readValue fuel s
    match skipBlanks rest with
    | ']' :: rest => return ([item], rest)
    | ',' :: rest =>
      let (items, rest) ← readItems fuel rest
      return (item :: items, rest)
    | _ => none

/-- Reads the fields of an object up to its closing brace. -/
def readFields : Nat → List Char → Option (List (List StringPart × Json) × List Char)
  | 0, _ => none
  | fuel + 1, s =>
    match skipBlanks s with
    | '"' :: rest => do
      let (key, rest) ← readString rest
      match skipBlanks rest with
      | ':' :: rest =>
        let (value, rest) ← readValue fuel rest
        match skipBlanks rest with
        | '}' :: rest => return ([(key, value)], rest)
        | ',' :: rest =>
          let (fields, rest) ← readFields fuel rest
          return ((key, value) :: fields, rest)
        | _ => none
      | _ => none
    | _ => none

end

/-- Reads a text that holds one value and nothing else. -/
def parse? (s : List Char) : Option Json :=
  match readValue (s.length + 1) s with
  | some (value, rest) => if (skipBlanks rest).isEmpty then some value else none
  | none => none

/-! ## Building -/

def ofString (s : String) : Json :=
  string (s.toList.map .char)

def ofInt (n : Int) : Json :=
  number (.ofInt n)

/-- A number, or `null` for what has no notation. -/
def ofFloat (x : Float) : Json :=
  match NumberLiteral.ofFloat? x with
  | some l => number l
  | none => null

/-- An object of these fields, in order. -/
def ofFields (fields : List (String × Json)) : Json :=
  object (fields.map fun (k, v) => (k.toList.map .char, v))

/-! ## Writing -/

/-- A lower-case hexadecimal digit. -/
def hexChar (n : Nat) : Char :=
  if n < 10 then Char.ofNat ('0'.toNat + n) else Char.ofNat ('a'.toNat + n - 10)

/-- A code unit as an escape. -/
def escapeUnit (n : Nat) : List Char :=
  ['\\', 'u', hexChar (n / 4096 % 16), hexChar (n / 256 % 16), hexChar (n / 16 % 16),
    hexChar (n % 16)]

/-- A character within quotes. -/
def escapeChar (c : Char) : List Char :=
  if c = '"' then ['\\', '"']
  else if c = '\\' then ['\\', '\\']
  else if c = '\x08' then ['\\', 'b']
  else if c = '\x0c' then ['\\', 'f']
  else if c = '\n' then ['\\', 'n']
  else if c = '\r' then ['\\', 'r']
  else if c = '\t' then ['\\', 't']
  else if c.toNat < 0x20 then escapeUnit c.toNat
  else [c]

def StringPart.chars : StringPart → List Char
  | .char c => escapeChar c
  | .unit n => escapeUnit n

/-- A string in quotes. -/
def quoted (parts : List StringPart) : List Char :=
  '"' :: parts.flatMap StringPart.chars ++ ['"']

mutual

/-- The text of a value, without blanks. -/
def chars : Json → List Char
  | null => ['n', 'u', 'l', 'l']
  | bool true => ['t', 'r', 'u', 'e']
  | bool false => ['f', 'a', 'l', 's', 'e']
  | number l => l.chars
  | string parts => quoted parts
  | array [] => ['[', ']']
  | array (item :: items) => '[' :: item.chars ++ itemChars items
  | object [] => ['{', '}']
  | object ((key, value) :: fields) =>
    '{' :: quoted key ++ ':' :: value.chars ++ fieldChars fields

/-- The items of an array behind its first one, and its closing bracket. -/
def itemChars : List Json → List Char
  | [] => [']']
  | item :: items => ',' :: item.chars ++ itemChars items

/-- The fields of an object behind its first one, and its closing brace. -/
def fieldChars : List (List StringPart × Json) → List Char
  | [] => ['}']
  | (key, value) :: fields => ',' :: quoted key ++ ':' :: value.chars ++ fieldChars fields

end

def text (j : Json) : String :=
  String.ofList j.chars

end Json

end Telemetry
