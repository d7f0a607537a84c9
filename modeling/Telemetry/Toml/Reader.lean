import Telemetry.Toml.Basic
import Telemetry.Decimal.Reader

/-!
# Reading documents

The texts of TOML 1.0. Every reader takes the text at its point and answers with what it read and
the text behind it, or with nothing if the text is not well formed there.
-/

namespace Telemetry.Toml

/-- A reader of one part of a text. -/
abbrev Reader (α : Type) := List Char → Option (α × List Char)

/-! ## Blanks, comments and line ends -/

def isWhite (c : Char) : Bool :=
  c = ' ' || c = '\t'

def skipWhite (s : List Char) : List Char :=
  s.dropWhile isWhite

/-- A character that may stand in comments and strings: a tab, or anything but a control
character. -/
def isPlain (c : Char) : Bool :=
  c = '\t' || (0x20 ≤ c.toNat && c.toNat ≠ 0x7F)

/-- A line end: a line feed, alone or behind a carriage return. -/
def readNewline : List Char → Option (List Char)
  | '\n' :: rest => some rest
  | '\r' :: '\n' :: rest => some rest
  | _ => none

/-- The rest of a line: white space and a comment. -/
def skipComment (s : List Char) : List Char :=
  match skipWhite s with
  | '#' :: rest => rest.dropWhile isPlain
  | rest => rest

/-- The rest of a line and its end, which the end of the text is as well. -/
def readLineEnd (s : List Char) : Option (List Char) :=
  match skipComment s with
  | [] => some []
  | rest => readNewline rest

/-- Skips white space, comments and line ends between the items of an array. -/
def skipLines : Nat → List Char → List Char
  | 0, s => s
  | fuel + 1, s =>
    match readNewline (skipComment s) with
    | some rest => skipLines fuel rest
    | none => skipWhite s

/-! ## Strings -/

/-- The character that hexadecimal digits name. -/
def codePoint? (digits : List Char) : Option Char := do
  let n ← hexValue? digits
  if n < 0xD800 || (0xDFFF < n && n < 0x110000) then return Char.ofNat n else none

/-- Reads an escape behind its backslash. -/
def readEscape : Reader Char
  | 'b' :: rest => some ('\x08', rest)
  | 't' :: rest => some ('\t', rest)
  | 'n' :: rest => some ('\n', rest)
  | 'f' :: rest => some ('\x0c', rest)
  | 'r' :: rest => some ('\r', rest)
  | '"' :: rest => some ('"', rest)
  | '\\' :: rest => some ('\\', rest)
  | 'u' :: rest =>
    if rest.length < 4 then none else (codePoint? (rest.take 4)).map (·, rest.drop 4)
  | 'U' :: rest =>
    if rest.length < 8 then none else (codePoint? (rest.take 8)).map (·, rest.drop 8)
  | _ => none

/-- Puts characters before those that are read next. -/
def prepend (cs : List Char) (answer : Option (List Char × List Char)) :
    Option (List Char × List Char) :=
  answer.map fun (read, rest) => (cs ++ read, rest)

/-- Reads a string on one line behind its opening quote. -/
def readBasic : Nat → Reader (List Char)
  | 0, _ => none
  | fuel + 1, s =>
    match s with
    | '"' :: rest => some ([], rest)
    | '\\' :: rest => (readEscape rest).bind fun (c, rest) => prepend [c] (readBasic fuel rest)
    | c :: rest => if isPlain c then prepend [c] (readBasic fuel rest) else none
    | [] => none

/-- Reads a string without escapes on one line behind its opening quote. -/
def readLiteral (s : List Char) : Option (List Char × List Char) :=
  let body := s.takeWhile fun c => c ≠ '\'' && isPlain c
  match s.drop body.length with
  | '\'' :: rest => some (body, rest)
  | _ => none

/-- What a run of quotes within a string of several lines means: fewer than three belong to the
string; of more, the last three end it, and two at most stand before them. -/
def closeQuotes (quote : Char) (s : List Char) : Option (List Char × List Char) :=
  let count := (s.takeWhile (· = quote)).length
  if count < 3 then none
  else
    let kept := min (count - 3) 2
    some (List.replicate kept quote, s.drop (kept + 3))

/-- Skips white space over lines behind a backslash at the end of a line. -/
def skipFold : Nat → List Char → List Char
  | 0, s => s
  | fuel + 1, s =>
    match readNewline (skipWhite s) with
    | some rest => skipFold fuel rest
    | none => skipWhite s

/-- Reads the body of a string of several lines. Each line end counts as a line feed, and a
backslash at the end of a line joins it with what follows. -/
def readBasicLines : Nat → Reader (List Char)
  | 0, _ => none
  | fuel + 1, s =>
    match readNewline s with
    | some rest => prepend ['\n'] (readBasicLines fuel rest)
    | none =>
      match s with
      | '"' :: rest =>
        match closeQuotes '"' s with
        | some answer => some answer
        | none => prepend ['"'] (readBasicLines fuel rest)
      | '\\' :: rest =>
        match readNewline (skipWhite rest) with
        | some rest => readBasicLines fuel (skipFold rest.length rest)
        | none =>
          (readEscape rest).bind fun (c, rest) => prepend [c] (readBasicLines fuel rest)
      | c :: rest => if isPlain c then prepend [c] (readBasicLines fuel rest) else none
      | [] => none

/-- Reads the body of a string of several lines without escapes. -/
def readLiteralLines : Nat → Reader (List Char)
  | 0, _ => none
  | fuel + 1, s =>
    match readNewline s with
    | some rest => prepend ['\n'] (readLiteralLines fuel rest)
    | none =>
      match s with
      | '\'' :: rest =>
        match closeQuotes '\'' s with
        | some answer => some answer
        | none => prepend ['\''] (readLiteralLines fuel rest)
      | c :: rest => if isPlain c then prepend [c] (readLiteralLines fuel rest) else none
      | [] => none

/-- The text behind a line end that opens a string of several lines. -/
def dropFirstNewline (s : List Char) : List Char :=
  (readNewline s).getD s

/-- Reads a string of any kind. -/
def readString : Reader (List Char)
  | '"' :: '"' :: '"' :: rest => readBasicLines (rest.length + 1) (dropFirstNewline rest)
  | '"' :: rest => readBasic (rest.length + 1) rest
  | '\'' :: '\'' :: '\'' :: rest => readLiteralLines (rest.length + 1) (dropFirstNewline rest)
  | '\'' :: rest => readLiteral rest
  | _ => none

/-! ## Keys -/

/-- Reads one key: bare, or a string on one line. -/
def readKey (s : List Char) : Option (String × List Char) :=
  match s with
  | '"' :: rest => (readBasic (rest.length + 1) rest).map fun (k, r) => (String.ofList k, r)
  | '\'' :: rest => (readLiteral rest).map fun (k, r) => (String.ofList k, r)
  | _ =>
    let key := s.takeWhile isBare
    if key.isEmpty then none else some (String.ofList key, s.dropWhile isBare)

/-- Reads keys with points between them, and white space around each. -/
def readPath : Nat → Reader (List String)
  | 0, _ => none
  | fuel + 1, s => do
    let (key, rest) ← readKey (skipWhite s)
    match skipWhite rest with
    | '.' :: rest =>
      let (path, rest) ← readPath fuel rest
      return (key :: path, rest)
    | rest => return ([key], rest)

/-- How many keys a path may have, and how deep values may nest, less one. -/
def depthLimit : Nat := 80

/-- Reads a path and splits off its last key. -/
def readKeys (s : List Char) : Option ((List String × String) × List Char) := do
  let (path, rest) ← readPath (s.length + 1) s
  if depthLimit ≤ path.length then none
  else return ((path.dropLast, ← path.getLast?), rest)

/-! ## Numbers -/

/-- Digits of which single underscores may divide two. Answers with the digits alone. -/
def readDigits (isDigit : Char → Bool) : Reader (List Char)
  | [] => none
  | c :: rest =>
    if isDigit c then
      match rest with
      | '_' :: behind => (readDigits isDigit behind).map fun (ds, r) => (c :: ds, r)
      | d :: behind =>
        if isDigit d then (readDigits isDigit (d :: behind)).map fun (ds, r) => (c :: ds, r)
        else some ([c], d :: behind)
      | [] => some ([c], [])
    else none

/-- Digits that do not begin with a zero, or a zero alone. -/
def readDecimal : Reader (List Char)
  | '0' :: rest => some (['0'], rest)
  | s => readDigits Char.isDigit s

/-- The digits behind a point, if there is one. -/
def readFraction : Reader (Option (List Char))
  | '.' :: rest => (readDigits Char.isDigit rest).map fun (ds, r) => (some ds, r)
  | s => some (none, s)

/-- The exponent, if there is one. -/
def readExponent (s : List Char) : Option (Option Int × List Char) :=
  match s with
  | [] => some (none, [])
  | c :: rest =>
    if c = 'e' || c = 'E' then
      let (negative, rest) := DecimalLiteral.splitSign rest
      (readDigits Char.isDigit rest).map fun (ds, r) =>
        let n : Int := digitsValue ds
        (some (if negative then -n else n), r)
    else some (none, s)

/-- An integer that 64 bits hold. -/
def integer? (n : Int) : Option Toml :=
  if minTicks ≤ n ∧ n ≤ maxTicks then some (.integer n) else none

/-- An integer to the base 16, 8 or 2 behind its mark. -/
def readBased (base : Nat) (s : List Char) : Option (Toml × List Char) := do
  let isDigit := fun c => (hexDigit? c).any (· < base)
  let (digits, rest) ← readDigits isDigit s
  let n := digits.foldl (fun n c => base * n + (hexDigit? c).getD 0) 0
  return (← integer? n, rest)

/-- A decimal number; with a point or an exponent it is a floating point number, which may not be
too great. -/
def readDecimalNumber (negative : Bool) (s : List Char) : Option (Toml × List Char) := do
  let (whole, s) ← readDecimal s
  let (fraction, s) ← readFraction s
  let (exponent, s) ← readExponent s
  if fraction.isNone && exponent.isNone then
    let n : Int := digitsValue whole
    return (← integer? (if negative then -n else n), s)
  else
    let x := (DecimalLiteral.mk whole (fraction.getD []) (exponent.getD 0)).value
    if x.isInf && !negative then none
    else return (.float (if negative then -x else x), s)

/-- The words for numbers without digits. -/
def readWordNumber (negative : Bool) : Reader Toml
  | 'i' :: 'n' :: 'f' :: rest => some (.float (if negative then -infinity else infinity), rest)
  | 'n' :: 'a' :: 'n' :: rest =>
    let x := Float.ofBits 0x7FF8000000000000
    some (.float (if negative then -x else x), rest)
  | _ => none

/-- A number of any kind, from its sign on. -/
def readNumber : Reader Toml
  | '0' :: 'x' :: rest => readBased 16 rest
  | '0' :: 'o' :: rest => readBased 8 rest
  | '0' :: 'b' :: rest => readBased 2 rest
  | s =>
    let (negative, behind) := DecimalLiteral.splitSign s
    match readWordNumber negative behind with
    | some answer => some answer
    | none => readDecimalNumber negative behind

/-! ## Dates and times -/

/-- Exactly `count` digits that stand for a number within bounds. -/
def readField (count low high : Nat) (s : List Char) : Option (Nat × List Char) :=
  let digits := s.take count
  let n := digitsValue digits
  if digits.length = count && digits.all Char.isDigit && low ≤ n && n ≤ high then
    some (n, s.drop count)
  else none

def readMark (mark : Char) : List Char → Option (List Char)
  | c :: rest => if c = mark then some rest else none
  | [] => none

def daysInMonth (year month : Nat) : Nat :=
  if month = 2 then
    (if year % 4 = 0 && (year % 100 ≠ 0 || year % 400 = 0) then 29 else 28)
  else if month ∈ [4, 6, 9, 11] then 30
  else 31

def readDate (s : List Char) : Option (List Char) := do
  let (year, s) ← readField 4 0 9999 s
  let (month, s) ← readField 2 1 12 (← readMark '-' s)
  let (_, s) ← readField 2 1 (daysInMonth year month) (← readMark '-' s)
  return s

def readTime (s : List Char) : Option (List Char) := do
  let (_, s) ← readField 2 0 23 s
  let (_, s) ← readField 2 0 59 (← readMark ':' s)
  let (_, s) ← readField 2 0 60 (← readMark ':' s)
  match s with
  | '.' :: rest =>
    if (rest.takeWhile Char.isDigit).isEmpty then none else return rest.dropWhile Char.isDigit
  | _ => return s

/-- The offset from universal time, if one is given. -/
def readOffset (s : List Char) : Option (List Char) :=
  match s with
  | 'Z' :: rest | 'z' :: rest => some rest
  | '+' :: rest | '-' :: rest => do
    let (_, s) ← readField 2 0 23 rest
    let (_, s) ← readField 2 0 59 (← readMark ':' s)
    return s
  | _ => some s

/-- A date, a time, or a date with a time behind it. -/
def readMoment (s : List Char) : Option (List Char) :=
  match readDate s with
  | none => readTime s
  | some behind =>
    match behind with
    | 'T' :: rest | 't' :: rest | ' ' :: rest =>
      match readTime rest with
      | some behindTime => readOffset behindTime
      | none => some behind
    | _ => some behind

/-! ## Values -/

mutual

/-- Reads a value that nests no deeper than `depth`. -/
def readValue : Nat → Nat → Reader Toml
  | 0, _, _ => none
  | fuel + 1, depth, s =>
    match s with
    | '"' :: _ | '\'' :: _ =>
      (readString s).map fun (cs, rest) => (.string (String.ofList cs), rest)
    | '[' :: rest =>
      if depth ≤ 1 then none
      else (readItems fuel (depth - 1) (skipLines rest.length rest)).map
        fun (items, rest) => (.array items, rest)
    | '{' :: rest =>
      if depth ≤ 1 then none
      else
        match skipWhite rest with
        | '}' :: rest => some (.table [], rest)
        | rest => (readPairs fuel (depth - 1) [] rest).map
          fun (es, rest) => (.table (TomlNode.fieldsToToml es), rest)
    | 't' :: 'r' :: 'u' :: 'e' :: rest => some (.bool true, rest)
    | 'f' :: 'a' :: 'l' :: 's' :: 'e' :: rest => some (.bool false, rest)
    | s =>
      match readMoment s with
      | some rest => some (.moment (String.ofList (s.take (s.length - rest.length))), rest)
      | none => readNumber s

/-- Reads the items of an array and its closing bracket. A comma may follow the last item. -/
def readItems : Nat → Nat → Reader (List Toml)
  | 0, _, _ => none
  | fuel + 1, depth, s =>
    match s with
    | ']' :: rest => some ([], rest)
    | _ => do
      let (item, rest) ← readValue fuel depth s
      match skipLines rest.length rest with
      | ',' :: rest =>
        let (items, rest) ← readItems fuel depth (skipLines rest.length rest)
        return (item :: items, rest)
      | ']' :: rest => return ([item], rest)
      | _ => none

/-- Reads the pairs of a table in braces and its closing brace. -/
def readPairs : Nat → Nat → TomlNode.Entries → Reader TomlNode.Entries
  | 0, _, _, _ => none
  | fuel + 1, depth, es, s => do
    let ((path, key), rest) ← readKeys s
    let (v, rest) ← readValue fuel depth (skipWhite (← readMark '=' rest))
    let es ← TomlNode.assign path key v es
    match skipWhite rest with
    | ',' :: rest => readPairs fuel depth es rest
    | '}' :: rest => return (es, rest)
    | _ => none

end

/-! ## Documents -/

/-- The tables of a document so far, and the path to the one that is open. -/
structure Draft where
  entries : TomlNode.Entries := []
  current : List String := []

/-- Reads a header or a pair with the end of its line. -/
def readStatement (d : Draft) (s : List Char) : Option (Draft × List Char) :=
  match s with
  | '[' :: '[' :: rest => do
    let ((path, key), rest) ← readKeys rest
    let rest ← readLineEnd (← readMark ']' (← readMark ']' rest))
    return (⟨← TomlNode.openItem path key d.entries, path ++ [key]⟩, rest)
  | '[' :: rest => do
    let ((path, key), rest) ← readKeys rest
    let rest ← readLineEnd (← readMark ']' rest)
    return (⟨← TomlNode.openTable path key d.entries, path ++ [key]⟩, rest)
  | _ => do
    let ((path, key), rest) ← readKeys s
    let rest := skipWhite (← readMark '=' rest)
    let (v, rest) ← readValue (rest.length + 1) depthLimit rest
    let rest ← readLineEnd rest
    let entries ← TomlNode.change false (fun _ es => TomlNode.assign path key v es) d.current
      false d.entries
    return ({ d with entries }, rest)

/-- Reads the lines of a document. -/
def readDocument : Nat → Draft → List Char → Option TomlNode.Entries
  | 0, _, _ => none
  | fuel + 1, d, s =>
    match skipWhite s with
    | [] => some d.entries
    | '#' :: rest => (readLineEnd ('#' :: rest)).bind (readDocument fuel d)
    | rest =>
      match readNewline rest with
      | some rest => readDocument fuel d rest
      | none => (readStatement d rest).bind fun (d, rest) => readDocument fuel d rest

/-- Reads a document: the fields of its outermost table. A byte order mark at its start is
skipped. -/
def parse? (text : String) : Option (List (String × Toml)) :=
  let s := match text.toList with
    | '\uFEFF' :: rest => rest
    | rest => rest
  (readDocument (s.length + 1) {} s).map TomlNode.fieldsToToml

end Telemetry.Toml
