import Telemetry.Text

/-!
# Documents of keys and values

The values of a TOML document, and the tables that its headers and dotted keys define while it is
read. A header names a table once; a table that was only passed through on the way to another one
may still be named. Dotted keys make tables of their own kind, which no header may name and which
take no keys from elsewhere.
-/

namespace Telemetry

/-- A value of a document. -/
inductive Toml
  | string (s : String)
  | integer (n : Int)
  | float (x : Float)
  | bool (b : Bool)
  /-- A date, a time, or both, as it is written. -/
  | moment (text : String)
  | array (items : List Toml)
  | table (fields : List (String × Toml))

/-- A character of a key without quotes. -/
def Toml.isBare (c : Char) : Bool :=
  c.isAlphanum || c = '-' || c = '_'

/-- What a key of a document stands for while the document is read. -/
inductive TomlNode
  | value (v : Toml)
  /-- A table. `passed`: no header has named it yet. `dotted`: it was made by dotted keys. -/
  | table (passed dotted : Bool) (entries : List (String × TomlNode))
  /-- An array of tables, of which the last one is open. -/
  | tables (earlier : List (List (String × TomlNode))) (last : List (String × TomlNode))

namespace TomlNode

/-- The keys of a table with what they stand for. -/
abbrev Entries := List (String × TomlNode)

/-- Puts a node under a key, in the key's place if it has one. -/
def put (key : String) (node : TomlNode) : Entries → Entries
  | [] => [(key, node)]
  | (k, n) :: rest => if k = key then (k, node) :: rest else (k, n) :: put key node rest

/-- Changes the table at the end of a path, whose `dotted` flag is handed to the change. Tables
that the path lacks are made on the way. A dotted path may only pass through tables that no header
has named. -/
def change (dotted : Bool) (f : Bool → Entries → Option Entries) :
    List String → Bool → Entries → Option Entries
  | [], isDotted, es => f isDotted es
  | key :: path, _, es =>
    match es.lookup key with
    | none => do
      let inner ← change dotted f path dotted []
      return put key (.table true dotted inner) es
    | some (.value _) => none
    | some (.tables earlier last) => do
      let last ← change dotted f path false last
      return put key (.tables earlier last) es
    | some (.table passed isDotted inner) =>
      if dotted && !passed then none
      else do
        let inner ← change dotted f path isDotted inner
        return put key (.table passed isDotted inner) es

/-- Gives a value to a new key at the end of a dotted path. -/
def assign (path : List String) (key : String) (v : Toml) (es : Entries) : Option Entries :=
  change true
    (fun isDotted es =>
      if isDotted == path.isEmpty || (es.lookup key).isSome then none
      else some (put key (.value v) es))
    path false es

/-- Opens the table that a header names. -/
def openTable (path : List String) (key : String) (es : Entries) : Option Entries :=
  change false
    (fun _ es =>
      match es.lookup key with
      | none => some (put key (.table false false []) es)
      | some (.table true false inner) => some (put key (.table false false inner) es)
      | some _ => none)
    path false es

/-- Opens one more table of the array that a header names. -/
def openItem (path : List String) (key : String) (es : Entries) : Option Entries :=
  change false
    (fun _ es =>
      match es.lookup key with
      | none => some (put key (.tables [] []) es)
      | some (.tables earlier last) => some (put key (.tables (earlier ++ [last]) []) es)
      | some _ => none)
    path false es

mutual

/-- The value of a node when the document is read to its end. -/
def toToml : TomlNode → Toml
  | value v => v
  | table _ _ entries => .table (fieldsToToml entries)
  | tables earlier last => .array (tablesToToml earlier ++ [.table (fieldsToToml last)])

def fieldsToToml : List (String × TomlNode) → List (String × Toml)
  | [] => []
  | (k, n) :: rest => (k, n.toToml) :: fieldsToToml rest

def tablesToToml : List (List (String × TomlNode)) → List Toml
  | [] => []
  | es :: rest => .table (fieldsToToml es) :: tablesToToml rest

end

end TomlNode

end Telemetry
