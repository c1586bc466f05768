import PlcMachine.Toml.Plain

/-! # TOML statements

A document is a sequence of statements: a key with its value, the header of a table, or the header of
a further table of an array. Values nest at most 79 deep, and keys have fewer than 80 parts. Within
an inline table, dotted keys build tables; elsewhere that is left to the document.
-/

namespace PlcMachine.Toml

open Scan

/-- How a table within a document came to be. -/
inductive TableForm where
  /-- By a header, which makes it complete. -/
  | defined
  /-- On the way to a table that a header names. -/
  | implied
  /-- On the way to the last part of a dotted key. -/
  | dotted
deriving DecidableEq, Repr

inductive Item where
  | value (v : Value)
  | table (form : TableForm) (entries : List (String × Item))
  /-- An array of tables, the last one first. -/
  | tables (last : List (String × Item)) (earlier : List (List (String × Item)))

abbrev Entries := List (String × Item)

mutual

def Item.toValue : Item → Value
  | .value v => v
  | .table _ entries => .table (toValues entries)
  | .tables last earlier => .array (toTables earlier ++ [.table (toValues last)])

def toValues : List (String × Item) → List (String × Value)
  | [] => []
  | (key, item) :: rest => (key, item.toValue) :: toValues rest

def toTables : List (List (String × Item)) → List Value
  | [] => []
  | entries :: earlier => toTables earlier ++ [.table (toValues entries)]

end

def replace (key : String) (item : Item) (entries : Entries) : Entries :=
  entries.map fun e => if e.1 = key then (key, item) else e

/-- Puts a value under a dotted key. No part on the way may be complete, and the table that receives
the value must be one that dotted keys have built. -/
def assign (key : String) (v : Value) : List String → Entries → Option Entries
  | [], entries => if (entries.lookup key).isSome then none else some (entries ++ [(key, .value v)])
  | part :: path, entries =>
    match entries.lookup part with
    | none => (assign key v path []).map fun sub => entries ++ [(part, .table .dotted sub)]
    | some (.table form sub) =>
      if form = .defined ∨ (form = .implied ∧ path = []) then none
      else (assign key v path sub).map fun sub => replace part (.table form sub) entries
    | some (.tables last earlier) =>
      if path = [] then none
      else (assign key v path last).map fun last => replace part (.tables last earlier) entries
    | some (.value _) => none

inductive Statement where
  | assign (path : List String) (key : String) (value : Value)
  | table (path : List String) (key : String)
  | arrayTable (path : List String) (key : String)

def isBare (c : Char) : Bool := c.isAlphanum || c == '-' || c == '_'

def keyPart : Scan String := (String.ofList <$> takeWhile1 isBare) <|> basicString <|> literalString

def key : Scan (List String × String) := do
  let parts ← sepBy1 (blanks *> keyPart <* blanks) (char '.')
  match parts.getLast? with
  | some last => if parts.length < 80 then return (parts.dropLast, last) else failure
  | none => failure

def keyValue (value : Scan Value) : Scan ((List String × String) × Value) := do
  let k ← key
  char '='
  blanks
  return (k, ← value)

def array (value : Scan Value) : Scan Value := do
  char '['
  let items ← sepBy (gap *> value <* gap) (char ',')
  if items ≠ [] then
    let _ ← Scan.optional (char ',')
  gap
  char ']'
  return .array items

def inlineTable (value : Scan Value) : Scan Value := do
  char '{'
  blanks
  let pairs ← sepBy (keyValue value <* blanks) (char ',')
  char '}'
  match pairs.foldlM (fun entries ((path, k), v) => assign k v path entries) [] with
  | some entries => return .table (toValues entries)
  | none => failure

def value : (depth : Nat) → Scan Value
  | 0 => (.string <$> string) <|> plain
  | depth + 1 =>
    (.string <$> string) <|> plain <|> array (value depth) <|> inlineTable (value depth)

def statement : Scan Statement :=
  (do
    chars ['[', '[']
    let (path, k) ← key
    chars [']', ']']
    lineRest
    return .arrayTable path k) <|>
  (do
    char '['
    let (path, k) ← key
    char ']'
    lineRest
    return .table path k) <|>
  (do
    let ((path, k), v) ← keyValue (value 79)
    lineRest
    return .assign path k v)

def line : Scan (Option Statement) := do
  blanks
  (some <$> statement) <|> ((fun _ => none) <$> lineRest)

/-- The statements of a document, at the start of which a byte order mark is skipped. -/
def statements (text : String) : Option (List Statement) :=
  let cs := text.toList
  let cs := if cs.head? = some '\uFEFF' then cs.tail else cs
  (whole (many line) cs).map (·.filterMap id)

end PlcMachine.Toml
