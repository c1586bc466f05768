import PlcMachine.Toml.Statement

/-! # TOML documents

The table that the statements of a document build up. A table is defined by one header at most, and
headers reach into arrays of tables at their last table.
-/

namespace PlcMachine.Toml

/-- A document that is being built: its table, and the table that the last header opened. -/
structure Document where
  root : Entries
  current : List String

namespace Document

/-- Changes the entries of the table that a path of headers leads to. -/
def descend (f : Entries → Option Entries) : List String → Entries → Option Entries
  | [], entries => f entries
  | part :: path, entries =>
    match entries.lookup part with
    | none => (descend f path []).map fun sub => entries ++ [(part, .table .implied sub)]
    | some (.table form sub) =>
      (descend f path sub).map fun sub => replace part (.table form sub) entries
    | some (.tables last earlier) =>
      (descend f path last).map fun last => replace part (.tables last earlier) entries
    | some (.value _) => none

def define (key : String) (entries : Entries) : Option Entries :=
  match entries.lookup key with
  | none => some (entries ++ [(key, .table .defined [])])
  | some (.table .implied sub) => some (replace key (.table .defined sub) entries)
  | some _ => none

def extend (key : String) (entries : Entries) : Option Entries :=
  match entries.lookup key with
  | none => some (entries ++ [(key, .tables [] [])])
  | some (.tables last earlier) => some (replace key (.tables [] (last :: earlier)) entries)
  | some _ => none

def step (d : Document) : Statement → Option Document
  | .assign path key v => do
    return { d with root := ← descend (assign key v path) d.current d.root }
  | .table path key => do
    return { root := ← descend (define key) path d.root, current := path ++ [key] }
  | .arrayTable path key => do
    return { root := ← descend (extend key) path d.root, current := path ++ [key] }

end Document

def parse (text : String) : Option (List (String × Value)) := do
  let d ← (← statements text).foldlM Document.step ⟨[], []⟩
  return toValues d.root

end PlcMachine.Toml
