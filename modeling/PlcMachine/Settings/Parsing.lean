import PlcMachine.Settings.File
import PlcMachine.Text.Number
import PlcMachine.Toml.Document

/-! # Settings in TOML

The parsers for settings files that are written in TOML. Unknown keys are refused. A table may also be
written as an array of all its values in order.
-/

namespace PlcMachine

/-- The values of a table under known keys. Other keys are refused, an array has to hold a value for
each key, and what it holds beyond them is not looked at. -/
def fields (keys : List String) : Toml.Value → Option (List (Option Toml.Value))
  | .table entries =>
    if entries.all (fun e => keys.contains e.1) then some (keys.map fun k => entries.lookup k) else none
  | .array items =>
    if keys.length ≤ items.length then some ((items.take keys.length).map some) else none
  | _ => none

def natural (bound : Nat) : Toml.Value → Option Nat
  | .integer n => if 0 ≤ n ∧ n < bound then some n.toNat else none
  | _ => none

def dimension32 (v : Toml.Value) : Option UInt32 := (natural UInt32.size v).map .ofNat

def dimension64 (v : Toml.Value) : Option UInt64 := (natural UInt64.size v).map .ofNat

def PartialSpecs.ofToml (v : Toml.Value) : Option PartialSpecs := do
  let keys := ["local_bytes", "max_call_depth", "flag_bytes", "input_bytes", "output_bytes", "timers",
    "counters"]
  match ← fields keys v with
  | [localBytes, maxCallDepth, flagBytes, inputBytes, outputBytes, timers, counters] =>
    return {
      localBytes := ← localBytes.mapM dimension32
      maxCallDepth := ← maxCallDepth.mapM dimension64
      flagBytes := ← flagBytes.mapM dimension32
      inputBytes := ← inputBytes.mapM dimension32
      outputBytes := ← outputBytes.mapM dimension32
      timers := ← timers.mapM dimension32
      counters := ← counters.mapM dimension32 }
  | _ => none

namespace ProjectSettings

def nameOfToml (v : Toml.Value) : Option String := do
  match ← fields ["name"] v with
  | [some (.string name)] => return name
  | _ => none

def ofToml (v : Toml.Value) : Option ProjectSettings := do
  match ← fields ["project", "cpu"] v with
  | [project, cpu] =>
    return { name := ← project.mapM nameOfToml, cpu := ← cpu.mapM PartialSpecs.ofToml }
  | _ => none

end ProjectSettings

def UserSettings.ofToml (v : Toml.Value) : Option UserSettings := do
  match ← fields ["defaults"] v with
  | [defaults] => return { defaults := ← defaults.mapM PartialSpecs.ofToml }
  | _ => none

namespace Parsers

def ofDocument {α : Type} (ofToml : Toml.Value → Option α) (text : String) : Except String α :=
  match (Toml.parse text).bind fun entries => ofToml (.table entries) with
  | some a => .ok a
  | none => .error "TOML parse error"

def toml : Parsers where
  project := ofDocument ProjectSettings.ofToml
  user := ofDocument UserSettings.ofToml
  number32 text := (readNumber UInt32.size text).map .ofNat
  number64 text := (readNumber UInt64.size text).map .ofNat

end Parsers

end PlcMachine
