import PlcMachine.Cpu.Specs
import PlcMachine.Settings.FileSystem

/-! # Settings errors

Why settings cannot be loaded. A setting that is present but out of bounds is named in the message by
the table that it stands in.
-/

namespace PlcMachine

inductive SpecsTable where
  | cpu
  | defaults
deriving DecidableEq, Repr

inductive Variable where
  | localBytes
  | maxCallDepth
deriving DecidableEq, Repr

inductive InvalidSetting where
  | emptyProjectName
  | dimension (table : SpecsTable) (fault : SpecsFault)
  | notANumber (source : Variable) (text : String)
deriving DecidableEq, Repr

inductive SettingsError where
  | notFound (file : Path)
  | unreadable (fault : ReadFault)
  /-- The text of the file is not one of settings, for what its parser tells. -/
  | malformed (file : Path) (problem : String)
  | invalid (setting : InvalidSetting)
deriving DecidableEq, Repr

namespace SpecsTable

def key : SpecsTable → String
  | .cpu => "cpu"
  | .defaults => "defaults"

end SpecsTable

namespace Variable

def name : Variable → String
  | .localBytes => "PLCSIM_LOCAL_BYTES"
  | .maxCallDepth => "PLCSIM_MAX_CALL_DEPTH"

end Variable

namespace InvalidSetting

def field : InvalidSetting → String
  | .emptyProjectName => "project.name"
  | .dimension table fault => s!"{table.key}.{fault.key}"
  | .notANumber v _ => v.name

def reason : InvalidSetting → String
  | .emptyProjectName => "name cannot be empty"
  | .dimension _ fault => fault.reason
  | .notANumber _ text => s!"'{text}' is not a valid number"

def message (s : InvalidSetting) : String := s!"Invalid value for '{s.field}': {s.reason}"

end InvalidSetting

namespace SettingsError

def message : SettingsError → String
  | .notFound file => s!"Configuration file not found: {file.text}"
  | .unreadable fault => s!"Failed to read configuration file: {fault.message}"
  | .malformed file problem => s!"Invalid TOML syntax in {file.text}: {problem}"
  | .invalid setting => setting.message

end SettingsError

end PlcMachine
