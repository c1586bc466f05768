import PlcMachine.Settings.Error

/-! # Settings files

A project file has a project name and dimensions, a user's file has dimensions for all projects. How their
texts are parsed is left open.
-/

namespace PlcMachine

structure ProjectSettings where
  name : Option String
  cpu : Option PartialSpecs
deriving DecidableEq, Repr

structure UserSettings where
  defaults : Option PartialSpecs
deriving DecidableEq, Repr

/-- How texts are understood. Where that fails for a file, its parser tells the problem. -/
structure Parsers where
  project : String → Except String ProjectSettings
  user : String → Except String UserSettings
  number32 : String → Option UInt32
  number64 : String → Option UInt64

/-- Checks dimensions as they come to be for a controller of which nothing else is configured. -/
def PartialSpecs.validate (p : PartialSpecs) (table : SpecsTable) : Except SettingsError Unit :=
  (Specs.standard.overlay p).validate.mapError fun fault => .invalid (.dimension table fault)

namespace ProjectSettings

def empty : ProjectSettings := ⟨none, none⟩

def validate (s : ProjectSettings) : Except SettingsError Unit := do
  if s.name = some "" then throw (.invalid .emptyProjectName)
  if let some cpu := s.cpu then cpu.validate .cpu

end ProjectSettings

namespace UserSettings

def empty : UserSettings := ⟨none⟩

def validate (s : UserSettings) : Except SettingsError Unit := do
  if let some defaults := s.defaults then defaults.validate .defaults

end UserSettings

def readText (files : FileSystem) (p : Path) : Except SettingsError String :=
  match files.read p with
  | .content bytes =>
    match String.fromUTF8? ⟨bytes.toArray⟩ with
    | some text => .ok text
    | none => .error (.unreadable .notUtf8)
  | .missing => .error (.notFound p)
  | .failed fault => .error (.unreadable fault)

def loadWith {α : Type} (parse : String → Except String α) (validate : α → Except SettingsError Unit)
    (files : FileSystem) (p : Path) : Except SettingsError α := do
  let text ← readText files p
  let s ← (parse text).mapError (.malformed p)
  validate s
  return s

def ProjectSettings.load (parsers : Parsers) :
    FileSystem → Path → Except SettingsError ProjectSettings :=
  loadWith parsers.project validate

def UserSettings.load (parsers : Parsers) : FileSystem → Path → Except SettingsError UserSettings :=
  loadWith parsers.user validate

end PlcMachine
