import PlcMachine.Settings.File
import PlcMachine.Text.Number

/-! # Loading settings

The settings in force come from a project file, a user's file and environment variables. Dimensions
are looked for in the environment first, then in the project, then with the user, and else are
standard. A loader remembers where the user's file is after it first had to know.
-/

namespace PlcMachine

structure Surroundings where
  parsers : Parsers
  files : FileSystem
  environment : Variable → Option String
  home : Option Path

structure Settings where
  project : ProjectSettings
  user : UserSettings
  /-- The directory of the project file, if there is one. -/
  root : Option Path
deriving DecidableEq, Repr

structure Loader where
  /-- Where the user's file is, once that is known. -/
  userFile : Option Path
deriving DecidableEq, Repr

namespace Settings

def projectFile : EntryName := ⟨"plcsim.toml", by decide⟩

def userDirectory : EntryName := ⟨".plcsim", by decide⟩

def userFile : EntryName := ⟨"config.toml", by decide⟩

def userFileIn (home : Path) : Path := (home.join userDirectory).join userFile

/-- The dimensions that the layers add up to, before they are checked. -/
def mergedSpecs (s : Settings) : Specs :=
  (Specs.standard.overlay (s.user.defaults.getD .empty)).overlay (s.project.cpu.getD .empty)

def specs (s : Settings) : Except SettingsError Specs := do
  s.mergedSpecs.validate.mapError fun fault => .invalid (.dimension .cpu fault)
  return s.mergedSpecs

end Settings

namespace Surroundings

def override {α : Type} (w : Surroundings) (v : Variable) (parse : String → Option α) :
    Except SettingsError (Option α) :=
  match w.environment v with
  | none => .ok none
  | some text =>
    match parse (trimSpace text) with
    | some n => .ok (some n)
    | none => .error (.invalid (.notANumber v text))

def applyOverrides (w : Surroundings) (s : ProjectSettings) : Except SettingsError ProjectSettings := do
  let s := match ← w.override .localBytes w.parsers.number32 with
    | some n => { s with cpu := some { s.cpu.getD .empty with localBytes := some n } }
    | none => s
  return match ← w.override .maxCallDepth w.parsers.number64 with
    | some n => { s with cpu := some { s.cpu.getD .empty with maxCallDepth := some n } }
    | none => s

/-- The directory of the project that a directory belongs to: the nearest one up the path that has an
entry with the name of the project file. -/
def findRoot (w : Surroundings) (directory : Path) : Option Path :=
  directory.ancestors.find? fun d => w.files.contains (d.join Settings.projectFile)

end Surroundings

namespace Loader

def fresh : Loader := ⟨none⟩

def withUserFile (p : Path) : Loader := ⟨some p⟩

def settle (l : Loader) (w : Surroundings) : Loader :=
  ⟨l.userFile.or (w.home.map Settings.userFileIn)⟩

def loadUser (l : Loader) (w : Surroundings) : Except SettingsError UserSettings :=
  match l.userFile with
  | none => .ok .empty
  | some p => if w.files.contains p then UserSettings.load w.parsers w.files p else .ok .empty

/-- Completes the settings of a project. The user's file is read before the environment is. -/
def complete (l : Loader) (w : Surroundings) (root : Option Path)
    (project : Except SettingsError ProjectSettings) : Except SettingsError Settings × Loader :=
  match project with
  | .error e => (.error e, l)
  | .ok project =>
    let l := l.settle w
    ((do
      let user ← l.loadUser w
      return { project := ← w.applyOverrides project, user, root }), l)

def loadFile (l : Loader) (w : Surroundings) (file : Path) : Except SettingsError Settings × Loader :=
  l.complete w file.parent? (ProjectSettings.load w.parsers w.files file)

def loadDirectory (l : Loader) (w : Surroundings) (directory : Path) :
    Except SettingsError Settings × Loader :=
  match w.findRoot directory with
  | some root =>
    l.complete w (some root) (ProjectSettings.load w.parsers w.files (root.join Settings.projectFile))
  | none => l.complete w none (.ok .empty)

end Loader

end PlcMachine
