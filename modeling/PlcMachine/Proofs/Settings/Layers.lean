import PlcMachine.Proofs.Storage.Access
import PlcMachine.Settings.Loader
import PlcMachine.Settings.Parsing

/-! # Layers of settings

The dimensions in force are looked up key by key: in the environment, in the project file, in the user's
file and then among the standard ones. Each file is checked by itself, and bounds are set key by key, so
that files which are valid alone are valid together, and only the environment can spoil them.
-/

namespace PlcMachine

namespace Specs

structure Valid (s : Specs) : Prop where
  localBytes : s.LocalBytesValid
  maxCallDepth : s.MaxCallDepthValid
  timers : s.timers ≤ 65536
  counters : s.counters ≤ 65536

theorem validate_eq_ok {s : Specs} : s.validate = .ok () ↔ s.Valid := by
  unfold validate
  constructor
  · intro h
    split_ifs at h with hlocal hdepth htimers hcounters
    exact ⟨hlocal, hdepth, UInt32.not_lt.mp htimers, UInt32.not_lt.mp hcounters⟩
  · rintro ⟨hlocal, hdepth, htimers, hcounters⟩
    rw [if_neg (not_not_intro hlocal), if_neg (not_not_intro hdepth),
      if_neg (UInt32.not_lt.mpr htimers), if_neg (UInt32.not_lt.mpr hcounters)]

theorem valid_standard : standard.Valid := validate_eq_ok.mp rfl

/-- The dimensions of which each is the first one that a layer gives, and a standard one if none does. -/
def layered (layers : List PartialSpecs) : Specs where
  localBytes := (layers.findSome? (·.localBytes)).getD standard.localBytes
  maxCallDepth := (layers.findSome? (·.maxCallDepth)).getD standard.maxCallDepth
  flagBytes := (layers.findSome? (·.flagBytes)).getD standard.flagBytes
  inputBytes := (layers.findSome? (·.inputBytes)).getD standard.inputBytes
  outputBytes := (layers.findSome? (·.outputBytes)).getD standard.outputBytes
  timers := (layers.findSome? (·.timers)).getD standard.timers
  counters := (layers.findSome? (·.counters)).getD standard.counters

theorem getD_findSome?_cons {α : Type} (key : PartialSpecs → Option α) (p : PartialSpecs)
    (layers : List PartialSpecs) (a : α) :
    ((p :: layers).findSome? key).getD a = (key p).getD ((layers.findSome? key).getD a) := by
  rw [List.findSome?_cons]
  cases key p <;> rfl

theorem layered_cons (p : PartialSpecs) (layers : List PartialSpecs) :
    layered (p :: layers) = (layered layers).overlay p := by
  simp only [layered, overlay, getD_findSome?_cons]

end Specs

namespace PartialSpecs

structure Valid (p : PartialSpecs) : Prop where
  localBytes : ∀ n ∈ p.localBytes, 1 ≤ n ∧ n ≤ 65536
  maxCallDepth : ∀ n ∈ p.maxCallDepth, 1 ≤ n ∧ n ≤ 4096
  timers : ∀ n ∈ p.timers, n ≤ 65536
  counters : ∀ n ∈ p.counters, n ≤ 65536

theorem valid_empty : empty.Valid := ⟨by simp [empty], by simp [empty], by simp [empty], by simp [empty]⟩

end PartialSpecs

theorem getD_iff_forall_mem {α : Type} (P : α → Prop) (o : Option α) {a : α} (ha : P a) :
    P (o.getD a) ↔ ∀ n ∈ o, P n := by
  cases o with
  | none => simp [ha]
  | some n => simp

/-- Over valid dimensions, exactly valid layers give valid dimensions. -/
theorem Specs.Valid.overlay_iff {s : Specs} (h : s.Valid) (p : PartialSpecs) :
    (s.overlay p).Valid ↔ p.Valid := by
  have hlocal := getD_iff_forall_mem (fun n => 1 ≤ n ∧ n ≤ 65536) p.localBytes h.localBytes
  have hdepth := getD_iff_forall_mem (fun n => 1 ≤ n ∧ n ≤ 4096) p.maxCallDepth h.maxCallDepth
  have htimers := getD_iff_forall_mem (· ≤ 65536) p.timers h.timers
  have hcounters := getD_iff_forall_mem (· ≤ 65536) p.counters h.counters
  constructor
  · rintro ⟨h₁, h₂, h₃, h₄⟩
    exact ⟨hlocal.mp h₁, hdepth.mp h₂, htimers.mp h₃, hcounters.mp h₄⟩
  · rintro ⟨h₁, h₂, h₃, h₄⟩
    exact ⟨hlocal.mpr h₁, hdepth.mpr h₂, htimers.mpr h₃, hcounters.mpr h₄⟩

/-- A load: of a project file, or of the project that a directory belongs to. -/
inductive LoadRequest where
  | file (path : Path)
  | directory (path : Path)
deriving DecidableEq, Repr

namespace LoadRequest

def project (w : Surroundings) : LoadRequest → Except SettingsError ProjectSettings
  | .file path => ProjectSettings.load w.parsers w.files path
  | .directory path =>
    match w.findRoot path with
    | some root => ProjectSettings.load w.parsers w.files (root.join Settings.projectFile)
    | none => .ok .empty

def root (w : Surroundings) : LoadRequest → Option Path
  | .file path => path.parent?
  | .directory path => w.findRoot path

end LoadRequest

namespace Loader

def load (l : Loader) (w : Surroundings) : LoadRequest → Except SettingsError Settings × Loader
  | .file path => l.loadFile w path
  | .directory path => l.loadDirectory w path

theorem load_eq_complete (l : Loader) (w : Surroundings) (r : LoadRequest) :
    l.load w r = l.complete w (r.root w) (r.project w) := by
  cases r with
  | file path => rfl
  | directory path =>
    simp only [load, loadDirectory, LoadRequest.root, LoadRequest.project]
    cases w.findRoot path <;> rfl

theorem load_eq_ok {l l' : Loader} {w : Surroundings} {r : LoadRequest} {s : Settings}
    (h : l.load w r = (.ok s, l')) :
    ∃ project, r.project w = .ok project ∧ l' = l.settle w ∧
      l'.loadUser w = .ok s.user ∧ w.applyOverrides project = .ok s.project := by
  rw [load_eq_complete] at h
  unfold complete at h
  cases hp : r.project w with
  | error e =>
    rw [hp] at h
    cases h
  | ok project =>
    rw [hp] at h
    obtain ⟨hs, rfl⟩ := Prod.mk.inj h
    obtain ⟨user, hu, hs⟩ := bind_eq_ok.mp hs
    obtain ⟨project', ho, hs⟩ := bind_eq_ok.mp hs
    cases pure_eq_ok.mp hs
    exact ⟨project, rfl, rfl, hu, ho⟩

end Loader

namespace Surroundings

def number {α : Type} (w : Surroundings) (v : Variable) (parse : String → Option α) : Option α :=
  (w.environment v).bind fun text => parse (trimSpace text)

def overrides (w : Surroundings) : PartialSpecs :=
  { PartialSpecs.empty with
    localBytes := w.number .localBytes w.parsers.number32
    maxCallDepth := w.number .maxCallDepth w.parsers.number64 }

variable {w : Surroundings}

theorem override_eq_ok {α : Type} {v : Variable} {parse : String → Option α} {n : Option α}
    (h : w.override v parse = .ok n) : w.number v parse = n := by
  unfold override at h
  unfold number
  cases ht : w.environment v with
  | none =>
    rw [ht] at h
    cases h
    rfl
  | some text =>
    rw [ht] at h
    change parse (trimSpace text) = n
    cases hn : parse (trimSpace text) with
    | none => simp [hn] at h
    | some k => simpa [hn] using h

theorem overlay_applyOverrides {project project' : ProjectSettings}
    (h : w.applyOverrides project = .ok project') (s : Specs) :
    s.overlay (project'.cpu.getD .empty) = (s.overlay (project.cpu.getD .empty)).overlay w.overrides := by
  obtain ⟨localBytes, hlocal, h⟩ := bind_eq_ok.mp h
  obtain ⟨maxCallDepth, hdepth, h⟩ := bind_eq_ok.mp h
  obtain rfl := pure_eq_ok.mp h
  rw [overrides, override_eq_ok hlocal, override_eq_ok hdepth]
  cases localBytes <;> cases maxCallDepth <;> rfl

end Surroundings

section Files

variable {files : FileSystem} {p : Path}

theorem validate_of_loadWith {α : Type} {parse : String → Except String α}
    {validate : α → Except SettingsError Unit} {s : α} (h : loadWith parse validate files p = .ok s) :
    validate s = .ok () := by
  obtain ⟨text, -, h⟩ := bind_eq_ok.mp h
  obtain ⟨s', -, h⟩ := bind_eq_ok.mp h
  obtain ⟨⟨⟩, hv, h⟩ := bind_eq_ok.mp h
  cases pure_eq_ok.mp h
  exact hv

theorem PartialSpecs.valid_of_validate {q : PartialSpecs} {table : SpecsTable}
    (h : q.validate table = .ok ()) : q.Valid :=
  (Specs.valid_standard.overlay_iff q).mp (Specs.validate_eq_ok.mp (mapError_eq_ok.mp h))

theorem ProjectSettings.valid_of_validate {s : ProjectSettings} (h : s.validate = .ok ()) :
    (s.cpu.getD .empty).Valid := by
  unfold validate at h
  cases hc : s.cpu with
  | none => exact PartialSpecs.valid_empty
  | some cpu =>
    rw [hc] at h
    split_ifs at h
    · exact absurd h throw_ne_ok
    · exact PartialSpecs.valid_of_validate h

theorem UserSettings.valid_of_validate {s : UserSettings} (h : s.validate = .ok ()) :
    (s.defaults.getD .empty).Valid := by
  unfold validate at h
  cases hd : s.defaults with
  | none => exact PartialSpecs.valid_empty
  | some defaults =>
    rw [hd] at h
    exact PartialSpecs.valid_of_validate h

theorem LoadRequest.valid_of_project {w : Surroundings} {r : LoadRequest} {project : ProjectSettings}
    (h : r.project w = .ok project) : (project.cpu.getD .empty).Valid := by
  cases r with
  | file path => exact ProjectSettings.valid_of_validate (validate_of_loadWith h)
  | directory path =>
    unfold LoadRequest.project at h
    dsimp only at h
    split at h
    · exact ProjectSettings.valid_of_validate (validate_of_loadWith h)
    · obtain rfl := Except.ok.inj h
      exact PartialSpecs.valid_empty

theorem Loader.valid_of_loadUser {l : Loader} {w : Surroundings} {user : UserSettings}
    (h : l.loadUser w = .ok user) : (user.defaults.getD .empty).Valid := by
  unfold loadUser at h
  split at h
  · cases h
    exact PartialSpecs.valid_empty
  · split_ifs at h
    · exact UserSettings.valid_of_validate (validate_of_loadWith h)
    · cases h
      exact PartialSpecs.valid_empty

end Files

namespace Settings

theorem specs_eq_error {s : Settings} : (∃ e, s.specs = .error e) ↔ ¬ s.mergedSpecs.Valid := by
  rw [← Specs.validate_eq_ok]
  unfold specs
  cases s.mergedSpecs.validate <;> simp [bind, Except.bind, Except.mapError, pure, Except.pure]

theorem specs_eq_ok {s : Settings} (h : s.mergedSpecs.Valid) : s.specs = .ok s.mergedSpecs := by
  unfold specs
  rw [Specs.validate_eq_ok.mpr h]
  rfl

theorem mergedSpecs_eq (s : Settings) : s.mergedSpecs =
    .layered [s.project.cpu.getD .empty, s.user.defaults.getD .empty] := by
  rw [Specs.layered_cons, Specs.layered_cons]
  rfl

/-- Files that are valid alone are valid together. -/
theorem valid_mergedSpecs {s : Settings} (hp : (s.project.cpu.getD .empty).Valid)
    (hu : (s.user.defaults.getD .empty).Valid) : s.mergedSpecs.Valid :=
  (((Specs.valid_standard.overlay_iff _).mpr hu).overlay_iff _).mpr hp

end Settings

namespace Surroundings

variable {w : Surroundings}

/-- A number in the environment gives a dimension outside its bounds. -/
def OutOfBounds (w : Surroundings) : Prop :=
  (∃ n, w.number .localBytes w.parsers.number32 = some n ∧ ¬ (1 ≤ n ∧ n ≤ 65536)) ∨
    ∃ n, w.number .maxCallDepth w.parsers.number64 = some n ∧ ¬ (1 ≤ n ∧ n ≤ 4096)

theorem valid_overrides : w.overrides.Valid ↔ ¬ w.OutOfBounds := by
  unfold OutOfBounds
  simp only [not_or, not_exists, not_and_not_right]
  constructor
  · rintro ⟨hlocal, hdepth, -, -⟩
    exact ⟨hlocal, hdepth⟩
  · rintro ⟨hlocal, hdepth⟩
    exact ⟨hlocal, hdepth, by simp [overrides, PartialSpecs.empty], by simp [overrides, PartialSpecs.empty]⟩

end Surroundings

namespace Loader

/-- After a load that succeeds, each dimension is the one in the environment, which gives the size of local
data and the call depth only, or else the one in the project file, or else the one in the user's file, or
else the standard one. They are refused exactly if the environment gives one outside its bounds, and no two
files that can be loaded have dimensions that are refused together. -/
theorem specs_of_load {l l' : Loader} {w : Surroundings} {r : LoadRequest} {s : Settings}
    (h : l.load w r = (.ok s, l')) :
    (∃ project user, r.project w = .ok project ∧ (l.settle w).loadUser w = .ok user ∧
      s.mergedSpecs =
        .layered [w.overrides, project.cpu.getD .empty, user.defaults.getD .empty]) ∧
    ((∃ e, s.specs = .error e) ↔ w.OutOfBounds) ∧
    (¬ w.OutOfBounds → s.specs = .ok s.mergedSpecs) ∧
    ∀ project user root parsers files projectFile userFile,
      ProjectSettings.load parsers files projectFile = .ok project →
      UserSettings.load parsers files userFile = .ok user →
      (⟨project, user, root⟩ : Settings).specs = .ok (Settings.mergedSpecs ⟨project, user, root⟩) := by
  obtain ⟨project, hproject, rfl, huser, hoverrides⟩ := load_eq_ok h
  have hmerged : s.mergedSpecs =
      .layered [w.overrides, project.cpu.getD .empty, s.user.defaults.getD .empty] := by
    rw [Specs.layered_cons, Specs.layered_cons, Specs.layered_cons]
    exact Surroundings.overlay_applyOverrides hoverrides _
  have hfiles : (Specs.layered [project.cpu.getD .empty, s.user.defaults.getD .empty]).Valid := by
    rw [← Settings.mergedSpecs_eq ⟨project, s.user, none⟩]
    exact Settings.valid_mergedSpecs (LoadRequest.valid_of_project hproject) (valid_of_loadUser huser)
  -- The layers below are valid, so the environment alone decides.
  have hvalid : s.mergedSpecs.Valid ↔ ¬ w.OutOfBounds := by
    rw [hmerged, Specs.layered_cons, hfiles.overlay_iff, Surroundings.valid_overrides]
  refine ⟨⟨project, s.user, hproject, huser, hmerged⟩, ?_, ?_, ?_⟩
  · rw [Settings.specs_eq_error, hvalid, not_not]
  · intro hbounds
    exact Settings.specs_eq_ok (hvalid.mpr hbounds)
  · intro project user root parsers files projectFile userFile hp hu
    exact Settings.specs_eq_ok (Settings.valid_mergedSpecs
      (ProjectSettings.valid_of_validate (validate_of_loadWith hp))
      (UserSettings.valid_of_validate (validate_of_loadWith hu)))

end Loader

namespace Layers

def plant : Path := .fromRoot ["plant"]

def home : Path := .fromRoot ["home"]

/-- A project with local data of 512 bytes and three timers, whose user has four timers and five counters,
and where the environment asks for local data of 4096 bytes. -/
def surroundings : Surroundings where
  parsers := .toml
  files := FileTree.toFileSystem
    { working := []
      files := [(["plant", "plcsim.toml"], "[cpu]\nlocal_bytes = 512\ntimers = 3\n".toUTF8.toList),
        (["home", ".plcsim", "config.toml"], "[defaults]\ntimers = 4\ncounters = 5\n".toUTF8.toList)]
      directories := [] }
  environment
    | .localBytes => some " 4096"
    | .maxCallDepth => none
  home := some home

def request : LoadRequest := .directory (.fromRoot ["plant", "blocks"])

def project : ProjectSettings := ⟨none, some ⟨some 512, none, none, none, none, some 3, none⟩⟩

def user : UserSettings := ⟨some ⟨none, none, none, none, none, some 4, some 5⟩⟩

def settings : Settings where
  project := ⟨none, some ⟨some 4096, none, none, none, none, some 3, none⟩⟩
  user := user
  root := some plant

end Layers

open Layers in
theorem Loader.specs_of_load_layered :
    Loader.fresh.load surroundings request = (.ok settings, .withUserFile (Settings.userFileIn home)) ∧
      settings.mergedSpecs = ⟨4096, 256, 8192, 8192, 8192, 3, 5⟩ ∧
      settings.specs = .ok settings.mergedSpecs ∧
      (⟨project, user, none⟩ : Settings).specs = .ok ⟨512, 256, 8192, 8192, 8192, 3, 5⟩ := by
  have hload : Loader.fresh.load surroundings request =
      (.ok settings, .withUserFile (Settings.userFileIn home)) := by decide +kernel
  obtain ⟨⟨project', user', hproject, huser, hmerged⟩, -, hspecs, hfiles⟩ := Loader.specs_of_load hload
  obtain rfl : project = project' := Except.ok.inj ((by decide +kernel : _ = _).symm.trans hproject)
  obtain rfl : user = user' := Except.ok.inj ((by decide +kernel : _ = _).symm.trans huser)
  have hlocal : surroundings.number .localBytes surroundings.parsers.number32 = some 4096 := by
    decide +kernel
  have hdepth : surroundings.number .maxCallDepth surroundings.parsers.number64 = none := rfl
  have hbounds : ¬ surroundings.OutOfBounds := by
    unfold Surroundings.OutOfBounds
    simp [hlocal, hdepth]
  refine ⟨hload, ?_, hspecs hbounds, ?_⟩
  · rw [hmerged, Surroundings.overrides, hlocal, hdepth]
    rfl
  · exact hfiles project user none surroundings.parsers surroundings.files
      (plant.join Settings.projectFile) (Settings.userFileIn home) (by decide +kernel) (by decide +kernel)

end PlcMachine
