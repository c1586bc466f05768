import PlcMachine.Proofs.Settings.Layers

/-! # What a loader remembers

A loader that is not told where the user's file is finds it out in the first load whose project can be
loaded, whether or not that load succeeds, and keeps it. All its loads are those of a loader that is told
this file from the start.
-/

namespace PlcMachine

structure LoadStep where
  surroundings : Surroundings
  request : LoadRequest

/-- The project can be loaded, so that the user's file is what comes next. -/
def LoadStep.reachesUser (s : LoadStep) : Bool := (s.request.project s.surroundings).isOk

namespace Loader

variable {s : LoadStep}

def loadAll (l : Loader) : List LoadStep → List (Except SettingsError Settings) × Loader
  | [] => ([], l)
  | s :: steps =>
    let (result, l) := l.load s.surroundings s.request
    let (results, l) := l.loadAll steps
    (result :: results, l)

theorem loadAll_cons (l : Loader) (s : LoadStep) (steps : List LoadStep) : l.loadAll (s :: steps) =
    ((l.load s.surroundings s.request).1 :: ((l.load s.surroundings s.request).2.loadAll steps).1,
      ((l.load s.surroundings s.request).2.loadAll steps).2) := rfl

theorem load_of_not_reachesUser (hs : ¬ s.reachesUser) :
    ∃ e, ∀ l : Loader, l.load s.surroundings s.request = (.error e, l) := by
  unfold LoadStep.reachesUser at hs
  cases hp : s.request.project s.surroundings with
  | ok project =>
    rw [hp] at hs
    exact absurd rfl hs
  | error e =>
    refine ⟨e, ?_⟩
    intro l
    rw [load_eq_complete, hp]
    rfl

theorem settle_settle (l : Loader) (w : Surroundings) : (l.settle w).settle w = l.settle w := by
  unfold settle
  cases l.userFile <;> cases w.home <;> rfl

theorem settle_withUserFile (p : Path) (w : Surroundings) : (withUserFile p).settle w = withUserFile p := rfl

theorem settle_fresh {w : Surroundings} {home : Path} (hw : w.home = some home) :
    fresh.settle w = withUserFile (Settings.userFileIn home) := by
  rw [settle, hw]
  rfl

/-- Any other load first finds out where the user's file is, whatever it ends with. -/
theorem load_of_reachesUser (hs : s.reachesUser) (l : Loader) : l.load s.surroundings s.request =
    (((l.settle s.surroundings).load s.surroundings s.request).1, l.settle s.surroundings) := by
  unfold LoadStep.reachesUser at hs
  rw [load_eq_complete, load_eq_complete]
  cases hp : s.request.project s.surroundings with
  | ok project =>
    unfold complete
    rw [settle_settle]
  | error e =>
    rw [hp] at hs
    cases hs

theorem load_withUserFile (p : Path) (s : LoadStep) :
    ((withUserFile p).load s.surroundings s.request).2 = withUserFile p := by
  by_cases hs : s.reachesUser
  · rw [load_of_reachesUser hs, settle_withUserFile]
  · obtain ⟨e, he⟩ := load_of_not_reachesUser hs
    rw [he]

theorem loadAll_withUserFile (p : Path) (steps : List LoadStep) : (withUserFile p).loadAll steps =
    (steps.map fun s => ((withUserFile p).load s.surroundings s.request).1, withUserFile p) := by
  induction steps with
  | nil => rfl
  | cons s steps ih => rw [loadAll_cons, load_withUserFile, ih, List.map_cons]

/-- All loads give what they give from a loader that is told the user's file in the home directory of the
first load whose project can be loaded, and this is the file that is remembered. -/
theorem loadAll_fresh (steps : List LoadStep) (home : Path)
    (h : ∀ s, steps.find? LoadStep.reachesUser = some s → s.surroundings.home = some home) :
    fresh.loadAll steps =
      (steps.map fun s =>
          ((withUserFile (Settings.userFileIn home)).load s.surroundings s.request).1,
        if steps.any LoadStep.reachesUser then withUserFile (Settings.userFileIn home) else fresh) := by
  induction steps with
  | nil => rfl
  | cons s steps ih =>
    by_cases hs : s.reachesUser
    · have hhome := h s (List.find?_cons_of_pos hs)
      -- From here on the loader is the one that was told.
      rw [loadAll_cons, load_of_reachesUser hs, settle_fresh hhome, loadAll_withUserFile, List.map_cons,
        List.any_cons, hs]
      rfl
    · obtain ⟨e, he⟩ := load_of_not_reachesUser hs
      rw [List.find?_cons_of_neg hs] at h
      rw [loadAll_cons, he, ih h, List.map_cons, he, List.any_cons, Bool.eq_false_iff.mpr hs]
      rfl

end Loader

namespace Remembering

/-- A project that asks for three timers, one that cannot be parsed, and two homes whose users want other
numbers of counters. -/
def files : FileTree where
  working := []
  files :=
    [(["plant", "plcsim.toml"], "[cpu]\ntimers = 3\n".toUTF8.toList),
      (["broken", "plcsim.toml"], "[cpu".toUTF8.toList),
      (["first", ".plcsim", "config.toml"], "[defaults]\ncounters = 5\n".toUTF8.toList),
      (["second", ".plcsim", "config.toml"], "[defaults]\ncounters = 6\n".toUTF8.toList)]
  directories := []

def plant : Path := .fromRoot ["plant"]

def broken : Path := .fromRoot ["broken"]

def first : Path := .fromRoot ["first"]

def second : Path := .fromRoot ["second"]

def step (directory home : Path) (localBytes : Option String) : LoadStep where
  surroundings :=
    { parsers := .toml
      files := files.toFileSystem
      environment := fun
        | .localBytes => localBytes
        | .maxCallDepth => none
      home := some home }
  request := .directory directory

def steps : List LoadStep :=
  [step broken second none, step plant first (some "many"), step plant second none]

def settings : Settings where
  project := ⟨none, some ⟨none, none, none, none, none, some 3, none⟩⟩
  user := ⟨some ⟨none, none, none, none, none, none, some 5⟩⟩
  root := some plant

end Remembering

open Remembering in
/-- The load that fails in the environment is the one that decides on the home. -/
theorem Loader.loadAll_fresh_homes :
    Loader.fresh.loadAll steps =
      ([.error (.malformed (broken.join Settings.projectFile) "TOML parse error"),
        .error (.invalid (.notANumber .localBytes "many")), .ok settings],
        .withUserFile (Settings.userFileIn first)) := by
  rw [Loader.loadAll_fresh _ first]
  · decide +kernel
  · intro s hs
    have hfound : steps.find? LoadStep.reachesUser = some (step plant first (some "many")) := by
      rw [steps, List.find?_cons_of_neg (by decide +kernel), List.find?_cons_of_pos (by decide +kernel)]
    cases hfound.symm.trans hs
    rfl

end PlcMachine
