import Mathlib.Logic.Relation
import Mathlib.Tactic.Common
import PlcMachine.Settings.Loader
import PlcMachine.Settings.Parsing

/-! # The search for a project

Going up from a path leaves out one component at a time, so it comes to an end, and the first project file on
the way is that of the longest ancestor that has one. Loading the settings for a directory
is loading that file.
-/

namespace PlcMachine

namespace Path

def depth (p : Path) : Nat := p.components.length

/-- The directory is the path itself, or its parent, or the parent of that, and so on. -/
def IsAncestor (d p : Path) : Prop := Relation.ReflTransGen (fun q r => q.parent? = some r) p d

theorem above_dropWhile {anchor : Anchor} {back : List String} (h : Begins anchor back.reverse) :
    above anchor (back.dropWhile isIdle) (h.of_isSuffix (List.dropWhile_suffix isIdle)) =
      above anchor back h := by
  induction back with
  | nil => rfl
  | cons part rest ih =>
    by_cases hidle : isIdle part = true
    · simp only [List.dropWhile_cons_of_pos hidle, above, if_pos hidle]
      exact ih _
    · simp only [List.dropWhile_cons_of_neg hidle]

theorem filter_dropWhile (parts : List String) :
    (parts.dropWhile isIdle).filter (fun part => ! isIdle part) =
      parts.filter fun part => ! isIdle part := by
  induction parts with
  | nil => rfl
  | cons part rest ih =>
    by_cases hidle : isIdle part = true
    · simp [hidle, ih]
    · rw [List.dropWhile_cons_of_neg hidle]

theorem components_trimEnd (p : Path) : p.trimEnd.components = p.components := by
  simp [components, trimEnd, List.filter_reverse, filter_dropWhile]

theorem parents_reverse {anchor : Anchor} {back : List String} (h : Begins anchor back.reverse) :
    parents ⟨anchor, back.reverse, h⟩ = above anchor back h := by
  simp only [parents, List.reverse_reverse]

/-- The parents of the parent are the other parents, and it has all components but the last. -/
theorem above_of_head? {anchor : Anchor} {back : List String} {h : Begins anchor back.reverse} {q : Path}
    (hq : (above anchor back h).head? = some q) :
    above anchor back h = q :: q.parents ∧
      ∃ c, components ⟨anchor, back.reverse, h⟩ = q.components ++ [c] := by
  induction back with
  | nil =>
    by_cases hhere : anchor = .here
    · subst hhere
      obtain rfl := Option.some.inj hq
      exact ⟨rfl, .here, rfl⟩
    · rw [above, if_neg hhere] at hq
      cases hq
  | cons part rest ih =>
    have hcomponents : components ⟨anchor, (part :: rest).reverse, h⟩ =
        components ⟨anchor, rest.reverse, h.of_isSuffix (List.suffix_cons part rest)⟩ ++
          ([part].filter fun part => ! isIdle part).map .name := by
      simp [components]
    by_cases hidle : isIdle part = true
    · -- An idle part is no component, and the parents are those of the path without it.
      rw [above, if_pos hidle] at hq ⊢
      rw [hcomponents]
      simpa [hidle] using ih hq
    · rw [above, if_neg hidle] at hq ⊢
      obtain rfl := Option.some.inj hq
      refine ⟨?_, .name part, ?_⟩
      · rw [parents_reverse, above_dropWhile]
      · rw [hcomponents]
        simp [hidle, components, List.filter_reverse, filter_dropWhile]

theorem parents_of_parent? {p q : Path} (h : p.parent? = some q) : p.parents = q :: q.parents :=
  (above_of_head? h).1

theorem components_of_parent? {p q : Path} (h : p.parent? = some q) :
    ∃ c, p.components = q.components ++ [c] := by
  obtain ⟨c, hc⟩ := (above_of_head? h).2
  simp only [List.reverse_reverse] at hc
  exact ⟨c, hc⟩

theorem depth_of_parent? {p q : Path} (h : p.parent? = some q) : p.depth = q.depth + 1 := by
  obtain ⟨c, hc⟩ := components_of_parent? h
  simp [depth, hc]

theorem ancestors_eq (p : Path) : p.ancestors = p :: (p.parent?.map ancestors).getD [] := by
  cases h : p.parent? with
  | none =>
    rw [ancestors, List.head?_eq_none_iff.mp h]
    rfl
  | some q =>
    rw [ancestors, parents_of_parent? h]
    rfl

theorem wellFounded_parent : WellFounded fun q p : Path => p.parent? = some q := by
  refine Subrelation.wf ?_ (measure depth).wf
  intro q p h
  exact Nat.lt_of_lt_of_eq (Nat.lt_succ_self q.depth) (depth_of_parent? h).symm

theorem IsAncestor.eq_or {d p : Path} (h : d.IsAncestor p) :
    d = p ∨ ∃ q, p.parent? = some q ∧ d.IsAncestor q := by
  rcases Relation.ReflTransGen.cases_head h with rfl | ⟨q, hq, hd⟩
  · exact .inl rfl
  · exact .inr ⟨q, hq, hd⟩

theorem mem_ancestors {d p : Path} : d ∈ p.ancestors ↔ d.IsAncestor p := by
  induction p using wellFounded_parent.induction with
  | _ p ih =>
    rw [ancestors_eq, List.mem_cons]
    constructor
    · rintro (rfl | hd)
      · exact .refl
      · cases hq : p.parent? with
        | none => simp [hq] at hd
        | some q =>
          rw [hq] at hd
          exact .head hq ((ih q hq).mp hd)
    · intro hd
      rcases hd.eq_or with rfl | ⟨q, hq, hd⟩
      · exact .inl rfl
      · rw [hq]
        exact .inr ((ih q hq).mpr hd)

theorem IsAncestor.of_parent? {d p q : Path} (h : d.IsAncestor p) (hq : p.parent? = some q)
    (hne : d ≠ p) : d.IsAncestor q := by
  obtain ⟨q', hq', hd⟩ := h.eq_or.resolve_left hne
  obtain rfl : q = q' := Option.some.inj (hq.symm.trans hq')
  exact hd

theorem IsAncestor.depth_le {d p : Path} (h : d.IsAncestor p) : d.depth ≤ p.depth := by
  induction h with
  | refl => exact Nat.le_refl _
  | tail _ hq ih =>
    have hdepth := depth_of_parent? hq
    omega

theorem IsAncestor.depth_lt {d p : Path} (h : d.IsAncestor p) (hne : d ≠ p) : d.depth < p.depth := by
  obtain ⟨q, hq, hd⟩ := h.eq_or.resolve_left hne
  rw [depth_of_parent? hq]
  exact Nat.lt_succ_of_le hd.depth_le

end Path

namespace Surroundings

/-- There is something with the name of the project file in the directory. -/
def HasProject (w : Surroundings) (d : Path) : Prop :=
  w.files.contains (d.join Settings.projectFile) = true

/-- The search for a project, one directory after another: it ends where the project file is, and else at a
path without a parent. -/
inductive Searches (w : Surroundings) : Path → Option Path → Prop where
  | here {d : Path} (h : w.HasProject d) : Searches w d (some d)
  | up {d parent : Path} {found : Option Path} (h : ¬ w.HasProject d) (hp : d.parent? = some parent)
      (hs : Searches w parent found) : Searches w d found
  | top {d : Path} (h : ¬ w.HasProject d) (hp : d.parent? = none) : Searches w d none

/-- Of the ancestors of the path that have a project file, the directory is the longest. -/
structure IsNearest (w : Surroundings) (start d : Path) : Prop where
  ancestor : d.IsAncestor start
  hasProject : w.HasProject d
  longest : ∀ d', d'.IsAncestor start → w.HasProject d' → d'.depth ≤ d.depth

variable {w : Surroundings} {start parent d : Path}

theorem findRoot_of_hasProject (h : w.HasProject start) : w.findRoot start = some start := by
  unfold findRoot
  exact List.find?_cons_of_pos h

theorem findRoot_of_not_hasProject (h : ¬ w.HasProject start) :
    w.findRoot start = start.parent?.bind w.findRoot := by
  unfold findRoot
  rw [Path.ancestors_eq]
  rw [List.find?_cons, Bool.eq_false_iff.mpr h]
  cases start.parent? <;> rfl

theorem searches_findRoot (w : Surroundings) (start : Path) : w.Searches start (w.findRoot start) := by
  induction start using Path.wellFounded_parent.induction with
  | _ start ih =>
    by_cases h : w.HasProject start
    · rw [findRoot_of_hasProject h]
      exact .here h
    · cases hp : start.parent? with
      | none =>
        rw [findRoot_of_not_hasProject h, hp]
        exact .top h hp
      | some parent =>
        rw [findRoot_of_not_hasProject h, hp]
        exact .up h hp (ih parent hp)

theorem Searches.eq_findRoot {found : Option Path} (h : w.Searches start found) :
    found = w.findRoot start := by
  induction h with
  | here h => rw [findRoot_of_hasProject h]
  | up h hp _ ih => rw [findRoot_of_not_hasProject h, hp, ih, Option.bind_some]
  | top h hp => rw [findRoot_of_not_hasProject h, hp, Option.bind_none]

theorem searches_iff {found : Option Path} : w.Searches start found ↔ found = w.findRoot start := by
  constructor
  · exact Searches.eq_findRoot
  · rintro rfl
    exact w.searches_findRoot start

theorem IsNearest.eq_of_hasProject (hd : w.IsNearest start d) (h : w.HasProject start) : d = start := by
  by_contra hne
  have hlt := hd.ancestor.depth_lt hne
  have hle := hd.longest start .refl h
  omega

/-- Where there is no project, the nearest one is that of the parent. -/
theorem isNearest_iff_of_parent? (h : ¬ w.HasProject start) (hp : start.parent? = some parent) :
    w.IsNearest start d ↔ w.IsNearest parent d := by
  have hup {d' : Path} (hproject : w.HasProject d') :
      d'.IsAncestor start ↔ d'.IsAncestor parent := by
    constructor
    · intro hd'
      exact hd'.of_parent? hp fun heq => h (heq ▸ hproject)
    · exact .head hp
  constructor
  · rintro ⟨hancestor, hproject, hlongest⟩
    exact ⟨(hup hproject).mp hancestor, hproject,
      fun d' hd' hproject' => hlongest d' ((hup hproject').mpr hd') hproject'⟩
  · rintro ⟨hancestor, hproject, hlongest⟩
    exact ⟨(hup hproject).mpr hancestor, hproject,
      fun d' hd' hproject' => hlongest d' ((hup hproject').mp hd') hproject'⟩

theorem findRoot_eq_some_iff : w.findRoot start = some d ↔ w.IsNearest start d := by
  induction start using Path.wellFounded_parent.induction with
  | _ start ih =>
    by_cases h : w.HasProject start
    · rw [findRoot_of_hasProject h]
      constructor
      · rintro ⟨⟩
        exact ⟨.refl, h, fun d hd _ => hd.depth_le⟩
      · intro hd
        rw [hd.eq_of_hasProject h]
    · rw [findRoot_of_not_hasProject h]
      cases hp : start.parent? with
      | none =>
        constructor
        · rintro ⟨⟩
        · rintro ⟨hancestor, hproject, -⟩
          rcases hancestor.eq_or with rfl | ⟨parent, hp', -⟩
          · exact absurd hproject h
          · cases hp.symm.trans hp'
      | some parent => exact (ih parent hp).trans (isNearest_iff_of_parent? h hp).symm

theorem findRoot_eq_none_iff :
    w.findRoot start = none ↔ ∀ d, d.IsAncestor start → ¬ w.HasProject d := by
  rw [findRoot, List.find?_eq_none]
  simp only [Path.mem_ancestors]
  rfl

theorem existsUnique_isNearest (h : ∃ d, d.IsAncestor start ∧ w.HasProject d) :
    ∃! d, w.IsNearest start d := by
  simp only [← findRoot_eq_some_iff]
  cases hfound : w.findRoot start with
  | none =>
    obtain ⟨d, hd, hproject⟩ := h
    exact absurd hproject (findRoot_eq_none_iff.mp hfound d hd)
  | some d => exact ⟨d, rfl, fun d' hd' => (Option.some.inj hd').symm⟩

end Surroundings

/-- The same settings. Their roots are the same directory, but need not be written in the same way. -/
structure Settings.Same (s s' : Settings) : Prop where
  project : s.project = s'.project
  user : s.user = s'.user
  root : s.root.map Path.components = s'.root.map Path.components

namespace Loader

inductive SameResult : Except SettingsError Settings → Except SettingsError Settings → Prop where
  | ok {s s' : Settings} (h : s.Same s') : SameResult (.ok s) (.ok s')
  | error (e : SettingsError) : SameResult (.error e) (.error e)

variable {l : Loader} {w : Surroundings} {project : Except SettingsError ProjectSettings}

theorem complete_withRoot (root root' : Option Path) : l.complete w root project =
    ((l.complete w root' project).1.map fun s => { s with root }, (l.complete w root' project).2) := by
  unfold complete
  cases project with
  | error e => rfl
  | ok project =>
    dsimp only
    cases (l.settle w).loadUser w with
    | error e => rfl
    | ok user => cases w.applyOverrides project <;> rfl

theorem root_of_complete {root : Option Path} {s : Settings}
    (h : (l.complete w root project).1 = .ok s) : s.root = root := by
  rw [complete_withRoot root root] at h
  cases hr : (l.complete w root project).1 with
  | error e =>
    rw [hr] at h
    cases h
  | ok s' =>
    rw [hr] at h
    cases h
    rfl

theorem sameResult_complete {root root' : Option Path}
    (h : root.map Path.components = root'.map Path.components) :
    SameResult (l.complete w root project).1 (l.complete w root' project).1 := by
  rw [complete_withRoot root root']
  cases hr : (l.complete w root' project).1 with
  | error e => exact .error e
  | ok s => exact .ok ⟨rfl, rfl, by rw [root_of_complete hr]; exact h⟩

/-- The search from a directory comes to an end. If an ancestor of the directory has a project file, loading
for the directory is loading that of the longest such ancestor, which becomes the root: the settings, or the
error, and the loader are the same, and no other project is tried when that file cannot be loaded. The root is
even written in the same way unless idle parts stand at its end. Without such an ancestor the settings are
those of an empty project without a root. -/
theorem loadDirectory_eq_loadFile (l : Loader) (w : Surroundings) (start : Path) :
    (∀ found, w.Searches start found ↔ found = w.findRoot start) ∧
    ((∃ d, d.IsAncestor start ∧ w.HasProject d) → ∃! d, w.IsNearest start d) ∧
    (∀ d, w.IsNearest start d →
      SameResult (l.loadDirectory w start).1 (l.loadFile w (d.join Settings.projectFile)).1 ∧
      (l.loadDirectory w start).2 = (l.loadFile w (d.join Settings.projectFile)).2 ∧
      (∀ s, (l.loadDirectory w start).1 = .ok s → s.root = some d) ∧
      (d.trimEnd = d → l.loadDirectory w start = l.loadFile w (d.join Settings.projectFile)) ∧
      ∀ e, ProjectSettings.load w.parsers w.files (d.join Settings.projectFile) = .error e →
        l.loadDirectory w start = (.error e, l)) ∧
    ((∀ d, d.IsAncestor start → ¬ w.HasProject d) →
      l.loadDirectory w start = l.complete w none (.ok .empty)) := by
  refine ⟨fun _ => Surroundings.searches_iff, Surroundings.existsUnique_isNearest, ?_, ?_⟩
  · intro d hd
    have hdirectory : l.loadDirectory w start = l.complete w (some d)
        (ProjectSettings.load w.parsers w.files (d.join Settings.projectFile)) := by
      rw [loadDirectory, Surroundings.findRoot_eq_some_iff.mpr hd]
    -- The root of the file is the directory without idle parts at its end.
    have hfile : l.loadFile w (d.join Settings.projectFile) = l.complete w (some d.trimEnd)
        (ProjectSettings.load w.parsers w.files (d.join Settings.projectFile)) := by
      rw [loadFile, Path.parent?_join]
    rw [hdirectory, hfile]
    refine ⟨sameResult_complete ?_, ?_, fun s => root_of_complete, ?_, ?_⟩
    · simp [Path.components_trimEnd]
    · rw [complete_withRoot (some d) (some d.trimEnd)]
    · intro htrim
      rw [htrim]
    · intro e he
      rw [he]
      rfl
  · intro hnone
    rw [loadDirectory, Surroundings.findRoot_eq_none_iff.mpr hnone]

end Loader

namespace Search

/-- A plant with a project, and a line in it whose own project file cannot be parsed. -/
def surroundings : Surroundings where
  parsers := .toml
  files := FileTree.toFileSystem
    { working := ["plant"]
      files := [(["plant", "plcsim.toml"], "[cpu]\ntimers = 3\n".toUTF8.toList),
        (["plant", "line", "plcsim.toml"], "[cpu".toUTF8.toList)]
      directories := [] }
  environment := fun _ => none
  home := none

def plant : Path := .fromHere []

def line : Path := .fromHere ["line"]

def blocks : Path := .fromHere ["line", "blocks"]

def hall : Path := .fromHere ["hall"]

end Search

open Search in
/-- The broken project of the line is the nearest one to its blocks, and that of the plant to the hall. -/
theorem Loader.loadDirectory_eq_loadFile_line :
    plant.IsAncestor line ∧ surroundings.IsNearest blocks line ∧
      Loader.fresh.loadDirectory surroundings blocks =
        (.error (.malformed (line.join Settings.projectFile) "TOML parse error"), .fresh) ∧
      surroundings.IsNearest hall plant ∧
      (Loader.fresh.loadDirectory surroundings hall).1.isOk ∧
      SameResult (Loader.fresh.loadDirectory surroundings hall).1
        (Loader.fresh.loadFile surroundings (plant.join Settings.projectFile)).1 := by
  have hline : surroundings.IsNearest blocks line :=
    Surroundings.findRoot_eq_some_iff.mp (by decide +kernel)
  have hplant : surroundings.IsNearest hall plant :=
    Surroundings.findRoot_eq_some_iff.mp (by decide +kernel)
  obtain ⟨-, -, hblocks, -⟩ := Loader.loadDirectory_eq_loadFile .fresh surroundings blocks
  obtain ⟨-, -, hhall, -⟩ := Loader.loadDirectory_eq_loadFile .fresh surroundings hall
  refine ⟨.single (by decide +kernel), hline, ?_, hplant, by decide +kernel, (hhall _ hplant).1⟩
  exact (hblocks _ hline).2.2.2.2 _ (by decide +kernel)

end PlcMachine
