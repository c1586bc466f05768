/-! # Paths

A path is kept as it is written: nothing is looked up and no `..` is resolved to find its parent. The slash
is the only separator, and there are no drives. What a path begins with is told apart from the parts behind
it, as a dot counts at the beginning of a path and nowhere else: `./a` is an entry of `.`, which is an entry
of the empty path, while `a/.` is `a`, an entry of the empty path. Main statement: the parent of an entry in
a directory is that directory.
-/

namespace PlcMachine

inductive Path.Anchor where
  /-- The slash that stands for the root. -/
  | root
  /-- The dot that stands for the working directory. -/
  | here
  /-- The name of an entry of the working directory, if the path is not empty. -/
  | bare
deriving DecidableEq, Repr

namespace Path

/-- A part that stays in the same directory. -/
def isIdle (part : String) : Bool := part == "" || part == "."

/-- A path can begin so and go on with these parts: one that begins with a name has it as its first part. -/
def Begins (anchor : Anchor) (parts : List String) : Prop :=
  anchor = .bare → (parts.head?.all fun part => ! isIdle part) = true

instance (anchor : Anchor) (parts : List String) : Decidable (Begins anchor parts) :=
  inferInstanceAs (Decidable (_ → _))

theorem begins_nil (anchor : Anchor) : Begins anchor [] := fun _ => rfl

theorem Begins.of_isPrefix {anchor : Anchor} {parts kept : List String} (h : Begins anchor parts)
    (hkept : kept <+: parts) : Begins anchor kept := by
  obtain ⟨ends, rfl⟩ := hkept
  cases kept with
  | nil => exact begins_nil anchor
  | cons part kept => exact h

theorem Begins.of_isSuffix {anchor : Anchor} {back rest : List String} (h : Begins anchor back.reverse)
    (hrest : rest <:+ back) : Begins anchor rest.reverse :=
  h.of_isPrefix (List.reverse_prefix.mpr hrest)

end Path

structure Path where
  anchor : Path.Anchor
  parts : List String
  begins : Path.Begins anchor parts
deriving DecidableEq, Repr

structure EntryName where
  text : String
  named : Path.isIdle text = false
deriving DecidableEq, Repr

namespace Path

inductive Component where
  | root
  | here
  /-- The name of an entry, or the two dots for the directory above. -/
  | name (text : String)
deriving DecidableEq, Repr

def Anchor.components : Anchor → List Component
  | .root => [.root]
  | .here => [.here]
  | .bare => []

/-- What the path consists of. Paths are equal if their components are, however they are written. -/
def components (p : Path) : List Component :=
  p.anchor.components ++ (p.parts.filter fun part => ! isIdle part).map .name

def empty : Path := ⟨.bare, [], begins_nil _⟩

def fromRoot (parts : List String) : Path := ⟨.root, parts, nofun⟩

def fromHere (parts : List String) : Path := ⟨.here, parts, nofun⟩

def ofText (text : String) : Path :=
  match text.splitOn "/" with
  | ["", ""] => fromRoot []
  | "" :: part :: parts => fromRoot (part :: parts)
  | "." :: parts => fromHere parts
  | parts => if h : Begins .bare parts then ⟨.bare, parts, h⟩ else empty

def text (p : Path) : String :=
  match p.anchor with
  | .root => "/" ++ "/".intercalate p.parts
  | .here => "/".intercalate ("." :: p.parts)
  | .bare => "/".intercalate p.parts

def hasNull (p : Path) : Bool := p.parts.any fun part => part.toList.any (·.toNat == 0)

theorem begins_join {anchor : Anchor} {parts : List String} (h : Begins anchor parts)
    (name : EntryName) : Begins anchor (parts ++ [name.text]) := by
  cases parts with
  | nil => exact fun _ => by simp [name.named]
  | cons part parts => exact h

/-- The parts before those of an entry. A slash at the end is the one before the entry. -/
def opened (parts : List String) : List String :=
  if parts.getLast? = some "" then parts.dropLast else parts

theorem opened_isPrefix (parts : List String) : opened parts <+: parts := by
  unfold opened
  split
  · exact List.dropLast_prefix parts
  · exact List.prefix_rfl

def join (p : Path) (name : EntryName) : Path :=
  ⟨p.anchor, opened p.parts ++ [name.text], begins_join (p.begins.of_isPrefix (opened_isPrefix _)) name⟩

def trimEnd (p : Path) : Path :=
  ⟨p.anchor, (p.parts.reverse.dropWhile isIdle).reverse,
    Begins.of_isSuffix (by rw [List.reverse_reverse]; exact p.begins) (List.dropWhile_suffix _)⟩

/-- The parents of the path that begins so and has these parts, the last part first. Each leaves out one
more part that names something, and idle parts at its end. At last the dot at the beginning is left out. -/
def above (anchor : Anchor) : (back : List String) → Begins anchor back.reverse → List Path
  | [], _ => if anchor = .here then [empty] else []
  | part :: rest, h =>
    have hrest := h.of_isSuffix (List.suffix_cons part rest)
    if isIdle part then above anchor rest hrest
    else
      ⟨anchor, (rest.dropWhile isIdle).reverse, hrest.of_isSuffix (List.dropWhile_suffix _)⟩ ::
        above anchor rest hrest

def parents (p : Path) : List Path :=
  above p.anchor p.parts.reverse (by rw [List.reverse_reverse]; exact p.begins)

/-- The path without its last part that names something, or without the dot that it consists of. -/
def parent? (p : Path) : Option Path := p.parents.head?

/-- The path as it is written and all its parents, the longest first. -/
def ancestors (p : Path) : List Path := p :: p.parents

example : (fromHere ["a"]).ancestors = [fromHere ["a"], fromHere [], empty] := by decide

example : (fromRoot ["a"]).ancestors = [fromRoot ["a"], fromRoot []] := by decide

theorem reverse_dropWhile_opened (parts : List String) :
    (opened parts).reverse.dropWhile isIdle = parts.reverse.dropWhile isIdle := by
  unfold opened
  split
  · next h =>
    obtain ⟨before, rfl⟩ := List.getLast?_eq_some_iff.1 h
    rw [List.dropLast_concat, List.reverse_concat, List.dropWhile_cons_of_pos rfl]
  · rfl

theorem parent?_join (p : Path) (name : EntryName) : (p.join name).parent? = some p.trimEnd := by
  simp [parent?, parents, join, above, name.named, trimEnd, reverse_dropWhile_opened]

end Path

end PlcMachine
