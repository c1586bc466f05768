/-! # Scanning text

A scanner takes a value off the front of a text or gives up, and alternatives start over at the same
place. Repetition ends at the first item that cannot be scanned or that takes nothing.
-/

namespace PlcMachine.Toml

abbrev Scan (α : Type) := StateT (List Char) Option α

namespace Scan

variable {α β : Type}

def satisfy (p : Char → Bool) : Scan Char
  | c :: s => if p c then some (c, s) else none
  | [] => none

def char (c : Char) : Scan Unit := do
  let _ ← satisfy (· == c)

def chars : List Char → Scan Unit
  | [] => pure ()
  | c :: cs => do
    char c
    chars cs

def takeWhile (p : Char → Bool) : Scan (List Char) := fun s => some (s.takeWhile p, s.dropWhile p)

def takeWhile1 (p : Char → Bool) : Scan (List Char) := do
  let run ← takeWhile p
  if run.isEmpty then failure else return run

def count (p : Char → Bool) : Nat → Scan (List Char)
  | 0 => pure []
  | n + 1 => do
    let c ← satisfy p
    return c :: (← count p n)

def optional (p : Scan α) : Scan (Option α) := (some <$> p) <|> pure none

def atEnd : Scan Unit := fun s => if s.isEmpty then some ((), s) else none

def repeated (p : Scan α) (s : List Char) : List α × List Char :=
  match p s with
  | none => ([], s)
  | some (a, rest) =>
    if _h : rest.length < s.length then
      let (as, rest) := repeated p rest
      (a :: as, rest)
    else ([], s)
termination_by s.length

def many (p : Scan α) : Scan (List α) := fun s => some (repeated p s)

def sepBy1 (p : Scan α) (separator : Scan β) : Scan (List α) := do
  let first ← p
  return first :: (← many (separator *> p))

def sepBy (p : Scan α) (separator : Scan β) : Scan (List α) := sepBy1 p separator <|> pure []

def whole (p : Scan α) (s : List Char) : Option α := (p <* atEnd).run' s

end Scan

end PlcMachine.Toml
