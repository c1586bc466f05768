import PlcMachine.Toml.Scan

/-! # Blanks, line ends and comments

The parts of a TOML document that carry no data. Lines end in a line feed, with or without a carriage
return before it, and comments hold no control characters but tabs.
-/

namespace PlcMachine.Toml

open Scan

def isNonAscii (c : Char) : Bool := 0x80 ≤ c.toNat

/-- A printable ASCII character, a tab or a character beyond ASCII. -/
def isText (c : Char) : Bool := c == '\t' || (0x20 ≤ c.toNat && c.toNat ≤ 0x7E) || isNonAscii c

def isBlank (c : Char) : Bool := c == ' ' || c == '\t'

def blanks : Scan Unit := do
  let _ ← takeWhile isBlank

def newline : Scan Unit := char '\n' <|> chars ['\r', '\n']

def comment : Scan Unit := do
  char '#'
  let _ ← takeWhile isText

def lineRest : Scan Unit := do
  blanks
  let _ ← Scan.optional comment
  newline <|> atEnd

def gap : Scan Unit := do
  blanks
  let _ ← many ((newline <|> (comment *> newline)) *> blanks)

end PlcMachine.Toml
