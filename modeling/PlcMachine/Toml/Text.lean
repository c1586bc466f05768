import PlcMachine.Text.Number
import PlcMachine.Toml.Blank

/-! # TOML strings

Basic strings have escapes, literal strings have none, and both may span lines if their quotes are
tripled. A run of three to five quotes ends such a string, the surplus quotes belonging to it.
-/

namespace PlcMachine.Toml

open Scan

def isHexDigit (c : Char) : Bool :=
  c.isDigit || ('a' ≤ c && c ≤ 'f') || ('A' ≤ c && c ≤ 'F')

def codePoint (digits : Nat) : Scan Char := do
  let n := ofDigits 16 (← count isHexDigit digits)
  if n.isValidChar then return .ofNat n else failure

def escape : Scan Char := do
  char '\\'
  match ← satisfy (fun _ => true) with
  | 'b' => return '\x08'
  | 't' => return '\t'
  | 'n' => return '\n'
  | 'f' => return '\x0c'
  | 'r' => return '\r'
  | '"' => return '"'
  | '\\' => return '\\'
  | 'u' => codePoint 4
  | 'U' => codePoint 8
  | _ => failure

def plainBasic : Scan Char := satisfy (fun c => isText c && c != '"' && c != '\\')

def plainLiteral : Scan Char := satisfy (fun c => isText c && c != '\'')

def basicString : Scan String := do
  char '"'
  let cs ← many (plainBasic <|> escape)
  char '"'
  return .ofList cs

def literalString : Scan String := do
  char '\''
  let cs ← many plainLiteral
  char '\''
  return .ofList cs

def innerQuotes (quote : Char) : Scan (List Char) := do
  let run ← takeWhile1 (· == quote)
  if run.length ≤ 2 then return run else failure

/-- The quotes that end a string whose quotes are tripled. The surplus is part of the string. -/
def closingQuotes (quote : Char) : Scan (List Char) := do
  let run ← takeWhile1 (· == quote)
  if 3 ≤ run.length ∧ run.length ≤ 5 then return run.drop 3 else failure

def lineContinuation : Scan Unit := do
  char '\\'
  blanks
  newline
  let _ ← many ((do let _ ← satisfy isBlank) <|> newline)

/-- A string whose quotes are tripled. A line end right behind the first quotes is dropped, and all
line ends are read as line feeds. -/
def multiline (quote : Char) (piece : Scan (List Char)) : Scan String := do
  chars [quote, quote, quote]
  let _ ← Scan.optional newline
  let pieces ← many (piece <|> ((fun _ => ['\n']) <$> newline) <|> innerQuotes quote)
  let surplus ← closingQuotes quote
  return .ofList (pieces.flatten ++ surplus)

def multilineBasic : Scan String :=
  multiline '"' ((List.singleton <$> plainBasic) <|> ((fun _ => []) <$> lineContinuation) <|>
    (List.singleton <$> escape))

def multilineLiteral : Scan String := multiline '\'' (List.singleton <$> plainLiteral)

def string : Scan String := multilineBasic <|> basicString <|> multilineLiteral <|> literalString

end PlcMachine.Toml
