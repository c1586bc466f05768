import PlcMachine.Toml.Text
import PlcMachine.Toml.Value

/-! # Unquoted TOML values

Numbers, truth values, dates and times are written without quotes. Such a value is a run of
characters that is read as a whole; a date may be followed by a blank and a time.
-/

namespace PlcMachine.Toml

open Scan

/-- The digits of a number whose underscores each stand between two digits. -/
def ungroup (isDigit : Char → Bool) : List Char → Option (List Char)
  | [] => none
  | [c] => if isDigit c then some [c] else none
  | c :: '_' :: rest => if isDigit c then (ungroup isDigit rest).map (c :: ·) else none
  | c :: rest => if isDigit c then (ungroup isDigit rest).map (c :: ·) else none

def decimal (cs : List Char) : Option Nat :=
  match ungroup Char.isDigit cs with
  | some ('0' :: _ :: _) => none
  | some digits => some (ofDigits 10 digits)
  | none => none

def splitSign : List Char → Int × List Char
  | '+' :: cs => (1, cs)
  | '-' :: cs => (-1, cs)
  | cs => (1, cs)

def wholeNumber : List Char → Option Int
  | '0' :: 'x' :: cs => (ungroup isHexDigit cs).map fun ds => ofDigits 16 ds
  | '0' :: 'o' :: cs => (ungroup (fun c => '0' ≤ c && c ≤ '7') cs).map fun ds => ofDigits 8 ds
  | '0' :: 'b' :: cs => (ungroup (fun c => c == '0' || c == '1') cs).map fun ds => ofDigits 2 ds
  | cs => (decimal (splitSign cs).2).map fun n => (splitSign cs).1 * n

def integer? (cs : List Char) : Option Int :=
  (wholeNumber cs).filter fun n => Int64.minValue.toInt ≤ n ∧ n ≤ Int64.maxValue.toInt

def isGrouped (c : Char) : Bool := c.isDigit || c == '_'

def exponent : List Char → Option Int
  | [] => some 0
  | 'e' :: cs | 'E' :: cs =>
    (ungroup Char.isDigit (splitSign cs).2).map fun ds => (splitSign cs).1 * ofDigits 10 ds
  | _ => none

def scaled (cs : List Char) : Option (List Char × Int) := do
  let (integral, rest) := cs.span isGrouped
  let _ ← decimal integral
  let ds ← ungroup Char.isDigit integral
  match rest with
  | [] => none
  | '.' :: rest =>
    let (fraction, rest) := rest.span isGrouped
    let fs ← ungroup Char.isDigit fraction
    return (ds ++ fs, (← exponent rest) - fs.length)
  | _ => return (ds, ← exponent rest)

/-- The least number that is closer to `2 ^ 1024` than to any finite double. -/
def doubleBound : Nat := 1 <<< 1024 - 1 <<< 970

/-- A scaled number that no finite double approximates. The count of its digits decides most cases,
so that no large power is taken. -/
def isHuge (digits : List Char) (scale : Int) : Bool :=
  let n := ofDigits 10 digits
  let length := (digits.dropWhile (· == '0')).length + scale
  n != 0 && decide (308 < length) &&
    (decide (310 < length) ||
      decide (doubleBound * Nat.pow 10 (-scale).toNat ≤ n * Nat.pow 10 scale.toNat))

/-- A float: an infinity, not a number, or a decimal with a fraction or an exponent. A decimal without
a minus sign must not round to infinity. -/
def isFloat (cs : List Char) : Bool :=
  let unsigned := (splitSign cs).2
  unsigned == ['i', 'n', 'f'] || unsigned == ['n', 'a', 'n'] ||
    match scaled unsigned with
    | some (digits, scale) => (splitSign cs).1 < 0 || !isHuge digits scale
    | none => false

def bounded (digits low high : Nat) : Scan Nat := do
  let n := ofDigits 10 (← count Char.isDigit digits)
  if low ≤ n ∧ n ≤ high then return n else failure

def daysInMonth (year month : Nat) : Nat :=
  if month = 2 then (if year % 4 = 0 ∧ (year % 100 ≠ 0 ∨ year % 400 = 0) then 29 else 28)
  else if month ∈ [4, 6, 9, 11] then 30
  else 31

def date : Scan Unit := do
  let year ← bounded 4 0 9999
  char '-'
  let month ← bounded 2 1 12
  char '-'
  let _ ← bounded 2 1 (daysInMonth year month)

def time : Scan Unit := do
  let _ ← bounded 2 0 23
  char ':'
  let _ ← bounded 2 0 59
  char ':'
  let _ ← bounded 2 0 60
  let _ ← Scan.optional (char '.' *> takeWhile1 Char.isDigit)

def zone : Scan Unit :=
  char 'Z' <|> char 'z' <|> do
    char '+' <|> char '-'
    let _ ← bounded 2 0 23
    char ':'
    let _ ← bounded 2 0 59

def dateTime : Scan Unit :=
  (do
    date
    let _ ← Scan.optional do
      char 'T' <|> char 't' <|> char ' '
      time
      let _ ← Scan.optional zone) <|>
  time

def ofPlain (cs : List Char) : Option Value :=
  if cs = ['t', 'r', 'u', 'e'] then some (.boolean true)
  else if cs = ['f', 'a', 'l', 's', 'e'] then some (.boolean false)
  else if (whole dateTime cs).isSome then some (.dateTime (.ofList cs))
  else if isFloat cs then some (.float (.ofList cs))
  else (integer? cs).map .integer

def isPlain (c : Char) : Bool := c.isAlphanum || c ∈ ['+', '-', '_', '.', ':']

def timeAfter (cs : List Char) : Scan (List Char) := do
  if (whole date cs).isNone then return []
  let more ← Scan.optional (char ' ' *> takeWhile1 isPlain)
  return (more.map (' ' :: ·)).getD []

def plain : Scan Value := do
  let cs ← takeWhile1 isPlain
  let more ← timeAfter cs
  match ofPlain (cs ++ more) with
  | some v => return v
  | none => failure

end PlcMachine.Toml
