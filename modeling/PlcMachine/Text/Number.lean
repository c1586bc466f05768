/-! # Numbers as text

Digits stand for a number in some radix. A number that stands alone, as in an environment variable, is
decimal and in ASCII digits. White space, as may stand around it, is what has the Unicode property
`White_Space`.
-/

namespace PlcMachine

/-- The number with the given digits. Letters stand for the digits from ten on, in either case. -/
def ofDigits (radix : Nat) (digits : List Char) : Nat :=
  digits.foldl (fun n c => radix * n + (c.toLower.toNat - if c.isDigit then 48 else 87)) 0

def isSpace (c : Char) : Bool :=
  let n := c.toNat
  (9 ≤ n && n ≤ 13) || n == 0x20 || n == 0x85 || n == 0xA0 || n == 0x1680 ||
    (0x2000 ≤ n && n ≤ 0x200A) || n == 0x2028 || n == 0x2029 || n == 0x202F || n == 0x205F ||
    n == 0x3000

def trimSpace (text : String) : String :=
  .ofList ((text.toList.dropWhile isSpace).reverse.dropWhile isSpace).reverse

/-- A decimal number below `bound`: ASCII digits, with or without a plus sign before them. -/
def readNumber (bound : Nat) (text : String) : Option Nat :=
  let digits := match text.toList with
    | '+' :: cs => cs
    | cs => cs
  if digits ≠ [] ∧ digits.all Char.isDigit then
    if ofDigits 10 digits < bound then some (ofDigits 10 digits) else none
  else none

end PlcMachine
