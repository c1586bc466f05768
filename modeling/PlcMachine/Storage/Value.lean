import PlcMachine.Text.Hex
import PlcMachine.Storage.BigEndian

/-! # Values

What an access reads or writes. Widths of 1, 8, 16 and 32 bits are read as a number, all others as
bytes. A value fits a width if it can be written there without loss.
-/

namespace PlcMachine

inductive Value where
  | scalar (n : UInt32)
  | bytes (bs : List UInt8)
deriving DecidableEq, Repr

namespace Value

def scalar? : Value → Option UInt32
  | .scalar n => some n
  | .bytes _ => none

def bytes? : Value → Option (List UInt8)
  | .scalar _ => none
  | .bytes bs => some bs

/-- How many numbers a width tells apart. Widths other than 1, 8, 16 and 32 hold no number. -/
def scalarBound (width : UInt32) : Nat :=
  if width = 1 then 2
  else if width = 8 then UInt8.size
  else if width = 16 then UInt16.size
  else if width = 32 then UInt32.size
  else 0

/-- A number fits a width that holds it, and bytes fit exactly the width they fill. -/
def Fits (v : Value) (width : UInt32) : Prop :=
  match v with
  | .scalar n => n.toNat < scalarBound width
  | .bytes bs => 8 * bs.length = width.toNat

instance (v : Value) (width : UInt32) : Decidable (v.Fits width) :=
  match v with
  | .scalar n => inferInstanceAs (Decidable (n.toNat < scalarBound width))
  | .bytes bs => inferInstanceAs (Decidable (8 * bs.length = width.toNat))

def toBytes (v : Value) (count : Nat) : List UInt8 :=
  match v with
  | .scalar n => BigEndian.encode count n.toNat
  | .bytes bs => bs

/-- The value that a location of more than one bit holds, given its bytes. -/
def ofBytes (bytes : List UInt8) : Value :=
  if bytes.length ∈ [1, 2, 4] then .scalar (.ofNat (BigEndian.decode bytes)) else .bytes bytes

def text : Value → String
  | .scalar n => toString n.toNat
  | .bytes bs => "B#(" ++ ", ".intercalate (bs.map Hex.byte) ++ ")"

end Value

end PlcMachine
