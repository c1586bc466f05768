/-! # Hexadecimal bytes

A byte is written as two upper-case hexadecimal digits.
-/

namespace PlcMachine.Hex

def digit (n : Nat) : Char :=
  if n < 10 then Char.ofNat ('0'.toNat + n) else Char.ofNat ('A'.toNat + (n - 10))

def byte (b : UInt8) : String := String.ofList [digit (b.toNat / 16), digit (b.toNat % 16)]

end PlcMachine.Hex
