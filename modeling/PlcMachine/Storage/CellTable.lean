import PlcMachine.Address.Access
import PlcMachine.Storage.Value

/-! # Cell tables

Timers and counters are tables of 16-bit cells. The byte number of an address is the number of the
cell, and only whole cells are accessed.
-/

namespace PlcMachine

structure CellTable where
  cells : Array UInt16
deriving DecidableEq, Repr

namespace CellTable

def zeroed (n : Nat) : CellTable := ⟨Array.replicate n 0⟩

def size (t : CellTable) : Nat := t.cells.size

def resize (t : CellTable) (n : Nat) : CellTable :=
  ⟨t.cells.extract 0 n ++ Array.replicate (n - t.size) 0⟩

def check (t : CellTable) (a : Access) : Except AccessError Unit :=
  if a.width ≠ 16 then .error (.invalidWidth a.area a.width)
  else if a.offset.bit ≠ 0 ∨ t.size ≤ a.offset.byte.toNat then .error (.outOfRange a t.size)
  else .ok ()

def read (t : CellTable) (a : Access) : Except AccessError Value := do
  t.check a
  return .scalar (t.cells.getD a.offset.byte.toNat 0).toUInt32

def write (t : CellTable) (a : Access) (v : Value) : Except AccessError CellTable := do
  t.check a
  match v with
  | .scalar n =>
    if n.toNat < UInt16.size then return ⟨t.cells.setIfInBounds a.offset.byte.toNat n.toUInt16⟩
    else throw (.valueMismatch a.width)
  | .bytes _ => throw (.valueMismatch a.width)

end CellTable

end PlcMachine
