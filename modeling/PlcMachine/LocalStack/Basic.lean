import PlcMachine.LocalStack.Cursor
import PlcMachine.Storage.ByteStore

/-! # Local stacks

The local data of one frame. The lowest bytes hold the temporaries that the block declares, the bytes
above them are handed out while the frame calls others. Contents outlive the frame that wrote them.
-/

namespace PlcMachine

structure LocalStack where
  bytes : ByteStore
  cursor : Cursor
deriving DecidableEq, Repr

namespace LocalStack

def zeroed (capacity : UInt32) : LocalStack := ⟨.zeroed capacity.toNat, ⟨0, none⟩⟩

def capacity (s : LocalStack) : Nat := s.bytes.size

def used (s : LocalStack) : Nat := s.cursor.next

/-- Adopts a capacity and reserves the lowest bytes. The contents stay. -/
def reset (s : LocalStack) (capacity reserved : UInt32) : Except LocalStackError LocalStack :=
  if capacity < reserved then
    .error (.reservationTooLarge reserved.toNat capacity.toNat)
  else .ok ⟨s.bytes.resize capacity.toNat, ⟨reserved.toNat, none⟩⟩

def allocate (s : LocalStack) (width : UInt32) :
    Except LocalStackError (BitAddress × LocalStack) := do
  let (a, cursor) ← s.cursor.allocate s.capacity width
  return (a, { s with cursor })

def rewind (s : LocalStack) (mark : Cursor) : LocalStack := { s with cursor := mark }

def read (s : LocalStack) (a : Access) : Except AccessError Value := s.bytes.read a

def write (s : LocalStack) (a : Access) (v : Value) : Except AccessError LocalStack := do
  return { s with bytes := ← s.bytes.write a v }

end LocalStack

end PlcMachine
