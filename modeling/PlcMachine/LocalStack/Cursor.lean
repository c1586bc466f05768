import PlcMachine.Address.BitAddress

/-! # Allocation in local data

Local data is handed out from the bottom up. Single bits share a byte until it is full, wider slots
take whole bytes, and slots of more than 8 bits start at an even byte. A cursor holds how far the
allocation has come, so going back to an earlier cursor gives back what was handed out since.

Positions and widths are numbers of 32 bits. Where the number of bytes in use and the alignment, or the
width and 7, add up to more, the program stops with an arithmetic overflow.
-/

namespace PlcMachine

inductive LocalStackError where
  | reservationTooLarge (requested capacity : Nat)
  | exhausted (width : UInt32) (used capacity : Nat)
  /-- The program stops at a sum that has no 32 bits. -/
  | overflow
deriving DecidableEq, Repr

def LocalStackError.isOverflow : LocalStackError → Bool
  | .overflow => true
  | _ => false

def LocalStackError.message : LocalStackError → String
  | .reservationTooLarge requested capacity =>
    s!"{requested} bytes of temporaries do not fit the {capacity}-byte local stack"
  | .exhausted width used capacity =>
    s!"no room for {width.toNat} bits: {used} of {capacity} bytes in use"
  | .overflow => "attempt to add with overflow"

structure Cursor where
  /-- Number of bytes handed out. -/
  next : Nat
  /-- The last single bit handed out. -/
  bit : Option BitAddress
deriving DecidableEq, Repr

namespace Cursor

/-- The bit behind the last single bit, while both are in the same byte. -/
def sharedBit? (c : Cursor) : Option BitAddress :=
  match c.bit with
  | some a => if a.bit < 7 then some ⟨a.byte, a.bit + 1⟩ else none
  | none => none

def aligned (c : Cursor) (alignment : Nat) : Nat := (c.next + alignment - 1) / alignment * alignment

def takeBytes (c : Cursor) (capacity : Nat) (width : UInt32) (count alignment : Nat) :
    Except LocalStackError (BitAddress × Cursor) :=
  let start := c.aligned alignment
  if UInt32.size ≤ c.next + alignment then .error .overflow
  else if start + count ≤ capacity then .ok (.ofByte (.ofNat start), { c with next := start + count })
  else .error (.exhausted width c.next capacity)

def takeBit (c : Cursor) (capacity : Nat) : Except LocalStackError (BitAddress × Cursor) :=
  match c.sharedBit? with
  | some a => .ok (a, { c with bit := some a })
  | none => do
    let (a, c) ← c.takeBytes capacity 1 1 1
    return (a, { c with bit := some a })

def allocate (c : Cursor) (capacity : Nat) (width : UInt32) :
    Except LocalStackError (BitAddress × Cursor) :=
  if width = 1 then c.takeBit capacity
  else if UInt32.size ≤ width.toNat + 7 then .error .overflow
  else c.takeBytes capacity width ((width.toNat + 7) / 8) (if 8 < width then 2 else 1)

end Cursor

end PlcMachine
