import PlcMachine.Address.Area
import PlcMachine.Address.BitAddress
import PlcMachine.Text.Hex

/-! # Accesses

An access is a bit address in an area together with a width. A width is one bit or a whole number of
bytes, and only a one-bit access may start inside a byte. `AccessError` lists why an access can fail.
-/

namespace PlcMachine

structure Access where
  area : Area
  offset : BitAddress
  width : UInt32
deriving DecidableEq, Repr

inductive PointerFault where
  | wrongLength (length : Nat)
  | unknownArea (code : UInt8)
  | scalar
  /-- The pointer leads into a data block but its block number is 0. -/
  | noBlockNumber
  | baseOutOfReach (base : BitAddress)
deriving DecidableEq, Repr

inductive AccessError where
  | outOfRange (access : Access) (size : Nat)
  | noSuchBlock (number : UInt16)
  | invalidWidth (area : Area) (width : UInt32)
  | misaligned (access : Access)
  | valueMismatch (width : UInt32)
  | noActiveFrame
  | noOuterFrame
  | constantStore
  | unboundSlot (index : UInt32)
  | invalidPointer (fault : PointerFault)
deriving DecidableEq, Repr

namespace PointerFault

def text : PointerFault → String
  | .wrongLength length => s!"expected 6 bytes, got {length}"
  | .unknownArea code => s!"unknown area code 0x{Hex.byte code}"
  | .scalar => "a scalar is not a pointer"
  | .noBlockNumber => "data block pointer without a block number"
  | .baseOutOfReach base => s!"instance base {base.text} is beyond the area pointer range"

end PointerFault

namespace AccessError

def message : AccessError → String
  | .outOfRange a size =>
    s!"{a.area.text} {a.offset.text} ({a.width.toNat} bits) is outside the {size}-byte area"
  | .noSuchBlock number => s!"data block {number.toNat} does not exist"
  | .invalidWidth area width => s!"width of {width.toNat} bits is not addressable in {area.text}"
  | .misaligned a =>
    s!"{a.width.toNat}-bit access to {a.area.text} {a.offset.text} must be byte aligned"
  | .valueMismatch width => s!"value does not fit a {width.toNat}-bit location"
  | .noActiveFrame => "local data accessed without an active frame"
  | .noOuterFrame => "outer local data accessed from the outermost frame"
  | .constantStore => "cannot store into a constant operand"
  | .unboundSlot index => s!"interface field {index.toNat} has no binding in the active frame"
  | .invalidPointer fault => s!"invalid pointer: {fault.text}"

end AccessError

namespace Access

def ValidWidth (a : Access) : Prop := a.width = 1 ∨ (a.width ≠ 0 ∧ a.width.toNat % 8 = 0)

/-- A bit of the byte for a one-bit access, and the start of the byte for every other. -/
def Aligned (a : Access) : Prop := a.offset.bit ≤ 7 ∧ (a.width = 1 ∨ a.offset.bit = 0)

instance (a : Access) : Decidable a.ValidWidth :=
  inferInstanceAs (Decidable (_ ∨ _))

instance (a : Access) : Decidable a.Aligned :=
  inferInstanceAs (Decidable (_ ∧ _))

def byteLength (a : Access) : Nat := if a.width = 1 then 1 else a.width.toNat / 8

def byteEnd (a : Access) : Nat := a.offset.byte.toNat + a.byteLength

def checkShape (a : Access) : Except AccessError Unit :=
  if ¬ a.ValidWidth then .error (.invalidWidth a.area a.width)
  else if ¬ a.Aligned then .error (.misaligned a)
  else .ok ()

/-- Checks the shape and then that the access ends within an area of `size` bytes. -/
def check (a : Access) (size : Nat) : Except AccessError Unit := do
  a.checkShape
  if size < a.byteEnd then throw (.outOfRange a size)

end Access

end PlcMachine
