import PlcMachine.Program.Block
import PlcMachine.Storage.ByteStore

/-! # Operands

An operand is a constant, a location in memory, a block, or a formal parameter of the block that the
instruction stands in. Operands say where data is and never hold memory themselves.
-/

namespace PlcMachine

/-- A location in memory and whether it holds a structure, array or string. -/
structure Location extends Access where
  compound : Bool
deriving DecidableEq, Repr

inductive Operand where
  | immediate (value : Value) (width : UInt32) (compound : Bool)
  | memory (location : Location)
  | block (kind : BlockKind) (number : UInt16)
  /-- A formal parameter of the active stateless block, by declaration index. -/
  | slot (index : UInt32)
deriving DecidableEq, Repr

namespace Location

def inArea (l : Location) (area : Area) : Location := { l with area }

end Location

namespace Operand

def immediateBytes (bytes : List UInt8) : Operand :=
  .immediate (.bytes bytes) (.ofNat (8 * bytes.length)) true

/-- The operand is a structure, array or string, which is passed by pointer and not by copy. -/
def isCompound : Operand → Bool
  | .immediate _ _ compound => compound
  | .memory l => l.compound
  | .block _ _ | .slot _ => false

def width? : Operand → Option UInt32
  | .immediate _ width _ => some width
  | .memory l => some l.width
  | .block _ _ => some 16
  | .slot _ => none

def isImmediate : Operand → Bool
  | .immediate _ _ _ => true
  | _ => false

def location? : Operand → Option Location
  | .memory l => some l
  | _ => none

def validate : Operand → Except AccessError Unit
  | .immediate value width _ => if value.Fits width then .ok () else .error (.valueMismatch width)
  | .memory l => l.checkShape
  | .block _ _ | .slot _ => .ok ()

def text : Operand → String
  | .immediate value width _ => s!"#{value.text} ({width.toNat} bits)"
  | .memory l =>
    s!"{l.area.text} {l.offset.text} ({l.width.toNat} bits" ++ (if l.compound then ", compound)" else ")")
  | .block kind number => s!"{kind.text} {number.toNat}"
  | .slot index => s!"#P{index.toNat}"

end Operand

end PlcMachine
