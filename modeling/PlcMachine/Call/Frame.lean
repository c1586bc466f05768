import PlcMachine.LocalStack.Basic
import PlcMachine.Program.CallSite
import PlcMachine.Program.Pointer

/-! # Frames

A frame is one activation of a block. It owns its local data until it is left and remembers what
leaving it has to restore: the caller's registers, the caller's allocation cursor, and the outputs
that go back to their actuals.
-/

namespace PlcMachine

structure Registers where
  /-- Number of the open shared data block. -/
  db : UInt16
  /-- Number of the open instance data block. -/
  di : UInt16
  /-- Area pointer to the base of the instance. -/
  ar2 : UInt32
deriving DecidableEq, Repr

structure InstanceData where
  block : UInt16
  base : BitAddress
deriving DecidableEq, Repr

/-- Where the final value of an output is found when a frame is left. -/
inductive WriteBackSource where
  | instanceData (block : UInt16) (offset : BitAddress)
  | callerStack (offset : BitAddress)
deriving DecidableEq, Repr

structure Outbound where
  parameter : Parameter
  /-- The actual as the caller names it. It is no formal parameter of the caller. -/
  actual : Operand
  source : WriteBackSource
  width : UInt32
deriving DecidableEq, Repr

/-- The operands that the formal parameters of a stateless frame stand for, by declaration index. -/
abbrev Slots := List (UInt32 × Operand)

inductive FrameState where
  | active
  | exiting
deriving DecidableEq, Repr

/-- One activation of a block. -/
structure Frame where
  block : Block
  ip : Nat
  raw : Bool
  saved : Registers
  instanceData : Option InstanceData
  stack : LocalStack
  outbound : List Outbound
  /-- Present in frames of stateless blocks that were called with parameters. -/
  slots : Option Slots
  /-- The caller's allocation cursor before the call. -/
  callerMark : Option Cursor
  state : FrameState
deriving DecidableEq, Repr

namespace Registers

def zero : Registers := ⟨0, 0, 0⟩

def instanceBase (r : Registers) : BitAddress := .ofPointer r.ar2

def setInstanceBase (r : Registers) (base : BitAddress) : Registers :=
  { r with ar2 := Pointer.areaPointer ⟨0, .dataBlock, base⟩ }

end Registers

namespace Frame

def slot? (f : Frame) (index : UInt32) : Option Operand := f.slots.bind (·.lookup index)

def beginExit (f : Frame) : Frame := { f with state := .exiting }

/-- The frame with everything given back that its callees took of its local data. -/
def rewind (f : Frame) (mark : Cursor) : Frame := { f with stack := f.stack.rewind mark }

end Frame

end PlcMachine
