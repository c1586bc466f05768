import PlcMachine.Cpu.Specs
import PlcMachine.Storage.ByteStore
import PlcMachine.Storage.CellTable

/-! # Global memory

The areas that every frame sees alike: process image, flags, peripherals, timers, counters and the
data blocks. Local and instance data need the active frame and the registers, so they are not
reachable here.
-/

namespace PlcMachine

structure DataBlock where
  number : UInt16
  bytes : ByteStore
deriving DecidableEq, Repr

structure Memory where
  inputs : ByteStore
  outputs : ByteStore
  flags : ByteStore
  peripheralIn : ByteStore
  peripheralOut : ByteStore
  timers : CellTable
  counters : CellTable
  blocks : List DataBlock
deriving DecidableEq, Repr

namespace DataBlock

def zeroed (number : UInt16) (size : Nat) : DataBlock := ⟨number, .zeroed size⟩

def insertInto (block : DataBlock) : List DataBlock → List DataBlock
  | [] => [block]
  | b :: bs => if b.number = block.number then block :: bs else b :: block.insertInto bs

end DataBlock

namespace Memory

def ofSpecs (specs : Specs) : Memory where
  inputs := .zeroed specs.inputBytes.toNat
  outputs := .zeroed specs.outputBytes.toNat
  flags := .zeroed specs.flagBytes.toNat
  peripheralIn := .zeroed specs.inputBytes.toNat
  peripheralOut := .zeroed specs.outputBytes.toNat
  timers := .zeroed specs.timers.toNat
  counters := .zeroed specs.counters.toNat
  blocks := []

/-- Adopts new dimensions. Contents stay where they still fit, and data blocks stay as they are. -/
def resize (m : Memory) (specs : Specs) : Memory where
  inputs := m.inputs.resize specs.inputBytes.toNat
  outputs := m.outputs.resize specs.outputBytes.toNat
  flags := m.flags.resize specs.flagBytes.toNat
  peripheralIn := m.peripheralIn.resize specs.inputBytes.toNat
  peripheralOut := m.peripheralOut.resize specs.outputBytes.toNat
  timers := m.timers.resize specs.timers.toNat
  counters := m.counters.resize specs.counters.toNat
  blocks := m.blocks

def block? (m : Memory) (number : UInt16) : Option DataBlock :=
  m.blocks.find? (fun b => b.number = number)

def block (m : Memory) (number : UInt16) : Except AccessError DataBlock :=
  match m.block? number with
  | some b => .ok b
  | none => .error (.noSuchBlock number)

def setBlock (m : Memory) (b : DataBlock) : Memory := { m with blocks := b.insertInto m.blocks }

def addBlock (m : Memory) (number : UInt16) (size : Nat) : Memory :=
  m.setBlock (.zeroed number size)

def checkBlock (m : Memory) (number : UInt16) (offset : BitAddress) (width : UInt32) :
    Except AccessError Unit := do
  let b ← m.block number
  Access.check ⟨.dataBlock number, offset, width⟩ b.bytes.size

def read (m : Memory) (a : Access) : Except AccessError Value :=
  match a.area with
  | .input => m.inputs.read a
  | .output => m.outputs.read a
  | .flag => m.flags.read a
  | .peripheralIn => m.peripheralIn.read a
  | .peripheralOut => m.peripheralOut.read a
  | .timer => m.timers.read a
  | .counter => m.counters.read a
  | .dataBlock number => do (← m.block number).bytes.read a
  | .localData | .outerData | .instanceData => .error .noActiveFrame

def write (m : Memory) (a : Access) (v : Value) : Except AccessError Memory :=
  match a.area with
  | .input => do return { m with inputs := ← m.inputs.write a v }
  | .output => do return { m with outputs := ← m.outputs.write a v }
  | .flag => do return { m with flags := ← m.flags.write a v }
  | .peripheralIn => do return { m with peripheralIn := ← m.peripheralIn.write a v }
  | .peripheralOut => do return { m with peripheralOut := ← m.peripheralOut.write a v }
  | .timer => do return { m with timers := ← m.timers.write a v }
  | .counter => do return { m with counters := ← m.counters.write a v }
  | .dataBlock number => do
    let b ← m.block number
    return m.setBlock ⟨number, ← b.bytes.write a v⟩
  | .localData | .outerData | .instanceData => .error .noActiveFrame

end Memory

end PlcMachine
