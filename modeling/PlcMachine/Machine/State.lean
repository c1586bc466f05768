import PlcMachine.Call.Error
import PlcMachine.Call.Frame
import PlcMachine.LocalStack.Pool
import PlcMachine.Storage.Memory

/-! # Machine states

A controller consists of registers, a stack of frames, global memory and a pool of local stacks.
Operands are read and written as the active frame sees them.
-/

namespace PlcMachine

structure Machine where
  specs : Specs
  registers : Registers
  /-- The frames, the active one first and the one entered first last. -/
  frames : List Frame
  memory : Memory
  pool : Pool
deriving DecidableEq, Repr

namespace Machine

def ofSpecs (id : MachineId) (specs : Specs) : Machine where
  specs := specs
  registers := .zero
  frames := []
  memory := .ofSpecs specs
  pool := .empty id specs.localBytes

def id (m : Machine) : MachineId := m.pool.owner

def depth (m : Machine) : Nat := m.frames.length

def readAccess (m : Machine) (a : Access) : Except AccessError Value :=
  match a.area, m.frames with
  | .localData, f :: _ => f.stack.read a
  | .localData, [] => .error .noActiveFrame
  | .outerData, _ :: f :: _ => f.stack.read a
  | .outerData, [_] => .error .noOuterFrame
  | .outerData, [] => .error .noActiveFrame
  | .instanceData, _ => m.memory.read { a with area := .dataBlock m.registers.di }
  | _, _ => m.memory.read a

def writeAccess (m : Machine) (a : Access) (v : Value) : Except AccessError Machine :=
  match a.area, m.frames with
  | .localData, f :: rest => do
    return { m with frames := { f with stack := ← f.stack.write a v } :: rest }
  | .localData, [] => .error .noActiveFrame
  | .outerData, g :: f :: rest => do
    return { m with frames := g :: { f with stack := ← f.stack.write a v } :: rest }
  | .outerData, [_] => .error .noOuterFrame
  | .outerData, [] => .error .noActiveFrame
  | .instanceData, _ => do
    return { m with memory := ← m.memory.write { a with area := .dataBlock m.registers.di } v }
  | _, _ => do return { m with memory := ← m.memory.write a v }

def slot (m : Machine) (index : UInt32) : Except AccessError Operand :=
  match m.frames.head?.bind (·.slot? index) with
  | some op => .ok op
  | none => .error (.unboundSlot index)

def unslot (m : Machine) : Operand → Except AccessError Operand
  | .slot index => m.slot index
  | op => .ok op

/-- The value of an operand. What a formal parameter stands for is itself no formal parameter. -/
def fetch (m : Machine) (op : Operand) : Except AccessError Value := do
  match ← m.unslot op with
  | .immediate value _ _ => return value
  | .block _ number => return .scalar number.toUInt32
  | .memory l => m.readAccess l.toAccess
  | .slot index => throw (.unboundSlot index)

def store (m : Machine) (op : Operand) (v : Value) : Except AccessError Machine := do
  match ← m.unslot op with
  | .immediate _ _ _ | .block _ _ => throw .constantStore
  | .memory l => m.writeAccess l.toAccess v
  | .slot index => throw (.unboundSlot index)

def resolve (m : Machine) (op : Operand) : Except AccessError Value := do
  op.validate
  m.fetch op

def resolveSlot (m : Machine) (index : UInt32) : Except CallError Operand :=
  match m.frames with
  | [] => .error .emptyStack
  | f :: _ =>
    match f.slot? index with
    | some op => .ok op
    | none => .error (.unresolvedSlot f.block.label f.ip index)

def instanceAccess (m : Machine) (p : Parameter) (width : UInt32) : Access :=
  ⟨.dataBlock m.registers.di, m.registers.instanceBase + p.offset, width⟩

def parameterOperand (m : Machine) (p : Parameter) : Operand :=
  .memory ⟨m.instanceAccess p p.width, p.compound⟩

def fetchParameter (m : Machine) (p : Parameter) : Except AccessError Value :=
  m.fetch (m.parameterOperand p)

def storeParameter (m : Machine) (p : Parameter) (v : Value) : Except AccessError Machine :=
  m.store (m.parameterOperand p) v

def follow (m : Machine) (pointer : Operand) (width : UInt32) (compound : Bool) :
    Except AccessError Location := do
  (← Pointer.ofValue (← m.fetch pointer)).target width compound

def followParameter (m : Machine) (p : Parameter) : Except AccessError Location :=
  m.follow (.memory ⟨m.instanceAccess p Pointer.width, false⟩) p.width p.compound

def openBlock (m : Machine) (number : UInt16) : Except AccessError Machine := do
  let _ ← m.memory.block number
  return { m with registers := { m.registers with db := number } }

def setIp (m : Machine) (ip : Nat) : Machine :=
  match m.frames with
  | [] => m
  | f :: rest => { m with frames := { f with ip } :: rest }

/-- Adopts new dimensions. Frames keep their local stacks, and the pool drops its own. -/
def reconfigure (m : Machine) (specs : Specs) : Except SpecsFault Machine := do
  specs.validate
  return { m with
    specs
    memory := m.memory.resize specs
    pool := m.pool.reconfigure specs.localBytes }

end Machine

end PlcMachine
