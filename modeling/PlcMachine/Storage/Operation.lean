import PlcMachine.Storage.Memory

/-! # Operations on global memory

Everything a client can ask of the global memory, as data. An operation answers with a reply or an
error and with the memory it leaves behind; one that fails leaves the memory as it was.
-/

namespace PlcMachine

inductive MemoryOperation where
  | read (access : Access)
  | write (access : Access) (value : Value)
  | addBlock (number : UInt16) (size : Nat)
  | hasBlock (number : UInt16)
  | checkBlock (number : UInt16) (offset : BitAddress) (width : UInt32)
  | resize (specs : Specs)
deriving DecidableEq, Repr

inductive MemoryReply where
  | done
  | value (value : Value)
  | present (answer : Bool)
  | block (block : DataBlock)
deriving DecidableEq, Repr

namespace Memory

def perform? (m : Memory) : MemoryOperation → Except AccessError (MemoryReply × Memory)
  | .read a => do return (.value (← m.read a), m)
  | .write a v => do return (.done, ← m.write a v)
  | .addBlock number size => .ok (.block (.zeroed number size), m.addBlock number size)
  | .hasBlock number => .ok (.present (m.block? number).isSome, m)
  | .checkBlock number offset width => do
    m.checkBlock number offset width
    return (.done, m)
  | .resize specs => .ok (.done, m.resize specs)

def perform (m : Memory) (op : MemoryOperation) : Except AccessError MemoryReply × Memory :=
  match m.perform? op with
  | .ok (reply, m') => (.ok reply, m')
  | .error e => (.error e, m)

end Memory

end PlcMachine
