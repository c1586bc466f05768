import PlcMachine.Machine.Call
import PlcMachine.Storage.Operation

/-! # Operations on a controller

Everything a client can ask of a controller, as data. An operation answers with a reply or an error
and with the controller it leaves behind, so that histories are lists of operations.
-/

namespace PlcMachine

inductive Operation where
  | begin (block : Block)
  | enter (site : CallSite)
  | leave
  | fetch (op : Operand)
  | resolve (op : Operand)
  | store (op : Operand) (value : Value)
  | resolveSlot (index : UInt32)
  | parameterOperand (parameter : Parameter)
  | fetchParameter (parameter : Parameter)
  | storeParameter (parameter : Parameter) (value : Value)
  | followParameter (parameter : Parameter)
  | follow (pointer : Operand) (width : UInt32) (compound : Bool)
  | openBlock (number : UInt16)
  | setRegisters (registers : Registers)
  | setInstanceBase (base : BitAddress)
  | setIp (ip : Nat)
  | reconfigure (specs : Specs)
  | memory (op : MemoryOperation)
deriving DecidableEq, Repr

inductive Reply where
  | done
  | value (value : Value)
  | operand (op : Operand)
  /-- Whether there was a frame to act on. -/
  | acted (answer : Bool)
  | memory (reply : MemoryReply)
deriving DecidableEq, Repr

inductive OperationError where
  | call (cause : CallError)
  | access (cause : AccessError)
  | specs (cause : SpecsFault)
deriving DecidableEq, Repr

namespace Machine

def settle {ε : Type} (m : Machine) (wrap : ε → OperationError) (r : Except ε (Reply × Machine)) :
    Except OperationError Reply × Machine :=
  match r with
  | .ok (reply, m') => (.ok reply, m')
  | .error e => (.error (wrap e), m)

def answer {ε α : Type} (m : Machine) (wrap : ε → OperationError) (reply : α → Reply)
    (r : Except ε α) : Except OperationError Reply × Machine :=
  m.settle wrap (r.map fun a => (reply a, m))

def become {ε : Type} (m : Machine) (wrap : ε → OperationError) (r : Except ε Machine) :
    Except OperationError Reply × Machine :=
  m.settle wrap (r.map fun m' => (.done, m'))

def called (r : Except CallError Unit × Machine) : Except OperationError Reply × Machine :=
  ((r.1.map fun _ => .done).mapError .call, r.2)

def perform (m : Machine) : Operation → Except OperationError Reply × Machine
  | .begin block => called (m.begin block)
  | .enter site => called (m.enter site)
  | .leave => called m.leave
  | .fetch op => m.answer .access .value (m.fetch op)
  | .resolve op => m.answer .access .value (m.resolve op)
  | .store op v => m.become .access (m.store op v)
  | .resolveSlot index => m.answer .call .operand (m.resolveSlot index)
  | .parameterOperand p => (.ok (.operand (m.parameterOperand p)), m)
  | .fetchParameter p => m.answer .access .value (m.fetchParameter p)
  | .storeParameter p v => m.become .access (m.storeParameter p v)
  | .followParameter p => m.answer .access (.operand ∘ .memory) (m.followParameter p)
  | .follow pointer width compound =>
    m.answer .access (.operand ∘ .memory) (m.follow pointer width compound)
  | .openBlock number => m.become .access (m.openBlock number)
  | .setRegisters registers => (.ok .done, { m with registers })
  | .setInstanceBase base => (.ok .done, { m with registers := m.registers.setInstanceBase base })
  | .setIp ip => (.ok (.acted (0 < m.depth)), m.setIp ip)
  | .reconfigure specs => m.become .specs (m.reconfigure specs)
  | .memory op =>
    let (r, memory) := m.memory.perform op
    ((r.map .memory).mapError .access, { m with memory })

end Machine

end PlcMachine
