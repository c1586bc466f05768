import PlcMachine.LocalStack.Basic

/-! # Pools of local stacks

Local stacks that are not in use, the one given back last being handed out first. A pool belongs to
one machine. Others get fresh local stacks and cannot leave any, and only stacks of the capacity in
force are kept.
-/

namespace PlcMachine

structure MachineId where
  number : Nat
deriving DecidableEq, Repr

structure Pool where
  owner : MachineId
  capacity : UInt32
  /-- The local stacks kept, the last one given back first. -/
  free : List LocalStack
deriving DecidableEq, Repr

namespace Pool

def empty (owner : MachineId) (capacity : UInt32) : Pool := ⟨owner, capacity, []⟩

def retained (p : Pool) : Nat := p.free.length

def acquire (p : Pool) (machine : MachineId) : LocalStack × Pool :=
  if machine = p.owner then
    match p.free with
    | s :: free => (s, { p with free })
    | [] => (.zeroed p.capacity, p)
  else (.zeroed p.capacity, p)

/-- Takes a local stack back and keeps it if it is the owner's and of the capacity in force. -/
def release (p : Pool) (machine : MachineId) (s : LocalStack) : Pool :=
  if machine = p.owner ∧ s.capacity = p.capacity.toNat then { p with free := s :: p.free } else p

def reconfigure (p : Pool) (capacity : UInt32) : Pool := { p with capacity, free := [] }

end Pool

end PlcMachine
