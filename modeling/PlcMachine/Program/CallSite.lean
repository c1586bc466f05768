import PlcMachine.Program.Operand

/-! # Call sites

A call names the block to enter, the instance data that a stateful block works on, and an actual for
each parameter that is bound.
-/

namespace PlcMachine

structure Binding where
  parameter : Parameter
  actual : Operand
  direction : Direction
deriving DecidableEq, Repr

structure CallSite where
  callee : Block
  /-- An unconditional call, which binds no parameters and leaves the registers alone. -/
  raw : Bool
  instanceBlock : Option UInt16
  /-- Place of the instance in its data block, or, without a block, in the caller's instance. -/
  nestedBase : Option BitAddress
  bindings : List Binding
deriving DecidableEq, Repr

namespace CallSite

def unconditional (callee : Block) : CallSite := ⟨callee, true, none, none, []⟩

end CallSite

end PlcMachine
