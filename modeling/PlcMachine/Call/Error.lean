import PlcMachine.Call.Passing
import PlcMachine.LocalStack.Cursor

/-! # Call errors

Why entering or leaving a block fails. Every failed entry names the call it belongs to.
-/

namespace PlcMachine

structure CallPoint where
  /-- Label and instruction pointer of the calling block, if a block calls. -/
  caller : Option (String × Nat)
  callee : String
deriving DecidableEq, Repr

structure WriteBackFailure where
  parameter : String
  actual : Operand
  cause : AccessError
deriving DecidableEq, Repr

inductive CallError where
  | unresolvedSlot (block : String) (ip : Nat) (index : UInt32)
  | unsupportedBinding (point : CallPoint) (parameter : String) (actual : Operand) (reason : Refusal)
  | outOfLocalStack (point : CallPoint) (parameter : Option String) (cause : LocalStackError)
  | access (point : CallPoint) (parameter : Option String) (cause : AccessError)
  | depthExceeded (point : CallPoint) (limit : Nat)
  | missingInstance (point : CallPoint)
  | emptyStack
  /-- The frame is left, but some outputs did not arrive. -/
  | writeBackFailed (block : String) (failures : List WriteBackFailure)
deriving DecidableEq, Repr

def CallPoint.text (p : CallPoint) : String :=
  match p.caller with
  | some (caller, ip) => s!"call of {p.callee} from {caller} at {ip}"
  | none => s!"entry into {p.callee}"

def WriteBackFailure.text (f : WriteBackFailure) : String :=
  s!"{f.parameter} -> {f.actual.text}: {f.cause.message}"

namespace CallError

def forParameter : Option String → String
  | some name => s!" for parameter '{name}'"
  | none => ""

def message : CallError → String
  | .unresolvedSlot block ip index => s!"interface field {index.toNat} of {block} at {ip} is not bound"
  | .unsupportedBinding point parameter actual reason =>
    s!"{point.text}: parameter '{parameter}' cannot take {actual.text}: {reason.text}"
  | .outOfLocalStack point parameter cause =>
    s!"{point.text}: out of local stack{forParameter parameter}: {cause.message}"
  | .access point parameter cause => s!"{point.text}{forParameter parameter}: {cause.message}"
  | .depthExceeded point limit => s!"{point.text}: call depth limit of {limit} reached"
  | .missingInstance point => s!"{point.text}: stateful block called without an instance"
  | .emptyStack => "call stack is empty"
  | .writeBackFailed block failures =>
    s!"return from {block}: {failures.length} output parameter(s) not written back"

end CallError

end PlcMachine
