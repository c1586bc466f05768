import PlcMachine.Program.CallSite
import PlcMachine.Program.Pointer

/-! # Ways to pass a parameter

Two tables decide how an actual reaches a block. A stateless block gets an operand for each parameter,
which may name the actual itself, a copy of it or a pointer to it. A stateful block gets a value in
its instance data.
-/

namespace PlcMachine

inductive Refusal where
  | outerCompound
  | compoundInOut
  | byReference
  | notDeclared
  | boundTwice
  | notForwardable
  | slotToSlot
  | widthDiffers
  | notWritable
deriving DecidableEq, Repr

namespace Refusal

def text : Refusal → String
  | .outerCompound => "compound outer local data cannot be forwarded"
  | .compoundInOut => "compound in-out parameters need an addressable actual"
  | .byReference => "reference parameters need a timer, counter or block"
  | .notDeclared => "not a parameter of the called block"
  | .boundTwice => "parameter is bound more than once"
  | .notForwardable => "location cannot be forwarded"
  | .slotToSlot => "interface slot resolves to another slot"
  | .widthDiffers => "width differs from the formal parameter"
  | .notWritable => "output parameters need a writable actual"

end Refusal

/-- How an actual reaches a stateless block. -/
inductive Passing where
  /-- The callee addresses the actual itself. -/
  | direct
  /-- The callee addresses the actual as this location of its outer data. -/
  | alias (location : Location)
  /-- The callee addresses a copy in the caller's local data. -/
  | copy
  /-- The callee gets a pointer to a copy in the caller's local data. -/
  | pointerToCopy
  /-- The callee gets a pointer to the actual. -/
  | pointer (location : Location)
  /-- The actual is a formal parameter of the caller, and what it stands for is passed. -/
  | forward (index : UInt32)
  | refused (reason : Refusal)
deriving DecidableEq, Repr

/-- How an actual reaches the instance data of a stateful block. -/
inductive Transfer where
  /-- The value goes into the parameter. -/
  | value
  /-- The number of a timer, counter or block goes into the parameter. -/
  | reference
  /-- A pointer to the actual goes into the parameter. -/
  | pointer
  | refused (reason : Refusal)
deriving DecidableEq, Repr

namespace Location

def passing (l : Location) : Passing :=
  match l.area, l.compound with
  | .localData, false => .alias (l.inArea .outerData)
  | .localData, true => .pointer l
  | .outerData, false => .copy
  | .outerData, true => .refused .outerCompound
  | .dataBlock _, false | .instanceData, false => .copy
  | .dataBlock _, true | .instanceData, true => .pointer l
  | _, _ => .direct

end Location

namespace Operand

def passing : Operand → Passing
  | .immediate _ _ false => .copy
  | .immediate _ _ true => .pointerToCopy
  | .block _ _ => .direct
  | .slot index => .forward index
  | .memory l => l.passing

def isPointable : Operand → Bool
  | .memory l => (Pointer.toCallerLocation? l 0).isSome
  | _ => false

def isReference : Operand → Bool
  | .memory l => l.area = .timer ∨ l.area = .counter
  | .block _ _ => true
  | _ => false

def referenceNumber : Operand → UInt32
  | .block _ number => number.toUInt32
  | .memory l => l.offset.byte
  | _ => 0

end Operand

namespace Parameter

def transfer (p : Parameter) (direction : Direction) (actual : Operand) : Transfer :=
  if p.compound ∧ direction = .inOut then
    if actual.isPointable then .pointer else .refused .compoundInOut
  else if p.byReference then
    if actual.isReference then .reference else .refused .byReference
  else .value

end Parameter

end PlcMachine
