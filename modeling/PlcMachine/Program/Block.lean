import PlcMachine.Address.BitAddress

/-! # Blocks

A program consists of numbered blocks. A block declares formal parameters and temporaries; function
blocks keep their parameters in an instance data block, and all others receive them at each call.
-/

namespace PlcMachine

inductive BlockKind where
  | organization
  | function
  | functionBlock
  | systemFunction
  | systemFunctionBlock
  | data
deriving DecidableEq, Repr

inductive Direction where
  | input
  | output
  | inOut
deriving DecidableEq, Repr

structure Parameter where
  name : String
  /-- Declaration index, which is also the number of the interface slot. -/
  index : UInt32
  /-- Place in the instance data of a stateful block. -/
  offset : BitAddress
  width : UInt32
  /-- The parameter is a structure, array or string. -/
  compound : Bool
  /-- The parameter holds the number of a timer, counter or block. -/
  byReference : Bool
deriving DecidableEq, Repr

structure Block where
  kind : BlockKind
  number : UInt16
  /-- Symbolic name, or the empty string. -/
  name : String
  /-- Bytes of temporaries at the bottom of the local data. -/
  tempBytes : UInt32
  parameters : List Parameter
deriving DecidableEq, Repr

namespace BlockKind

def isStateful : BlockKind → Bool
  | .functionBlock | .systemFunctionBlock => true
  | _ => false

def text : BlockKind → String
  | .organization => "OB"
  | .function => "FC"
  | .functionBlock => "FB"
  | .systemFunction => "SFC"
  | .systemFunctionBlock => "SFB"
  | .data => "DB"

end BlockKind

namespace Direction

def isInbound : Direction → Bool
  | .input | .inOut => true
  | .output => false

def isOutbound : Direction → Bool
  | .output | .inOut => true
  | .input => false

end Direction

namespace Parameter

def scalar (name : String) (index : UInt32) (offset : BitAddress) (width : UInt32) : Parameter :=
  ⟨name, index, offset, width, false, false⟩

end Parameter

namespace Block

def isStateful (b : Block) : Bool := b.kind.isStateful

def parameter? (b : Block) (name : String) : Option Parameter :=
  b.parameters.find? (fun p => p.name = name)

def label (b : Block) : String :=
  let numbered := s!"{b.kind.text} {b.number.toNat}"
  if b.name = "" then numbered else numbered ++ " \"" ++ b.name ++ "\""

end Block

end PlcMachine
