/-! # Address areas

The areas a program can address. Process image, flags, timers, counters and peripherals are global;
data blocks are global and numbered; local data belongs to a frame, so its two areas are relative to
the frame that is active.
-/

namespace PlcMachine

/-- An address area, named as seen by the active frame. -/
inductive Area where
  | input
  | output
  | flag
  /-- Local data of the active frame. -/
  | localData
  /-- Local data of the frame that called the active frame. -/
  | outerData
  | dataBlock (number : UInt16)
  /-- The data block whose number is in the DI register. -/
  | instanceData
  | timer
  | counter
  | peripheralIn
  | peripheralOut
deriving DecidableEq, Repr

namespace Area

def isFrameRelative : Area → Bool
  | .localData | .outerData => true
  | _ => false

def text : Area → String
  | .input => "I"
  | .output => "Q"
  | .flag => "M"
  | .localData => "L"
  | .outerData => "V"
  | .dataBlock number => s!"DB{number.toNat}"
  | .instanceData => "DI"
  | .timer => "T"
  | .counter => "C"
  | .peripheralIn => "PI"
  | .peripheralOut => "PQ"

end Area

end PlcMachine
