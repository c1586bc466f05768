import PlcMachine.Program.Operand

/-! # Pointers

Compound parameters are passed as pointers of six bytes: a data block number, an area code and a bit
address of 24 bits. Writing and reading a pointer are inverse to each other on addresses that fit.
-/

namespace PlcMachine

inductive PointerArea where
  | peripheral
  | input
  | output
  | flag
  | dataBlock
  | instanceData
  | localData
  | outerData
deriving DecidableEq, Repr

/-- A place in memory as one block tells it to another. -/
structure Pointer where
  /-- Data block number, and 0 for a place that is in no data block. -/
  block : UInt16
  area : PointerArea
  offset : BitAddress
deriving DecidableEq, Repr

namespace PointerArea

def code : PointerArea → UInt8
  | .peripheral => 0x80
  | .input => 0x81
  | .output => 0x82
  | .flag => 0x83
  | .dataBlock => 0x84
  | .instanceData => 0x85
  | .localData => 0x86
  | .outerData => 0x87

def ofCode? (code : UInt8) : Option PointerArea :=
  [peripheral, input, output, flag, dataBlock, instanceData, localData, outerData].find?
    (fun a => a.code = code)

end PointerArea

namespace Pointer

def width : UInt32 := 48

/-- The last four bytes of a pointer as a number: area code and bit address. -/
def areaPointer (p : Pointer) : UInt32 :=
  .ofNat (0x1000000 * p.area.code.toNat + p.offset.toPointer.toNat)

def encode (p : Pointer) : List UInt8 :=
  BigEndian.encode 2 p.block.toNat ++ BigEndian.encode 4 p.areaPointer.toNat

def decode : List UInt8 → Except AccessError Pointer
  | [b₀, b₁, code, a₀, a₁, a₂] =>
    match PointerArea.ofCode? code with
    | some area =>
      .ok ⟨.ofNat (BigEndian.decode [b₀, b₁]), area,
        .ofPointer (.ofNat (BigEndian.decode [a₀, a₁, a₂]))⟩
    | none => .error (.invalidPointer (.unknownArea code))
  | bytes => .error (.invalidPointer (.wrongLength bytes.length))

def toValue (p : Pointer) : Value := .bytes p.encode

def ofValue : Value → Except AccessError Pointer
  | .bytes bytes => decode bytes
  | .scalar _ => .error (.invalidPointer .scalar)

/-- The pointer by which a callee reaches a location of its caller, where `di` is the caller's DI
register. The caller's own outer data, timers, counters and peripherals are not reached this way. -/
def toCallerLocation? (l : Location) (di : UInt16) : Option Pointer :=
  if ¬ l.offset.FitsPointer then none
  else
    match l.area with
    | .input => some ⟨0, .input, l.offset⟩
    | .output => some ⟨0, .output, l.offset⟩
    | .flag => some ⟨0, .flag, l.offset⟩
    | .localData => some ⟨0, .outerData, l.offset⟩
    | .dataBlock number => some ⟨number, .dataBlock, l.offset⟩
    | .instanceData => some ⟨di, .dataBlock, l.offset⟩
    | .outerData | .timer | .counter | .peripheralIn | .peripheralOut => none

def targetArea (p : Pointer) : Except AccessError Area :=
  match p.area with
  | .peripheral => .ok .peripheralIn
  | .input => .ok .input
  | .output => .ok .output
  | .flag => .ok .flag
  | .dataBlock => if p.block = 0 then .error (.invalidPointer .noBlockNumber) else .ok (.dataBlock p.block)
  | .instanceData => .ok .instanceData
  | .localData => .ok .localData
  | .outerData => .ok .outerData

def target (p : Pointer) (width : UInt32) (compound : Bool) : Except AccessError Location := do
  return { area := ← p.targetArea, offset := p.offset, width, compound }

end Pointer

end PlcMachine
