import PlcMachine.Call.Frame
import PlcMachine.Proofs.Address.BitAddress
import PlcMachine.Proofs.Storage.Access

/-! # Writing and reading pointers

A pointer keeps its block number and its area, and its address up to the 24 bits that it has for it. An
address that fits comes back as it was, as does an instance base from the register that holds it.
-/

namespace PlcMachine

/-- Local data of a size that may be configured are in reach of a pointer. -/
theorem Access.Within.fitsPointer {a : Access} {size : Nat} (h : a.Within size) (hsize : size ≤ 65536) :
    a.offset.FitsPointer := by
  have hend : a.offset.byte.toNat + a.byteLength ≤ size := h.fits
  unfold BitAddress.FitsPointer BitAddress.pointerBytes
  omega

namespace Pointer

theorem toNat_areaPointer (p : Pointer) :
    p.areaPointer.toNat = 0x1000000 * p.area.code.toNat + p.offset.toPointer.toNat := by
  have hcode := p.area.code.toNat_lt
  have hoffset := p.offset.toPointer_lt
  rw [BitAddress.pointerBytes] at hoffset
  rw [areaPointer, UInt32.toNat_ofNat_of_lt' (by rw [UInt32.size]; omega)]

theorem ofCode?_code (area : PointerArea) : PointerArea.ofCode? area.code = some area := by
  cases area <;> rfl

theorem encode_eq (p : Pointer) : p.encode = BigEndian.encode 2 p.block.toNat ++
    p.area.code :: BigEndian.encode 3 p.offset.toPointer.toNat := by
  have hoffset := p.offset.toPointer_lt
  rw [BitAddress.pointerBytes] at hoffset
  have hcode : (0x1000000 * p.area.code.toNat + p.offset.toPointer.toNat) / 256 / 256 / 256 =
      p.area.code.toNat := by omega
  rw [encode, toNat_areaPointer]
  simp only [BigEndian.encode, hcode, UInt8.ofNat_toNat, List.nil_append, List.cons_append,
    List.cons.injEq, true_and, and_true]
  refine ⟨?_, ?_, ?_⟩ <;> apply UInt8.toNat.inj <;> simp only [UInt8.toNat_ofNat'] <;> omega

theorem decode_encode (p : Pointer) :
    decode p.encode = .ok { p with offset := .ofPointer p.offset.toPointer } := by
  have hblock : BigEndian.decode (BigEndian.encode 2 p.block.toNat) = p.block.toNat :=
    BigEndian.decode_encode p.block.toNat_lt
  have hoffset : BigEndian.decode (BigEndian.encode 3 p.offset.toPointer.toNat) =
      p.offset.toPointer.toNat := BigEndian.decode_encode p.offset.toPointer_lt
  rw [encode_eq]
  simp only [BigEndian.encode, List.nil_append, List.cons_append] at hblock hoffset ⊢
  simp only [decode, ofCode?_code, hblock, hoffset, UInt16.ofNat_toNat, UInt32.ofNat_toNat]

theorem ofValue_toValue {p : Pointer} (h : p.offset.FitsPointer) (hbit : p.offset.bit ≤ 7) :
    ofValue p.toValue.canonical = .ok p := by
  have hlength : p.encode.length = 6 := by simp [encode]
  have hcanonical : p.toValue.canonical = .bytes p.encode := by
    simp [toValue, Value.canonical, Value.ofBytes, hlength]
  rw [hcanonical, ofValue, decode_encode, BitAddress.ofPointer_toPointer_of_fits h hbit]

end Pointer

/-- The area as a callee names it, where `di` is the caller's DI register. -/
def Area.forCallee (di : UInt16) : Area → Area
  | .localData => .outerData
  | .instanceData => .dataBlock di
  | area => area

namespace Pointer

variable {l : Location} {di : UInt16} {p : Pointer}

theorem fits_of_toCallerLocation? (h : toCallerLocation? l di = some p) :
    l.offset.FitsPointer ∧ p.offset = l.offset ∧ l.area ≠ .outerData := by
  obtain ⟨⟨area, offset, width⟩, compound⟩ := l
  unfold toCallerLocation? at h
  split_ifs at h with hfits
  cases area <;> cases h <;> exact ⟨hfits, rfl, Area.noConfusion⟩

/-- A pointer to a location of the caller leads there. -/
theorem target_of_toCallerLocation? (h : toCallerLocation? l di = some p)
    (hblock : l.area.forCallee di ≠ .dataBlock 0) (width : UInt32) (compound : Bool) :
    p.target width compound = .ok ⟨⟨l.area.forCallee di, l.offset, width⟩, compound⟩ := by
  obtain ⟨⟨area, offset, w⟩, c⟩ := l
  unfold toCallerLocation? at h
  split_ifs at h
  cases area <;> cases h <;> simp_all [target, targetArea, Area.forCallee]

end Pointer

namespace Registers

theorem instanceBase_setInstanceBase_eq (r : Registers) (base : BitAddress) :
    (r.setInstanceBase base).instanceBase = .ofPointer base.toPointer := by
  have hlow : (0x1000000 * PointerArea.dataBlock.code.toNat + base.toPointer.toNat) %
      (8 * BitAddress.pointerBytes) = base.toPointer.toNat % (8 * BitAddress.pointerBytes) := by
    rw [BitAddress.pointerBytes]
    omega
  calc (r.setInstanceBase base).instanceBase
      = .ofPointer (Pointer.areaPointer ⟨0, .dataBlock, base⟩) := rfl
    _ = .ofPointer base.toPointer := by
      rw [BitAddress.ofPointer, Pointer.toNat_areaPointer, hlow, BitAddress.ofPointer]

theorem instanceBase_setInstanceBase (r : Registers) {base : BitAddress} (h : base.FitsPointer)
    (hbit : base.bit ≤ 7) : (r.setInstanceBase base).instanceBase = base := by
  rw [instanceBase_setInstanceBase_eq, BitAddress.ofPointer_toPointer_of_fits h hbit]

end Registers

end PlcMachine
