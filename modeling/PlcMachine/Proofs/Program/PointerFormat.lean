import Mathlib.Data.Set.Function
import PlcMachine.Proofs.Program.Pointer

/-! # Pointers as bytes

The strings that are pointers are six bytes long and have an area code in third place. They are exactly
the written forms of the pointers whose address fits, one for each. A pointer that a caller hands out
leads its callee to the location it was made for, unless that is in a data block of number 0.
-/

namespace PlcMachine

namespace PointerArea

theorem ofCode?_eq_some {code : UInt8} {area : PointerArea} :
    ofCode? code = some area ↔ area.code = code := by
  constructor
  · intro h
    simpa using List.find?_some h
  · rintro rfl
    exact Pointer.ofCode?_code area

theorem exists_code_iff {code : UInt8} :
    (∃ area : PointerArea, area.code = code) ↔ 0x80 ≤ code ∧ code ≤ 0x87 := by
  constructor
  · rintro ⟨area, rfl⟩
    cases area <;> decide
  · rintro ⟨hlow, hhigh⟩
    have hcode : code = 0x80 ∨ code = 0x81 ∨ code = 0x82 ∨ code = 0x83 ∨
        code = 0x84 ∨ code = 0x85 ∨ code = 0x86 ∨ code = 0x87 := by
      simp only [UInt8.le_iff_toNat_le, ← UInt8.toNat_inj, UInt8.reduceToNat] at hlow hhigh ⊢
      omega
    rcases hcode with rfl | rfl | rfl | rfl | rfl | rfl | rfl | rfl
    exacts [⟨.peripheral, rfl⟩, ⟨.input, rfl⟩, ⟨.output, rfl⟩, ⟨.flag, rfl⟩, ⟨.dataBlock, rfl⟩,
      ⟨.instanceData, rfl⟩, ⟨.localData, rfl⟩, ⟨.outerData, rfl⟩]

end PointerArea

namespace Pointer

def IsExact (p : Pointer) : Prop := p.offset.FitsPointer ∧ p.offset.bit ≤ 7

/-- Six bytes, the third of which is one of the area codes. -/
def IsWritten (bytes : List UInt8) : Prop :=
  bytes.length = 6 ∧ ∃ code, bytes[2]? = some code ∧ 0x80 ≤ code ∧ code ≤ 0x87

variable {bytes : List UInt8} {p : Pointer}

theorem decode_eq_ok : decode bytes = .ok p ↔ ∃ b₀ b₁ a₀ a₁ a₂,
    bytes = [b₀, b₁, p.area.code, a₀, a₁, a₂] ∧ p.block = .ofNat (BigEndian.decode [b₀, b₁]) ∧
      p.offset = .ofPointer (.ofNat (BigEndian.decode [a₀, a₁, a₂])) := by
  constructor
  · intro h
    unfold decode at h
    split at h
    · next b₀ b₁ code a₀ a₁ a₂ =>
      split at h
      · next area harea =>
        cases h
        obtain rfl := PointerArea.ofCode?_eq_some.mp harea
        exact ⟨b₀, b₁, a₀, a₁, a₂, rfl, rfl, rfl⟩
      · cases h
    · cases h
  · rintro ⟨b₀, b₁, a₀, a₁, a₂, rfl, hblock, hoffset⟩
    rw [decode, ofCode?_code]
    dsimp only
    rw [← hblock, ← hoffset]

theorem exists_decode_iff : (∃ p, decode bytes = .ok p) ↔ IsWritten bytes := by
  constructor
  · rintro ⟨p, h⟩
    obtain ⟨b₀, b₁, a₀, a₁, a₂, rfl, -⟩ := decode_eq_ok.mp h
    exact ⟨rfl, p.area.code, rfl, PointerArea.exists_code_iff.mp ⟨p.area, rfl⟩⟩
  · rintro ⟨hlength, code, hcode, hrange⟩
    obtain ⟨area, rfl⟩ := PointerArea.exists_code_iff.mpr hrange
    match bytes, hlength with
    | [b₀, b₁, c, a₀, a₁, a₂], _ =>
      obtain rfl : c = area.code := by simpa using hcode
      exact ⟨⟨_, area, _⟩, decode_eq_ok.mpr ⟨b₀, b₁, a₀, a₁, a₂, rfl, rfl, rfl⟩⟩

theorem isExact_of_decode (h : decode bytes = .ok p) : p.IsExact := by
  obtain ⟨_, _, _, _, _, -, -, hoffset⟩ := decode_eq_ok.mp h
  rw [IsExact, hoffset]
  exact BitAddress.fits_ofPointer _

theorem encode_of_decode (h : decode bytes = .ok p) : p.encode = bytes := by
  obtain ⟨b₀, b₁, a₀, a₁, a₂, rfl, hblock, hoffset⟩ := decode_eq_ok.mp h
  have hblock_lt : BigEndian.decode [b₀, b₁] < Nat.pow 256 2 := BigEndian.decode_lt [b₀, b₁]
  have hoffset_lt : BigEndian.decode [a₀, a₁, a₂] < Nat.pow 256 3 := BigEndian.decode_lt [a₀, a₁, a₂]
  have hoffset_lt' : BigEndian.decode [a₀, a₁, a₂] < UInt32.size :=
    Nat.lt_trans hoffset_lt (by decide)
  have hpointer : p.offset.toPointer.toNat = BigEndian.decode [a₀, a₁, a₂] := by
    rw [hoffset, BitAddress.toPointer_ofPointer, UInt32.toNat_ofNat_of_lt' hoffset_lt']
    exact Nat.mod_eq_of_lt hoffset_lt
  rw [encode_eq, hpointer, hblock, UInt16.toNat_ofNat_of_lt' hblock_lt]
  calc BigEndian.encode 2 (BigEndian.decode [b₀, b₁]) ++
        p.area.code :: BigEndian.encode 3 (BigEndian.decode [a₀, a₁, a₂])
      = [b₀, b₁] ++ p.area.code :: [a₀, a₁, a₂] :=
        congrArg₂ (· ++ p.area.code :: ·) (BigEndian.encode_decode [b₀, b₁])
          (BigEndian.encode_decode [a₀, a₁, a₂])
    _ = [b₀, b₁, p.area.code, a₀, a₁, a₂] := rfl

theorem decode_encode_of_isExact (h : p.IsExact) : decode p.encode = .ok p := by
  rw [decode_encode, BitAddress.ofPointer_toPointer_of_fits h.1 h.2]

theorem decode_eq_ok_iff : decode bytes = .ok p ↔ p.IsExact ∧ p.encode = bytes := by
  constructor
  · intro h
    exact ⟨isExact_of_decode h, encode_of_decode h⟩
  · rintro ⟨hexact, rfl⟩
    exact decode_encode_of_isExact hexact

theorem decode_encode_eq_self_iff : decode p.encode = .ok p ↔ p.IsExact := by
  rw [decode_eq_ok_iff]
  exact and_iff_left rfl

/-- Six bytes are read as a pointer if and only if there are six and the third is an area code, and
then they are what that pointer is written as. What a pointer is written as is read as that pointer
with its byte number reduced modulo 2^21 and its bit number modulo 8, which is the pointer itself
exactly if nothing is reduced. So writing is a bijection from the pointers that six bytes hold as they
are to the strings that are read. -/
theorem encode_bijOn :
    (∀ bytes, (∃ p, decode bytes = .ok p) ↔
      bytes.length = 6 ∧ ∃ code, bytes[2]? = some code ∧ 0x80 ≤ code ∧ code ≤ 0x87) ∧
    (∀ bytes (p : Pointer), decode bytes = .ok p → p.encode = bytes) ∧
    (∀ p : Pointer, decode p.encode =
      .ok ⟨p.block, p.area, ⟨p.offset.byte % 0x200000, p.offset.bit % 8⟩⟩) ∧
    (∀ p : Pointer, decode p.encode = .ok p ↔ p.offset.byte < 0x200000 ∧ p.offset.bit ≤ 7) ∧
    Set.BijOn encode {p | p.IsExact} {bytes | IsWritten bytes} := by
  refine ⟨fun _ => exists_decode_iff, fun _ _ => encode_of_decode, ?_, ?_, ?_, ?_, ?_⟩
  · intro p
    rw [decode_encode, BitAddress.ofPointer_toPointer_eq]
  · intro p
    exact decode_encode_eq_self_iff
  · intro p hp
    exact exists_decode_iff.mp ⟨p, decode_encode_of_isExact hp⟩
  · intro p hp q hq he
    have hread := decode_encode_of_isExact hp
    rw [he, decode_encode_of_isExact hq] at hread
    exact (Except.ok.inj hread).symm
  · intro bytes hbytes
    obtain ⟨p, hp⟩ := exists_decode_iff.mpr hbytes
    obtain ⟨hexact, hencode⟩ := decode_eq_ok_iff.mp hp
    exact ⟨p, hexact, hencode⟩

end Pointer

/-- A caller's pointer can lead to the area. Its own outer data, timers, counters and peripherals are
not reached this way. -/
def Area.isForwardable : Area → Bool
  | .outerData | .timer | .counter | .peripheralIn | .peripheralOut => false
  | _ => true

namespace Pointer

variable {l : Location} {di : UInt16} {p : Pointer}

theorem exists_toCallerLocation?_iff : (∃ p, toCallerLocation? l di = some p) ↔
    l.offset.FitsPointer ∧ l.area.isForwardable = true := by
  obtain ⟨⟨area, offset, width⟩, compound⟩ := l
  unfold toCallerLocation?
  by_cases hfits : offset.FitsPointer
  · cases area <;> simp [hfits, Area.isForwardable]
  · simp [hfits]

theorem target_of_block_zero (h : toCallerLocation? l di = some p)
    (hblock : l.area.forCallee di = .dataBlock 0) (width : UInt32) (compound : Bool) :
    p.target width compound = .error (.invalidPointer .noBlockNumber) := by
  obtain ⟨⟨area, offset, w⟩, c⟩ := l
  unfold toCallerLocation? at h
  split_ifs at h
  cases area <;> cases h <;>
    simp_all [target, targetArea, Area.forCallee, bind, Except.bind]

/-- A caller hands out a pointer to a location if and only if its address fits and its area can be reached.
The pointer is read as it was written, and leads to the location as the callee names it, except when that is
in a data block of number 0: such a pointer is handed out, but it leads nowhere. -/
theorem target_handedOut (hbit : l.offset.bit ≤ 7) (di : UInt16) :
    ((∃ p, toCallerLocation? l di = some p) ↔
      l.offset.FitsPointer ∧ l.area.isForwardable = true) ∧
    ∀ p, toCallerLocation? l di = some p → ofValue p.toValue = .ok p ∧
      p.target l.width l.compound =
        if l.area.forCallee di = .dataBlock 0 then .error (.invalidPointer .noBlockNumber)
        else .ok (l.inArea (l.area.forCallee di)) := by
  refine ⟨exists_toCallerLocation?_iff, ?_⟩
  intro p hp
  obtain ⟨hfits, hoffset, -⟩ := fits_of_toCallerLocation? hp
  constructor
  · apply decode_encode_of_isExact
    rw [IsExact, hoffset]
    exact ⟨hfits, hbit⟩
  · split_ifs with hblock
    · exact target_of_block_zero hp hblock _ _
    · exact target_of_toCallerLocation? hp hblock _ _

/-- A string in data block 0, which may exist, is handed out to a callee that cannot follow it. -/
theorem target_handedOut_block_zero :
    ∃ p, toCallerLocation? ⟨⟨.dataBlock 0, ⟨0, 0⟩, 8⟩, true⟩ 0 = some p ∧
      p.target 8 true = .error (.invalidPointer .noBlockNumber) := by
  obtain ⟨hexists, htarget⟩ := target_handedOut
    (l := ⟨⟨.dataBlock 0, ⟨0, 0⟩, 8⟩, true⟩) (by decide) 0
  obtain ⟨p, hp⟩ := hexists.mpr ⟨by decide, rfl⟩
  exact ⟨p, hp, (htarget p hp).2⟩

end Pointer

end PlcMachine
