/-! # Bit addresses

A bit address names one bit of an area by a byte number and a bit number. Addition is addition of
bit counts. Area pointers carry a bit address in 24 bits, 21 of them for the byte number.
-/

namespace PlcMachine

/-- Address of one bit within an area. Only bit numbers up to 7 name a bit of that byte. -/
structure BitAddress where
  byte : UInt32
  bit : UInt8
deriving DecidableEq, Repr, Inhabited

namespace BitAddress

def ofByte (byte : UInt32) : BitAddress := ⟨byte, 0⟩

def index (a : BitAddress) : Nat := 8 * a.byte.toNat + a.bit.toNat

/-- The address `n` bits into an area, with its byte number reduced to 32 bits. -/
def ofIndex (n : Nat) : BitAddress := ⟨.ofNat (n / 8), .ofNat (n % 8)⟩

/-- Bit counts add up, so bits carry into bytes and byte numbers wrap at 32 bits. -/
instance : Add BitAddress := ⟨fun a b => ofIndex (a.index + b.index)⟩

instance : Ord BitAddress := ⟨fun a b => (compare a.byte b.byte).then (compare a.bit b.bit)⟩

def pointerBytes : Nat := 0x200000

def FitsPointer (a : BitAddress) : Prop := a.byte.toNat < pointerBytes

instance (a : BitAddress) : Decidable a.FitsPointer :=
  inferInstanceAs (Decidable (a.byte.toNat < pointerBytes))

/-- The low 24 bits of an area pointer: 21 bits of byte number and 3 bits of bit number. -/
def toPointer (a : BitAddress) : UInt32 :=
  .ofNat (8 * (a.byte.toNat % pointerBytes) + a.bit.toNat % 8)

def ofPointer (pointer : UInt32) : BitAddress := ofIndex (pointer.toNat % (8 * pointerBytes))

def text (a : BitAddress) : String := s!"{a.byte.toNat}.{a.bit.toNat}"

@[simp]
theorem byte_ofIndex (n : Nat) : (ofIndex n).byte.toNat = n / 8 % UInt32.size :=
  UInt32.toNat_ofNat'

@[simp]
theorem bit_ofIndex (n : Nat) : (ofIndex n).bit.toNat = n % 8 := by
  rw [ofIndex, UInt8.toNat_ofNat']
  omega

theorem index_ofIndex (n : Nat) : (ofIndex n).index = n % (8 * UInt32.size) := by
  rw [index, byte_ofIndex, bit_ofIndex, UInt32.size]
  omega

theorem ofIndex_index {a : BitAddress} (h : a.bit ≤ 7) : ofIndex a.index = a := by
  obtain ⟨byte, bit⟩ := a
  have hbit : bit.toNat ≤ 7 := h
  have hbyte := byte.toNat_lt
  simp only [ofIndex, index, mk.injEq]
  constructor
  · apply UInt32.toNat.inj
    rw [UInt32.toNat_ofNat']
    omega
  · apply UInt8.toNat.inj
    rw [UInt8.toNat_ofNat']
    omega

/-- Addition is addition of bit counts, reduced to 32 bits of byte number. -/
theorem index_add (a b : BitAddress) :
    (a + b).index = (a.index + b.index) % (8 * UInt32.size) :=
  index_ofIndex _

theorem toNat_toPointer (a : BitAddress) :
    a.toPointer.toNat = 8 * (a.byte.toNat % pointerBytes) + a.bit.toNat % 8 := by
  rw [toPointer, UInt32.toNat_ofNat', pointerBytes]
  omega

end BitAddress

end PlcMachine
