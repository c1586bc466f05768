import PlcMachine.Address.BitAddress

/-! # Arithmetic of bit addresses

A sum of bit addresses has a bit number of a byte, and its bit count is the sum of theirs modulo 2^35. So
sums may be formed in any order. A pointer holds an address modulo 2^24, which divides 2^35: reducing
the parts of a sum to what a pointer holds does not change what it holds of the sum.
-/

namespace PlcMachine.BitAddress

variable {a b : BitAddress}

section Sums

theorem bit_ofIndex_le (n : Nat) : (ofIndex n).bit ≤ 7 := by
  rw [UInt8.le_iff_toNat_le, bit_ofIndex]
  exact Nat.le_of_lt_succ (Nat.mod_lt n (by decide))

theorem bit_add_le (a b : BitAddress) : (a + b).bit ≤ 7 := bit_ofIndex_le _

theorem FitsPointer.index_lt (h : a.FitsPointer) : a.index < 8 * UInt32.size := by
  have hbit := a.bit.toNat_lt
  unfold FitsPointer pointerBytes at h
  unfold index UInt32.size
  omega

theorem index_lt_of_bit_le (h : a.bit ≤ 7) : a.index < 8 * UInt32.size := by
  have hbit : a.bit.toNat ≤ 7 := h
  have hbyte := a.byte.toNat_lt
  unfold index UInt32.size
  omega

theorem eq_of_index_eq (ha : a.bit ≤ 7) (hb : b.bit ≤ 7) (h : a.index = b.index) : a = b := by
  rw [← ofIndex_index ha, h, ofIndex_index hb]

protected theorem add_comm (a b : BitAddress) : a + b = b + a := by
  apply eq_of_index_eq (bit_add_le a b) (bit_add_le b a)
  rw [index_add, index_add, Nat.add_comm]

/-- The byte number of an inner sum may have been reduced, but by a multiple of what the outer sum is
reduced by. -/
protected theorem add_assoc (a b c : BitAddress) : a + b + c = a + (b + c) := by
  apply eq_of_index_eq (bit_add_le _ _) (bit_add_le _ _)
  simp only [index_add, Nat.mod_add_mod, Nat.add_mod_mod, Nat.add_assoc]

theorem add_zero_eq_iff : a + ⟨0, 0⟩ = a ↔ a.bit ≤ 7 := by
  constructor
  · intro h
    rw [← h]
    exact bit_add_le _ _
  · intro h
    apply eq_of_index_eq (bit_add_le _ _) h
    rw [index_add]
    exact Nat.mod_eq_of_lt (index_lt_of_bit_le h)

example : (⟨0, 255⟩ + ⟨0, 0⟩ : BitAddress) = ⟨31, 7⟩ := by decide

def total (offsets : List BitAddress) : BitAddress := offsets.foldr (· + ·) ⟨0, 0⟩

@[simp]
theorem total_nil : total [] = ⟨0, 0⟩ := rfl

@[simp]
theorem total_cons (offset : BitAddress) (offsets : List BitAddress) :
    total (offset :: offsets) = offset + total offsets := rfl

end Sums

section Pointers

theorem toPointer_lt (a : BitAddress) : a.toPointer.toNat < 8 * pointerBytes := by
  rw [toNat_toPointer, pointerBytes]
  omega

theorem index_ofPointer (pointer : UInt32) :
    (ofPointer pointer).index = pointer.toNat % (8 * pointerBytes) := by
  rw [ofPointer, index_ofIndex, pointerBytes, UInt32.size]
  omega

theorem toPointer_ofPointer (pointer : UInt32) :
    (ofPointer pointer).toPointer.toNat = pointer.toNat % (8 * pointerBytes) := by
  rw [toNat_toPointer, ofPointer, byte_ofIndex, bit_ofIndex, pointerBytes, UInt32.size]
  omega

theorem fits_ofPointer (pointer : UInt32) :
    (ofPointer pointer).FitsPointer ∧ (ofPointer pointer).bit ≤ 7 := by
  constructor
  · rw [FitsPointer, ofPointer, byte_ofIndex, pointerBytes, UInt32.size]
    omega
  · exact bit_ofIndex_le _

theorem ofPointer_toPointer (a : BitAddress) :
    ofPointer a.toPointer = ofIndex (8 * (a.byte.toNat % pointerBytes) + a.bit.toNat % 8) := by
  rw [ofPointer, Nat.mod_eq_of_lt a.toPointer_lt, toNat_toPointer]

theorem ofPointer_toPointer_eq (a : BitAddress) :
    ofPointer a.toPointer = ⟨a.byte % 0x200000, a.bit % 8⟩ := by
  rw [ofPointer_toPointer, ofIndex, pointerBytes]
  congr 1
  · apply UInt32.toNat.inj
    simp only [UInt32.toNat_ofNat', UInt32.toNat_mod, UInt32.reduceToNat]
    omega
  · apply UInt8.toNat.inj
    simp only [UInt8.toNat_ofNat', UInt8.toNat_mod, UInt8.reduceToNat]
    omega

theorem ofPointer_toPointer_of_fits (h : a.FitsPointer) (hbit : a.bit ≤ 7) :
    ofPointer a.toPointer = a := by
  have hbit' : a.bit.toNat ≤ 7 := hbit
  have hindex : 8 * (a.byte.toNat % pointerBytes) + a.bit.toNat % 8 = a.index := by
    rw [Nat.mod_eq_of_lt h, Nat.mod_eq_of_lt (Nat.lt_succ_of_le hbit'), index]
  rw [ofPointer_toPointer, hindex, ofIndex_index hbit]

theorem FitsPointer.index_ofPointer_toPointer (h : a.FitsPointer) :
    (ofPointer a.toPointer).index = 8 * a.byte.toNat + a.bit.toNat % 8 := by
  rw [ofPointer_toPointer, Nat.mod_eq_of_lt h, index_ofIndex]
  unfold FitsPointer pointerBytes at h
  unfold UInt32.size
  omega

theorem toNat_toPointer_of_bit_le (h : a.bit ≤ 7) :
    a.toPointer.toNat = a.index % (8 * pointerBytes) := by
  have hbit : a.bit.toNat ≤ 7 := h
  rw [toNat_toPointer, index, pointerBytes]
  omega

/-- Whatever the bit numbers of the parts are, a pointer holds 24 bits of the sum of their bit counts. -/
theorem toNat_toPointer_add (a b : BitAddress) :
    (a + b).toPointer.toNat = (a.index + b.index) % (8 * pointerBytes) := by
  have hdvd : 8 * pointerBytes ∣ 8 * UInt32.size := by decide
  rw [toNat_toPointer_of_bit_le (bit_add_le a b), index_add, Nat.mod_mod_of_dvd _ hdvd]

theorem toPointer_add_of_bit_le (ha : a.bit ≤ 7) (hb : b.bit ≤ 7) :
    (a + b).toPointer.toNat = (a.toPointer.toNat + b.toPointer.toNat) % (8 * pointerBytes) := by
  rw [toNat_toPointer_add, toNat_toPointer_of_bit_le ha, toNat_toPointer_of_bit_le hb, ← Nat.add_mod]

end Pointers

end PlcMachine.BitAddress
