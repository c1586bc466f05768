import PlcMachine.Proofs.Storage.Access

/-! # Reading and writing bytes

A byte store is a row of bits, and an access sees the bits that it covers. What was written is read
back in canonical form, and an access that covers none of the written bits reads what it read before.
-/

namespace PlcMachine

theorem testBit_toNat_setBit (b : UInt8) {i : UInt8} (hi : i ≤ 7) (on : Bool) {j : Nat} (hj : j < 8) :
    (setBit b i on).toNat.testBit j = if j = i.toNat then on else b.toNat.testBit j := by
  have hi' : i.toNat < 8 := Nat.lt_succ_of_le hi
  have hlt : 2 ^ i.toNat < 2 ^ 8 := Nat.pow_lt_pow_right Nat.one_lt_two hi'
  have hone : (1 <<< i : UInt8).toNat = 2 ^ i.toNat := by
    rw [UInt8.toNat_shiftLeft, UInt8.toNat_one, Nat.shiftLeft_eq, Nat.one_mul,
      Nat.mod_eq_of_lt hi', Nat.mod_eq_of_lt hlt]
  have hnot : (~~~(1 <<< i : UInt8)).toNat = 2 ^ 8 - (2 ^ i.toNat + 1) := by
    rw [UInt8.toNat_not, hone, UInt8.size]; omega
  cases on with
  | true =>
    simp only [setBit, ↓reduceIte, UInt8.toNat_or, hone, Nat.testBit_or, Nat.testBit_two_pow]
    rcases eq_or_ne j i.toNat with rfl | h
    · simp
    · simp [h, h.symm]
  | false =>
    simp only [setBit, Bool.false_eq_true, ↓reduceIte, UInt8.toNat_and, Nat.testBit_and, hnot,
      Nat.testBit_two_pow_sub_succ hlt, Nat.testBit_two_pow]
    rcases eq_or_ne j i.toNat with rfl | h
    · simp
    · simp [h, h.symm, hj]

namespace ByteStore

/-- Bit `i` of the store, and zero behind its end. -/
def bitAt (s : ByteStore) (i : Nat) : Bool := (s.data.getD (i / 8) 0).toNat.testBit (i % 8)

theorem bit_eq_bitAt (s : ByteStore) {a : BitAddress} (h : a.bit ≤ 7) : s.bit a = s.bitAt a.index := by
  have hb : a.bit.toNat ≤ 7 := h
  have hdiv : a.index / 8 = a.byte.toNat := by unfold BitAddress.index; omega
  have hmod : a.index % 8 = a.bit.toNat := by unfold BitAddress.index; omega
  rw [bit, bitAt, hdiv, hmod]

/-- What an access reads if it succeeds. -/
def contents (s : ByteStore) (a : Access) : Value :=
  if a.width = 1 then .scalar (if s.bit a.offset then 1 else 0)
  else .ofBytes (s.slice a.offset.byte.toNat a.byteLength)

theorem read_eq_ok {s : ByteStore} {a : Access} {v : Value} :
    s.read a = .ok v ↔ a.Within s.size ∧ s.contents a = v := by
  unfold read contents
  rw [bind_eq_ok]
  constructor
  · rintro ⟨⟨⟩, hc, hr⟩
    refine ⟨Access.check_eq_ok.mp hc, ?_⟩
    split_ifs at hr ⊢ <;> exact pure_eq_ok.mp hr
  · rintro ⟨hc, rfl⟩
    refine ⟨(), Access.check_eq_ok.mpr hc, ?_⟩
    split_ifs <;> rfl

/-- The store after a write that succeeds. -/
def written (s : ByteStore) (a : Access) (v : Value) : ByteStore :=
  if a.width = 1 then
    .ofData (s.data.modify a.offset.byte.toNat (setBit · a.offset.bit (v ≠ .scalar 0)))
  else .ofData (overwrite s.data a.offset.byte.toNat (v.toBytes a.byteLength))

theorem write_of_within {s : ByteStore} {a : Access} {v : Value} (ha : a.Within s.size)
    (hv : v.Fits a.width) : s.write a v = .ok (s.written a v) := by
  simp only [write, written, Access.check_eq_ok.mpr ha, hv, bind, Except.bind, not_true_eq_false,
    ↓reduceIte]
  split_ifs <;> rfl

theorem write_eq_ok {s s' : ByteStore} {a : Access} {v : Value} :
    s.write a v = .ok s' ↔ a.Within s.size ∧ v.Fits a.width ∧ s.written a v = s' := by
  constructor
  · intro h
    have ha : a.Within s.size := by
      obtain ⟨⟨⟩, hc, -⟩ := bind_eq_ok.mp h
      exact Access.check_eq_ok.mp hc
    have hv : v.Fits a.width := by
      by_contra hv
      simp [write, Access.check_eq_ok.mpr ha, hv, bind, Except.bind, throw, throwThe,
        MonadExceptOf.throw] at h
    exact ⟨ha, hv, Except.ok.inj ((write_of_within ha hv).symm.trans h)⟩
  · rintro ⟨ha, hv, rfl⟩
    exact write_of_within ha hv

theorem read_inArea {s : ByteStore} {a : Access} {v : Value} (h : s.read a = .ok v) (area : Area) :
    s.read { a with area } = .ok v := by
  obtain ⟨hw, hc⟩ := read_eq_ok.mp h
  exact read_eq_ok.mpr ⟨hw.inArea area, hc⟩

theorem write_inArea {s s' : ByteStore} {a : Access} {v : Value} (h : s.write a v = .ok s')
    (area : Area) : s.write { a with area } v = .ok s' := by
  obtain ⟨hw, hv, hs⟩ := write_eq_ok.mp h
  exact write_eq_ok.mpr ⟨hw.inArea area, hv, hs⟩

theorem getD_eq_of_bitAt {s t : ByteStore} {k : Nat}
    (h : ∀ i, i / 8 = k → s.bitAt i = t.bitAt i) : s.data.getD k 0 = t.data.getD k 0 := by
  apply UInt8.toNat.inj
  apply Nat.eq_of_testBit_eq
  intro j
  by_cases hj : j < 8
  · have hi := h (8 * k + j) (by omega)
    have hd : (8 * k + j) / 8 = k := by omega
    have hm : (8 * k + j) % 8 = j := by omega
    rwa [bitAt, bitAt, hd, hm] at hi
  · have hpow : 2 ^ 8 ≤ 2 ^ j := Nat.pow_le_pow_right (by decide) (by omega)
    rw [Nat.testBit_lt_two_pow (Nat.lt_of_lt_of_le (UInt8.toNat_lt _) hpow),
      Nat.testBit_lt_two_pow (Nat.lt_of_lt_of_le (UInt8.toNat_lt _) hpow)]

theorem getElem?_slice (s : ByteStore) (start count k : Nat) (h : start + count ≤ s.size) :
    (s.slice start count)[k]? = if k < count then some (s.data.getD (start + k) 0) else none := by
  unfold slice
  rw [Array.getElem?_toList, Array.getElem?_extract]
  rw [← size_data] at h
  split_ifs with h₁ h₂ h₂
  · rw [Array.getD_eq_getD_getElem?, Array.getElem?_eq_getElem (by omega)]; rfl
  · omega
  · omega
  · rfl

theorem length_slice (s : ByteStore) (start count : Nat) (h : start + count ≤ s.size) :
    (s.slice start count).length = count := by
  rw [← size_data] at h
  simp only [slice, Array.length_toList, Array.size_extract]
  omega

theorem contents_congr {s t : ByteStore} {a : Access} (hs : a.Within s.size) (ht : a.Within t.size)
    (h : ∀ i, a.Covers i → s.bitAt i = t.bitAt i) : s.contents a = t.contents a := by
  by_cases hw : a.width = 1
  · have hbit : s.bit a.offset = t.bit a.offset := by
      rw [bit_eq_bitAt s hs.aligned.1, bit_eq_bitAt t hs.aligned.1]
      exact h _ ⟨Nat.le_refl _, by simp [hw]⟩
    rw [contents, contents, if_pos hw, if_pos hw, hbit]
  · obtain ⟨hindex, hwidth⟩ := hs.index_eq hw
    rw [contents, contents, if_neg hw, if_neg hw]
    congr 1
    apply List.ext_getElem?
    intro k
    rw [getElem?_slice s _ _ _ hs.fits, getElem?_slice t _ _ _ ht.fits]
    split_ifs with hk
    · congr 1
      apply getD_eq_of_bitAt
      intro i hi
      exact h i ⟨by omega, by omega⟩
    · rfl

theorem read_congr {s t : ByteStore} {a : Access} (hsize : s.size = t.size)
    (h : a.Within s.size → ∀ i, a.Covers i → s.bitAt i = t.bitAt i) : s.read a = t.read a := by
  unfold read
  rw [← hsize]
  cases hc : a.check s.size with
  | error e => rfl
  | ok u =>
    have ha : a.Within s.size := Access.check_eq_ok.mp hc
    have he := contents_congr ha (hsize ▸ ha) (h ha)
    unfold contents at he
    simp only [bind, Except.bind]
    split_ifs at he ⊢ <;> exact congrArg _ he

@[simp]
theorem size_written (s : ByteStore) (a : Access) (v : Value) : (s.written a v).size = s.size := by
  unfold written
  split_ifs <;> simp

theorem bitAt_modify (s : ByteStore) (k : Nat) (f : UInt8 → UInt8) (i : Nat) (hk : k < s.size) :
    bitAt (.ofData (s.data.modify k f)) i =
      if i / 8 = k then (f (s.data.getD k 0)).toNat.testBit (i % 8) else s.bitAt i := by
  rw [← size_data] at hk
  simp only [bitAt, data_ofData, Array.getD_eq_getD_getElem?, Array.getElem?_modify]
  split_ifs with h h' h'
  · rw [← h, Array.getElem?_eq_getElem (by omega)]
    rfl
  · omega
  · omega
  · rfl

theorem length_toBytes {v : Value} {a : Access} {size : Nat} (ha : a.Within size)
    (hv : v.Fits a.width) (hw : a.width ≠ 1) : (v.toBytes a.byteLength).length = a.byteLength := by
  cases v with
  | scalar n => exact BigEndian.length_encode _ _
  | bytes bs =>
    have hlen : 8 * bs.length = a.width.toNat := hv
    have := (ha.index_eq hw).2
    simp only [Value.toBytes]
    omega

theorem bitAt_written {s : ByteStore} {a : Access} {v : Value} {i : Nat} (ha : a.Within s.size)
    (hv : v.Fits a.width) (hi : ¬ a.Covers i) : (s.written a v).bitAt i = s.bitAt i := by
  have hf := ha.fits
  unfold Access.byteEnd at hf
  unfold written
  split_ifs with hw
  · have hbit : a.offset.bit.toNat ≤ 7 := ha.aligned.1
    have hne : i ≠ a.offset.index := by
      rintro rfl
      exact hi ⟨Nat.le_refl _, by simp [hw]⟩
    rw [bitAt_modify _ _ _ _ (by simp only [Access.byteLength, hw, ↓reduceIte] at hf; exact hf)]
    split_ifs with hk
    · unfold BitAddress.index at hne
      rw [testBit_toNat_setBit _ ha.aligned.1 _ (Nat.mod_lt _ (by decide)), if_neg (by omega), bitAt, hk]
    · rfl
  · obtain ⟨hindex, hwidth⟩ := ha.index_eq hw
    have hlen := length_toBytes ha hv hw
    have hout : ¬ (a.offset.byte.toNat ≤ i / 8 ∧ i / 8 < a.offset.byte.toNat + a.byteLength) := by
      rintro ⟨h₁, h₂⟩
      exact hi ⟨by omega, by omega⟩
    unfold bitAt
    rw [Array.getD_eq_getD_getElem?, Array.getD_eq_getD_getElem?]
    by_cases hsize : i / 8 < s.data.size
    · rw [data_ofData, getElem?_overwrite _ _ _ _ hsize, if_neg (by rw [hlen]; exact hout)]
    · rw [Array.getElem?_eq_none (by rw [data_ofData, size_overwrite]; omega),
        Array.getElem?_eq_none (by omega)]

theorem contents_written {s : ByteStore} {a : Access} {v : Value} (ha : a.Within s.size)
    (hv : v.Fits a.width) : (s.written a v).contents a = v.canonical := by
  have hf := ha.fits
  unfold Access.byteEnd at hf
  by_cases hw : a.width = 1
  · have hbit : a.offset.bit.toNat ≤ 7 := ha.aligned.1
    have hdiv : a.offset.index / 8 = a.offset.byte.toNat := by unfold BitAddress.index; omega
    have hmod : a.offset.index % 8 = a.offset.bit.toNat := by unfold BitAddress.index; omega
    simp only [Access.byteLength, hw, ↓reduceIte] at hf
    rw [contents, if_pos hw, bit_eq_bitAt _ ha.aligned.1, written, if_pos hw,
      bitAt_modify _ _ _ _ (by exact hf), if_pos hdiv,
      testBit_toNat_setBit _ ha.aligned.1 _ (Nat.mod_lt _ (by decide)), if_pos hmod]
    cases v with
    | scalar n =>
      have hn : n.toNat < 2 := by simpa [Value.Fits, Value.scalarBound, hw] using hv
      have hzero : n = 0 ∨ n = 1 := by
        rcases Nat.lt_succ_iff_lt_or_eq.mp hn with h | h
        · exact .inl (UInt32.toNat.inj (Nat.lt_one_iff.mp h))
        · exact .inr (UInt32.toNat.inj h)
      rcases hzero with rfl | rfl <;> simp [Value.canonical]
    | bytes bs =>
      have hlen : 8 * bs.length = a.width.toNat := hv
      have hone : a.width.toNat = 1 := by
        rw [hw]
        rfl
      omega
  · have hlen := length_toBytes ha hv hw
    have hslice : (s.written a v).slice a.offset.byte.toNat a.byteLength = v.toBytes a.byteLength := by
      apply List.ext_getElem?
      intro k
      rw [getElem?_slice _ _ _ _ (by rw [size_written]; exact hf), written, if_neg hw]
      split_ifs with hk
      · have hk' : a.offset.byte.toNat + k < s.data.size := by
          rw [size_data]
          omega
        rw [data_ofData, Array.getD_eq_getD_getElem?, getElem?_overwrite _ _ _ _ hk', if_pos ⟨by omega, by omega⟩,
          Nat.add_sub_cancel_left, List.getElem?_eq_getElem (by omega)]
        rfl
      · rw [List.getElem?_eq_none (by omega)]
    rw [contents, if_neg hw, hslice, Access.byteLength, if_neg hw, Value.ofBytes_toBytes hv hw]

theorem contents_fits {s : ByteStore} {a : Access} (ha : a.Within s.size) :
    (s.contents a).Fits a.width ∧ (s.contents a).canonical = s.contents a := by
  by_cases hw : a.width = 1
  · rw [contents, if_pos hw, hw]
    split_ifs <;> exact ⟨by decide, rfl⟩
  · have hlen : 8 * (s.slice a.offset.byte.toNat a.byteLength).length = a.width.toNat := by
      rw [length_slice _ _ _ ha.fits, (ha.index_eq hw).2]
    rw [contents, if_neg hw]
    exact ⟨Value.fits_ofBytes hlen, Value.canonical_ofBytes _⟩

theorem contents_inArea (s : ByteStore) (a : Access) (area : Area) :
    s.contents { a with area } = s.contents a := rfl

theorem read_of_write {s s' : ByteStore} {a : Access} {v : Value} (h : s.write a v = .ok s')
    (area : Area) : s'.read { a with area } = .ok v.canonical := by
  obtain ⟨ha, hv, rfl⟩ := write_eq_ok.mp h
  refine read_eq_ok.mpr ⟨?_, (contents_inArea _ a area).trans (contents_written ha hv)⟩
  rw [size_written]
  exact ha.inArea area

theorem bitAt_of_write {s s' : ByteStore} {a : Access} {v : Value} {i : Nat}
    (h : s.write a v = .ok s') (hi : ¬ a.Covers i) : s'.bitAt i = s.bitAt i := by
  obtain ⟨ha, hv, rfl⟩ := write_eq_ok.mp h
  exact bitAt_written ha hv hi

/-- What an access reads tells the bits that it covers. -/
theorem bitAt_eq_of_contents_eq {s t : ByteStore} {a : Access} {i : Nat} (hs : a.Within s.size)
    (ht : a.Within t.size) (h : s.contents a = t.contents a) (hi : a.Covers i) :
    s.bitAt i = t.bitAt i := by
  by_cases hw : a.width = 1
  · obtain rfl : i = a.offset.index := by
      have h₁ := hi.1
      have h₂ := hi.2
      simp only [hw, UInt32.reduceToNat] at h₂
      omega
    rw [contents, contents, if_pos hw, if_pos hw, bit_eq_bitAt s hs.aligned.1,
      bit_eq_bitAt t hs.aligned.1] at h
    cases hb : s.bitAt a.offset.index <;> cases hb' : t.bitAt a.offset.index <;> simp_all
  · obtain ⟨hindex, hwidth⟩ := hs.index_eq hw
    rw [contents, contents, if_neg hw, if_neg hw] at h
    have hslice := Value.ofBytes_inj
      ((length_slice s _ _ hs.fits).trans (length_slice t _ _ ht.fits).symm) h
    have hbyte := congrArg (·[i / 8 - a.offset.byte.toNat]?) hslice
    have hlo := hi.1
    have hhi := hi.2
    rw [getElem?_slice s _ _ _ hs.fits, getElem?_slice t _ _ _ ht.fits, if_pos (by omega),
      if_pos (by omega), Nat.add_sub_cancel' (by omega)] at hbyte
    rw [bitAt, bitAt, Option.some.inj hbyte]

theorem eq_of_bitAt {s t : ByteStore} (hsize : s.size = t.size)
    (h : ∀ i, s.bitAt i = t.bitAt i) : s = t := by
  apply ext_data
  apply Array.ext (by rw [size_data, size_data, hsize])
  intro k hk hk'
  have hbyte : s.data.getD k 0 = t.data.getD k 0 := getD_eq_of_bitAt fun i _ => h i
  rwa [Array.getD_eq_getD_getElem?, Array.getD_eq_getD_getElem?, Array.getElem?_eq_getElem hk,
    Array.getElem?_eq_getElem hk'] at hbyte

theorem written_contents {s : ByteStore} {a : Access} (ha : a.Within s.size) :
    s.written a (s.contents a) = s := by
  obtain ⟨hfits, hcanonical⟩ := contents_fits ha
  apply eq_of_bitAt (size_written s a _)
  intro i
  by_cases hi : a.Covers i
  · apply bitAt_eq_of_contents_eq (by rwa [size_written]) ha _ hi
    rw [contents_written ha hfits, hcanonical]
  · exact bitAt_written ha hfits hi

theorem write_of_read {s : ByteStore} {a : Access} {v : Value} (h : s.read a = .ok v) :
    s.write a v = .ok s := by
  obtain ⟨ha, rfl⟩ := read_eq_ok.mp h
  exact write_eq_ok.mpr ⟨ha, (contents_fits ha).1, written_contents ha⟩

theorem bitAt_written_covered {s t : ByteStore} {a : Access} {v : Value} {i : Nat}
    (hs : a.Within s.size) (ht : a.Within t.size) (hv : v.Fits a.width) (hi : a.Covers i) :
    (s.written a v).bitAt i = (t.written a v).bitAt i := by
  apply bitAt_eq_of_contents_eq (by rwa [size_written]) (by rwa [size_written]) _ hi
  rw [contents_written hs hv, contents_written ht hv]

theorem write_cases {s t : ByteStore} (hsize : s.size = t.size) (a : Access) (v : Value) :
    (∃ e, s.write a v = .error e ∧ t.write a v = .error e) ∨
      a.Within s.size ∧ v.Fits a.width ∧ s.write a v = .ok (s.written a v) ∧
        t.write a v = .ok (t.written a v) := by
  by_cases ha : a.Within s.size
  · by_cases hv : v.Fits a.width
    · exact .inr ⟨ha, hv, write_of_within ha hv, write_of_within (hsize ▸ ha) hv⟩
    · left
      unfold write
      rw [← hsize, Access.check_eq_ok.mpr ha]
      simp only [hv, not_false_eq_true, ↓reduceIte]
      exact ⟨_, rfl, rfl⟩
  · left
    unfold write
    rw [← hsize]
    cases hc : a.check s.size with
    | ok u => exact absurd (Access.check_eq_ok.mp hc) ha
    | error e => exact ⟨e, rfl, rfl⟩

end ByteStore

end PlcMachine
