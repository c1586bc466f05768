import Mathlib.Algebra.BigOperators.Fin
import Mathlib.Data.Nat.Digits.Defs
import PlcMachine.LocalStack.Basic
import PlcMachine.Proofs.Storage.Bits

/-! # Accesses of different widths

Accesses of all widths to one row of bytes go to the same bits. A read of several bytes combines the reads
of the single bytes, the read of a byte adds up the reads of its bits, and a write of several bytes leaves
what writes of the single bytes leave.
-/

namespace PlcMachine

namespace Access

def byte (area : Area) (k : UInt32) : Access := ⟨area, .ofByte k, 8⟩

def bit (area : Area) (k : UInt32) (i : Fin 8) : Access := ⟨area, ⟨k, .ofNat i⟩, 1⟩

/-- The access is to whole bytes, and these are their numbers in order. Bytes without a number of 32 bits,
which only data blocks of more than 4 GiB have, cannot be accessed alone. -/
def ConsistsOf (a : Access) (ks : List UInt32) : Prop :=
  a.width ≠ 1 ∧ ks.map UInt32.toNat = List.range' a.offset.byte.toNat a.byteLength

theorem ValidWidth.eq_byteLength {a : Access} (h : a.ValidWidth) (hw : a.width ≠ 1) :
    a.width.toNat = 8 * a.byteLength ∧ 0 < a.byteLength := by
  obtain ⟨hzero, hmod⟩ := h.resolve_left hw
  have hpos : a.width.toNat ≠ 0 := fun h => hzero (UInt32.toNat.inj h)
  rw [byteLength, if_neg hw]
  omega

theorem ConsistsOf.ne_nil {a : Access} {ks : List UInt32} (h : a.ConsistsOf ks) (hvalid : a.ValidWidth) :
    ks ≠ [] := by
  rintro rfl
  obtain ⟨-, hcount⟩ := hvalid.eq_byteLength h.1
  have hlength : 0 = a.byteLength := by simpa using congrArg List.length h.2
  omega

end Access

/-- The value that bytes combine to: at 8, 16 and 32 bits the number with the first byte highest, and at
every other width the bytes themselves. -/
def Value.combine (width : UInt32) (bytes : List UInt8) : Value :=
  if width = 8 ∨ width = 16 ∨ width = 32 then
    .scalar (.ofNat (Nat.ofDigits 256 (bytes.reverse.map UInt8.toNat)))
  else .bytes bytes

/-- All accesses to an area of some size, whatever their width, go to the same bits. -/
structure Coherent {σ : Type} (read : σ → Access → Except AccessError Value)
    (write : σ → Access → Value → Except AccessError σ) (area : Area) (size : σ → Nat) : Prop where
  exists_read_byte : ∀ s k, (∃ v, read s (.byte area k) = .ok v) ↔ k.toNat < size s
  /-- Whole bytes can be read if each of them can, as what these combine to. -/
  read_bytes : ∀ s a ks v, a.area = area → a.ConsistsOf ks →
    (read s a = .ok v ↔ a.ValidWidth ∧ a.Aligned ∧ ∃ bs : List UInt8,
      ks.mapM (fun k => read s (.byte area k)) = .ok (bs.map fun b => .scalar b.toUInt32) ∧
        v = .combine a.width bs)
  /-- A byte can be read if its bits can, as the sum of them. -/
  read_byte : ∀ s k v, read s (.byte area k) = .ok v ↔ ∃ bits : Fin 8 → Bool,
    (∀ i, read s (.bit area k i) = .ok (.scalar (if bits i then 1 else 0))) ∧
      v = .scalar (.ofNat (∑ i, 2 ^ i.val * (bits i).toNat))
  /-- What can be read can be written with every value that fits. -/
  exists_write : ∀ s a v, a.area = area →
    ((∃ s', write s a v = .ok s') ↔ v.Fits a.width ∧ ∃ u, read s a = .ok u)
  /-- A write of whole bytes leaves what writes of the single bytes leave. -/
  write_bytes : ∀ s s' a ks v, a.area = area → a.ConsistsOf ks → write s a v = .ok s' →
    ∃ bs : List UInt8, bs.length = ks.length ∧ (v = .bytes bs ∨ v = .combine a.width bs) ∧
      (ks.zip bs).foldlM (fun s part => write s (.byte area part.1) (.scalar part.2.toUInt32)) s =
        .ok s'
  /-- A write of a byte leaves all other bytes. -/
  write_byte : ∀ s s' k (b : UInt8), write s (.byte area k) (.scalar b.toUInt32) = .ok s' →
    ∀ k', read s' (.byte area k') =
      if k' = k then .ok (.scalar b.toUInt32) else read s (.byte area k')
  /-- A write of a bit leaves all other bits. -/
  write_bit : ∀ s s' k i v, write s (.bit area k i) v = .ok s' →
    (v = .scalar 0 ∨ v = .scalar 1) ∧ ∀ k' i', read s' (.bit area k' i') =
      if k' = k ∧ i' = i then .ok v else read s (.bit area k' i')
  /-- Bytes are written as the number that they combine to is. -/
  write_combine : ∀ s a bs, a.area = area → 8 * bs.length = a.width.toNat →
    write s a (.bytes bs) = write s a (.combine a.width bs)

namespace BigEndian

theorem decode_eq_ofDigits (bytes : List UInt8) :
    decode bytes = Nat.ofDigits 256 (bytes.reverse.map UInt8.toNat) := by
  rw [← bytes.reverse_reverse]
  induction bytes.reverse with
  | nil => rfl
  | cons b r ih =>
    rw [List.reverse_reverse] at ih
    rw [List.reverse_cons, decode_append_singleton, List.reverse_concat, List.reverse_reverse,
      List.map_cons, Nat.ofDigits_cons, ih]
    exact Nat.add_comm _ _

end BigEndian

namespace Value

variable {bs : List UInt8} {width : UInt32}

theorem combine_eq_ofBytes (h : 8 * bs.length = width.toNat) : combine width bs = ofBytes bs := by
  have hlengths : (width = 8 ∨ width = 16 ∨ width = 32) ↔ bs.length ∈ [1, 2, 4] := by
    simp only [← UInt32.toNat_inj, ← h, UInt32.reduceToNat, List.mem_cons, List.not_mem_nil, or_false]
    omega
  simp only [combine, ofBytes, hlengths, BigEndian.decode_eq_ofDigits]

theorem fits_combine (h : 8 * bs.length = width.toNat) : (combine width bs).Fits width := by
  rw [combine_eq_ofBytes h]
  exact fits_ofBytes h

theorem toBytes_combine (h : 8 * bs.length = width.toNat) :
    (combine width bs).toBytes bs.length = bs := by
  rw [combine_eq_ofBytes h]
  unfold ofBytes
  split_ifs with hl
  · have hlt := BigEndian.decode_lt bs
    have hle : Nat.pow 256 bs.length ≤ UInt32.size := by
      simp only [List.mem_cons, List.not_mem_nil, or_false] at hl
      rcases hl with hl | hl | hl <;> rw [hl] <;> decide
    rw [toBytes, UInt32.toNat_ofNat_of_lt' (Nat.lt_of_lt_of_le hlt hle), BigEndian.encode_decode]
  · rfl

end Value

theorem toNat_ofNat_fin (i : Fin 8) : (UInt8.ofNat i).toNat = i :=
  UInt8.toNat_ofNat_of_lt' (Nat.lt_trans i.isLt (by decide))

theorem sum_testBit (n count : Nat) :
    ∑ i : Fin count, 2 ^ i.val * (n.testBit i.val).toNat = n % 2 ^ count := by
  induction count with
  | zero => simp [Nat.mod_one]
  | succ count ih =>
    rw [Fin.sum_univ_castSucc, pow_succ, Nat.mod_mul, ← ih, ← Nat.toNat_testBit]
    rfl

theorem ofNat_sum_bits (b : UInt8) :
    UInt32.ofNat (∑ i : Fin 8, 2 ^ i.val * (b.toNat.testBit i).toNat) = b.toUInt32 := by
  rw [sum_testBit, Nat.mod_eq_of_lt b.toNat_lt]
  simp

namespace ByteStore

variable {s s' : ByteStore} {area : Area} {a : Access} {v : Value} {bs : List UInt8} {ks : List UInt32}
  {k : UInt32} {start count : Nat}

theorem mapM_read_byte : ks.mapM (fun k => s.read (.byte area k)) =
    .ok (bs.map fun b => .scalar b.toUInt32) ↔ ks.map (s.data[·.toNat]?) = bs.map some := by
  induction ks generalizing bs with
  | nil =>
    rw [List.mapM_nil, pure_eq_ok]
    cases bs <;> simp
  | cons k ks ih =>
    rw [List.mapM_cons, bind_eq_ok, List.map_cons]
    constructor
    · rintro ⟨v, hv, hrest⟩
      obtain ⟨vs, hvs, hcons⟩ := bind_eq_ok.mp hrest
      obtain ⟨b, hb, rfl⟩ := read_byte.mp hv
      obtain ⟨b', bs', rfl, hb', rfl⟩ := List.map_eq_cons_iff.mp (pure_eq_ok.mp hcons).symm
      obtain rfl : b' = b := UInt8.toUInt32_inj.mp (Value.scalar.inj hb')
      rw [hb, ih.mp hvs, List.map_cons]
    · intro h
      obtain ⟨b, bs', rfl, hb, hbs⟩ := List.map_eq_cons_iff.mp h.symm
      refine ⟨_, read_byte.mpr ⟨b, hb.symm, rfl⟩, bind_eq_ok.mpr ⟨_, ih.mpr hbs.symm, ?_⟩⟩
      rfl

theorem map_getElem?_range' (hcount : 0 < count) :
    (List.range' start count).map (s.data[·]?) = bs.map some ↔
      start + count ≤ s.size ∧ s.slice start count = bs := by
  have hget (j : Nat) : ((List.range' start count).map (s.data[·]?))[j]? =
      if j < count then some s.data[start + j]? else none := by
    rw [List.getElem?_map]
    split_ifs with hj
    · rw [List.getElem?_range' hj, Nat.one_mul, Option.map_some]
    · rw [List.getElem?_eq_none (by simpa using hj), Option.map_none]
  constructor
  · intro h
    have hbyte (j : Nat) (hj : j < count) : s.data[start + j]? = bs[j]? := by
      have hj' := congrArg (·[j]?) h
      simp only [hget, hj, ↓reduceIte, List.getElem?_map] at hj'
      cases hb : bs[j]? <;> simp_all
    have hlength : bs.length = count := by simpa using (congrArg List.length h).symm
    have hle : start + count ≤ s.size := by
      have hlast := hbyte (count - 1) (by omega)
      rw [List.getElem?_eq_getElem (by omega)] at hlast
      obtain ⟨hlt, -⟩ := Array.getElem?_eq_some_iff.mp hlast
      rw [size_data] at hlt
      omega
    refine ⟨hle, List.ext_getElem? fun j => ?_⟩
    rw [getElem?_slice _ _ _ _ hle]
    split_ifs with hj
    · rw [← hbyte j hj, Array.getD_eq_getD_getElem?, hbyte j hj, List.getElem?_eq_getElem (by omega)]
      rfl
    · rw [List.getElem?_eq_none (by omega)]
  · rintro ⟨hle, rfl⟩
    apply List.ext_getElem?
    intro j
    rw [hget, List.getElem?_map, getElem?_slice _ _ _ _ hle]
    split_ifs with hj
    · have hlt : start + j < s.data.size := by
        rw [size_data]
        omega
      simp [Array.getElem?_eq_getElem hlt]
    · rfl

theorem read_bit {i : Fin 8} : s.read (.bit area k i) = .ok v ↔
    ∃ b, s.data[k.toNat]? = some b ∧ v = .scalar (if b.toNat.testBit i then 1 else 0) := by
  have hbit := toNat_ofNat_fin i
  have hwithin : (Access.bit area k i).Within s.size ↔ k.toNat < s.data.size := by
    rw [size_data]
    constructor
    · intro h
      exact h.fits
    · intro h
      refine ⟨.inl rfl, ⟨?_, .inl rfl⟩, h⟩
      change (UInt8.ofNat i).toNat ≤ 7
      omega
  have hcontents : s.contents (.bit area k i) =
      .scalar (if (s.data.getD k.toNat 0).toNat.testBit i then 1 else 0) := by
    simp [contents, Access.bit, bit, hbit]
  rw [read_eq_ok, hwithin, hcontents]
  constructor
  · rintro ⟨hk, rfl⟩
    exact ⟨_, Array.getElem?_eq_getElem hk, by simp [Array.getElem?_eq_getElem hk]⟩
  · rintro ⟨b, hb, rfl⟩
    obtain ⟨hk, rfl⟩ := Array.getElem?_eq_some_iff.mp hb
    exact ⟨hk, by simp [Array.getElem?_eq_getElem hk]⟩

theorem write_byte {b : UInt8} (hk : k.toNat < s.data.size) :
    s.write (.byte area k) (.scalar b.toUInt32) = .ok (.ofData (s.data.setIfInBounds k.toNat b)) := by
  have hwithin : (Access.byte area k).Within s.size :=
    (read_eq_ok.mp (read_byte.mpr ⟨_, Array.getElem?_eq_getElem hk, rfl⟩)).1
  have hfits : (Value.scalar b.toUInt32).Fits 8 := by
    rw [← Value.ofBytes_singleton]
    exact Value.fits_ofBytes (by rfl)
  rw [write_of_within hwithin hfits]
  simp [written, Access.byte, BitAddress.ofByte, Access.byteLength, Value.toBytes, BigEndian.encode,
    overwrite]

theorem foldlM_write_byte (hks : ks.map UInt32.toNat = List.range' start bs.length)
    (hle : start + bs.length ≤ s.size) :
    (ks.zip bs).foldlM (fun s part => s.write (.byte area part.1) (.scalar part.2.toUInt32)) s =
      .ok (.ofData (overwrite s.data start bs)) := by
  induction bs generalizing s start ks with
  | nil => simp [overwrite, pure, Except.pure]
  | cons b bs ih =>
    rw [List.length_cons, List.range'_succ] at hks
    obtain ⟨k, ks', rfl, rfl, hks'⟩ := List.map_eq_cons_iff.mp hks
    rw [List.length_cons] at hle
    have hk : k.toNat < s.data.size := by
      rw [size_data]
      omega
    rw [List.zip_cons_cons, List.foldlM_cons, write_byte hk]
    refine (ih hks' ?_).trans rfl
    rw [size_ofData, Array.size_setIfInBounds, size_data]
    omega

theorem read_of_write_apart (h : s.write a v = .ok s') {a' : Access}
    (hapart : ∀ j, a'.Covers j → ¬ a.Covers j) : s'.read a' = s.read a' :=
  read_congr (size_write h) fun _ j hj => bitAt_of_write h (hapart j hj)

theorem read_byte_of_write {b : UInt8} (h : s.write (.byte area k) (.scalar b.toUInt32) = .ok s')
    (k' : UInt32) : s'.read (.byte area k') =
      if k' = k then .ok (.scalar b.toUInt32) else s.read (.byte area k') := by
  split_ifs with hsame
  · obtain rfl := hsame
    exact read_of_write h area
  · refine read_of_write_apart h ?_
    intro j hj
    simp only [Access.Covers, Access.byte, BitAddress.ofByte, BitAddress.index,
      UInt32.reduceToNat] at hj ⊢
    rw [← UInt32.toNat_inj] at hsame
    omega

theorem read_bit_of_write {i : Fin 8} (h : s.write (.bit area k i) v = .ok s') :
    (v = .scalar 0 ∨ v = .scalar 1) ∧ ∀ k' i', s'.read (.bit area k' i') =
      if k' = k ∧ i' = i then .ok v else s.read (.bit area k' i') := by
  obtain ⟨-, hv, -⟩ := write_eq_ok.mp h
  have hvalue : v = .scalar 0 ∨ v = .scalar 1 := by
    cases v with
    | bytes bs =>
      have hlength : 8 * bs.length = 1 := hv
      omega
    | scalar n =>
      have hn : n.toNat < 2 := hv
      have hn' : n = 0 ∨ n = 1 := by
        simp only [← UInt32.toNat_inj, UInt32.reduceToNat]
        omega
      rcases hn' with rfl | rfl
      · exact .inl rfl
      · exact .inr rfl
  refine ⟨hvalue, ?_⟩
  intro k' i'
  split_ifs with hsame
  · obtain ⟨rfl, rfl⟩ := hsame
    have hread := read_of_write h area
    rcases hvalue with rfl | rfl <;> exact hread
  · refine read_of_write_apart h ?_
    intro j hj
    simp only [Access.Covers, Access.bit, BitAddress.index, toNat_ofNat_fin, UInt32.reduceToNat] at hj ⊢
    rw [← UInt32.toNat_inj, Fin.ext_iff] at hsame
    omega

theorem write_combine (hlength : 8 * bs.length = a.width.toNat) :
    s.write a (.bytes bs) = s.write a (.combine a.width bs) := by
  have hw : a.width ≠ 1 := by
    intro hw
    have hone : a.width.toNat = 1 := congrArg UInt32.toNat hw
    omega
  have hcount : a.byteLength = bs.length := by
    rw [Access.byteLength, if_neg hw]
    omega
  have hfits : (Value.bytes bs).Fits a.width := hlength
  unfold write
  simp only [hfits, Value.fits_combine hlength, hw, hcount, Value.toBytes_combine hlength]
  rfl

theorem exists_read_byte : (∃ v, s.read (.byte area k) = .ok v) ↔ k.toNat < s.size := by
  rw [← size_data]
  constructor
  · rintro ⟨v, hv⟩
    obtain ⟨b, hb, -⟩ := read_byte.mp hv
    exact (Array.getElem?_eq_some_iff.mp hb).1
  · intro hk
    exact ⟨_, read_byte.mpr ⟨_, Array.getElem?_eq_getElem hk, rfl⟩⟩

theorem read_bytes (hks : a.ConsistsOf ks) : s.read a = .ok v ↔ a.ValidWidth ∧ a.Aligned ∧
    ∃ bs : List UInt8, ks.mapM (fun k => s.read (.byte a.area k)) =
      .ok (bs.map fun b => .scalar b.toUInt32) ∧ v = .combine a.width bs := by
  obtain ⟨hw, hks⟩ := hks
  have hmap : ks.map (s.data[·.toNat]?) =
      (List.range' a.offset.byte.toNat a.byteLength).map (s.data[·]?) := by
    rw [← hks, List.map_map]
    rfl
  have hcontents (hvalid : a.ValidWidth) (hle : a.offset.byte.toNat + a.byteLength ≤ s.size) :
      s.contents a = .combine a.width (s.slice a.offset.byte.toNat a.byteLength) := by
    rw [contents, if_neg hw, Value.combine_eq_ofBytes]
    rw [length_slice _ _ _ hle, (hvalid.eq_byteLength hw).1]
  constructor
  · intro h
    obtain ⟨ha, rfl⟩ := read_eq_ok.mp h
    refine ⟨ha.width, ha.aligned, s.slice a.offset.byte.toNat a.byteLength, ?_, ?_⟩
    · rw [mapM_read_byte, hmap]
      exact (map_getElem?_range' (ha.width.eq_byteLength hw).2).mpr ⟨ha.fits, rfl⟩
    · exact hcontents ha.width ha.fits
  · rintro ⟨hvalid, haligned, bs, hbs, rfl⟩
    rw [mapM_read_byte, hmap, map_getElem?_range' (hvalid.eq_byteLength hw).2] at hbs
    obtain ⟨hle, rfl⟩ := hbs
    exact read_eq_ok.mpr ⟨⟨hvalid, haligned, hle⟩, hcontents hvalid hle⟩

theorem read_byte_iff_bits : s.read (.byte area k) = .ok v ↔ ∃ bits : Fin 8 → Bool,
    (∀ i, s.read (.bit area k i) = .ok (.scalar (if bits i then 1 else 0))) ∧
      v = .scalar (.ofNat (∑ i, 2 ^ i.val * (bits i).toNat)) := by
  constructor
  · intro h
    obtain ⟨b, hb, rfl⟩ := read_byte.mp h
    exact ⟨_, fun i => read_bit.mpr ⟨b, hb, rfl⟩, congrArg _ (ofNat_sum_bits b).symm⟩
  · rintro ⟨bits, hbits, rfl⟩
    obtain ⟨b, hb, -⟩ := read_bit.mp (hbits 0)
    have hall (i : Fin 8) : bits i = b.toNat.testBit i := by
      obtain ⟨b', hb', hi⟩ := read_bit.mp (hbits i)
      obtain rfl : b = b' := Option.some.inj (hb.symm.trans hb')
      have hdigit := Value.scalar.inj hi
      revert hdigit
      cases bits i <;> cases b.toNat.testBit i <;> decide
    refine read_byte.mpr ⟨b, hb, ?_⟩
    simp only [hall, ofNat_sum_bits]

theorem exists_write : (∃ s', s.write a v = .ok s') ↔ v.Fits a.width ∧ ∃ u, s.read a = .ok u := by
  constructor
  · rintro ⟨s', h⟩
    obtain ⟨ha, hv, -⟩ := write_eq_ok.mp h
    exact ⟨hv, _, read_eq_ok.mpr ⟨ha, rfl⟩⟩
  · rintro ⟨hv, u, hu⟩
    exact ⟨_, write_of_within (read_eq_ok.mp hu).1 hv⟩

theorem write_bytes (hks : a.ConsistsOf ks) (h : s.write a v = .ok s') :
    ∃ bs : List UInt8, bs.length = ks.length ∧ (v = .bytes bs ∨ v = .combine a.width bs) ∧
      (ks.zip bs).foldlM (fun s part => s.write (.byte a.area part.1) (.scalar part.2.toUInt32)) s =
        .ok s' := by
  obtain ⟨hw, hks⟩ := hks
  obtain ⟨ha, hv, rfl⟩ := write_eq_ok.mp h
  have hlength := length_toBytes ha hv hw
  refine ⟨v.toBytes a.byteLength, ?_, ?_, ?_⟩
  · simpa [hlength] using (congrArg List.length hks).symm
  · cases v with
    | bytes bs => exact .inl rfl
    | scalar n =>
      right
      rw [Value.combine_eq_ofBytes (by rw [hlength, (ha.width.eq_byteLength hw).1]), Access.byteLength,
        if_neg hw, Value.ofBytes_toBytes hv hw]
      rfl
  · have hle : a.offset.byte.toNat + a.byteLength ≤ s.size := ha.fits
    rw [← hlength] at hks hle
    rw [foldlM_write_byte hks hle, written, if_neg hw]

/-- The accesses to a row of bytes go to the same bits. -/
theorem coherent (area : Area) : Coherent read write area size where
  exists_read_byte := fun _ _ => exists_read_byte
  read_bytes := by
    rintro s a ks v rfl hks
    exact read_bytes hks
  read_byte := fun _ _ _ => read_byte_iff_bits
  exists_write := fun _ _ _ _ => exists_write
  write_bytes := by
    rintro s s' a ks v rfl hks h
    exact write_bytes hks h
  write_byte := fun _ _ _ _ h => read_byte_of_write h
  write_bit := fun _ _ _ _ _ h => read_bit_of_write h
  write_combine := fun _ _ _ _ hlength => write_combine hlength

end ByteStore

/-- Accesses to an area go to the row of bytes that is there, and fail if there is none. -/
structure GoesTo {σ : Type} (read : σ → Access → Except AccessError Value)
    (write : σ → Access → Value → Except AccessError σ) (area : Area) (view : σ → Option ByteStore)
    (put : σ → ByteStore → σ) : Prop where
  read_eq : ∀ {s b a}, view s = some b → a.area = area → read s a = b.read a
  write_eq : ∀ {s b a} v, view s = some b → a.area = area →
    write s a v = (b.write a v).map (put s)
  fails : ∀ {s}, view s = none →
    ∃ e, ∀ a, a.area = area → read s a = .error e ∧ ∀ v, write s a v = .error e
  view_put : ∀ {s b} b', view s = some b → view (put s b') = some b'
  put_put : ∀ s b b', put (put s b) b' = put s b'
  put_self : ∀ {s b}, view s = some b → put s b = s

namespace GoesTo

variable {σ : Type} {read : σ → Access → Except AccessError Value}
  {write : σ → Access → Value → Except AccessError σ} {area : Area} {view : σ → Option ByteStore}
  {put : σ → ByteStore → σ}

theorem foldlM_write (h : GoesTo read write area view put) {s : σ} {b : ByteStore}
    (hb : view s = some b) (parts : List (UInt32 × UInt8)) :
    parts.foldlM (fun s part => write s (.byte area part.1) (.scalar part.2.toUInt32)) s =
      (parts.foldlM (fun (b : ByteStore) part => b.write (.byte area part.1) (.scalar part.2.toUInt32)) b).map
        (put s) := by
  induction parts generalizing s b with
  | nil => exact congrArg Except.ok (h.put_self hb).symm
  | cons part parts ih =>
    rw [List.foldlM_cons, List.foldlM_cons, h.write_eq _ hb rfl]
    cases b.write (.byte area part.1) (.scalar part.2.toUInt32) with
    | error e => rfl
    | ok b' =>
      have hput : put (put s b') = put s := funext (h.put_put s b')
      exact (ih (h.view_put b' hb)).trans (by rw [hput]; rfl)

theorem read_eq_ok (h : GoesTo read write area view put) {s : σ} {a : Access} {v : Value}
    (ha : a.area = area) : read s a = .ok v ↔ ∃ b, view s = some b ∧ b.read a = .ok v := by
  cases hb : view s with
  | none =>
    obtain ⟨e, he⟩ := h.fails hb
    simp [(he a ha).1]
  | some b =>
    rw [h.read_eq hb ha]
    simp

theorem write_eq_ok (h : GoesTo read write area view put) {s s' : σ} {a : Access} {v : Value}
    (ha : a.area = area) :
    write s a v = .ok s' ↔ ∃ b b', view s = some b ∧ b.write a v = .ok b' ∧ put s b' = s' := by
  cases hb : view s with
  | none =>
    obtain ⟨e, he⟩ := h.fails hb
    simp [(he a ha).2]
  | some b =>
    rw [h.write_eq v hb ha]
    refine map_eq_ok.trans ?_
    simp

/-! What holds of a row of bytes holds wherever accesses go to one. -/

theorem exists_read_byte (h : GoesTo read write area view put) (s : σ) (k : UInt32) :
    (∃ v, read s (.byte area k) = .ok v) ↔ k.toNat < ((view s).map ByteStore.size).getD 0 := by
  cases hb : view s with
  | none => simp [h.read_eq_ok (a := .byte area k) rfl, hb]
  | some b =>
    rw [h.read_eq hb rfl]
    exact (ByteStore.coherent area).exists_read_byte b k

theorem mapM_read_absent (h : GoesTo read write area view put) {s : σ} (hs : view s = none)
    {ks : List UInt32} (hks : ks ≠ []) (vs : List Value) :
    ks.mapM (fun k => read s (.byte area k)) ≠ .ok vs := by
  obtain ⟨k, ks, rfl⟩ := List.exists_cons_of_ne_nil hks
  intro hvs
  obtain ⟨u, hu, -⟩ := bind_eq_ok.mp (List.mapM_cons.symm.trans hvs)
  obtain ⟨b, hb, -⟩ := (h.read_eq_ok rfl).mp hu
  cases hs.symm.trans hb

theorem read_bytes (h : GoesTo read write area view put) (s : σ) (a : Access) (ks : List UInt32)
    (v : Value) (ha : a.area = area) (hks : a.ConsistsOf ks) :
    read s a = .ok v ↔ a.ValidWidth ∧ a.Aligned ∧ ∃ bs : List UInt8,
      ks.mapM (fun k => read s (.byte area k)) = .ok (bs.map fun b => .scalar b.toUInt32) ∧
        v = .combine a.width bs := by
  cases hb : view s with
  | none =>
    constructor
    · intro hread
      obtain ⟨b, hb', -⟩ := (h.read_eq_ok ha).mp hread
      cases hb.symm.trans hb'
    · rintro ⟨hvalid, -, bs, hbs, -⟩
      exact absurd hbs (h.mapM_read_absent hb (hks.ne_nil hvalid) _)
  | some b =>
    have hbytes : (fun k => read s (.byte area k)) = fun k => b.read (.byte area k) :=
      funext fun k => h.read_eq hb rfl
    rw [h.read_eq hb ha, hbytes]
    exact (ByteStore.coherent area).read_bytes b a ks v ha hks

theorem read_byte (h : GoesTo read write area view put) (s : σ) (k : UInt32) (v : Value) :
    read s (.byte area k) = .ok v ↔ ∃ bits : Fin 8 → Bool,
      (∀ i, read s (.bit area k i) = .ok (.scalar (if bits i then 1 else 0))) ∧
        v = .scalar (.ofNat (∑ i, 2 ^ i.val * (bits i).toNat)) := by
  have hbit {i : Fin 8} {u : Value} := h.read_eq_ok (s := s) (a := .bit area k i) (v := u) rfl
  rw [h.read_eq_ok rfl]
  simp only [(ByteStore.coherent area).read_byte, hbit]
  constructor
  · rintro ⟨b, hb, bits, hbits, hv⟩
    exact ⟨bits, fun i => ⟨b, hb, hbits i⟩, hv⟩
  · rintro ⟨bits, hbits, hv⟩
    obtain ⟨b, hb, -⟩ := hbits 0
    refine ⟨b, hb, bits, fun i => ?_, hv⟩
    obtain ⟨b', hb', hi⟩ := hbits i
    obtain rfl : b = b' := Option.some.inj (hb.symm.trans hb')
    exact hi

theorem exists_write (h : GoesTo read write area view put) (s : σ) (a : Access) (v : Value)
    (ha : a.area = area) :
    (∃ s', write s a v = .ok s') ↔ v.Fits a.width ∧ ∃ u, read s a = .ok u := by
  cases hb : view s with
  | none => simp [h.read_eq_ok ha, h.write_eq_ok ha, hb]
  | some b =>
    rw [h.read_eq hb ha, h.write_eq v hb ha, exists_map_eq_ok]
    exact (ByteStore.coherent area).exists_write b a v ha

theorem write_bytes (h : GoesTo read write area view put) (s s' : σ) (a : Access)
    (ks : List UInt32) (v : Value) (ha : a.area = area) (hks : a.ConsistsOf ks)
    (hw : write s a v = .ok s') :
    ∃ bs : List UInt8, bs.length = ks.length ∧ (v = .bytes bs ∨ v = .combine a.width bs) ∧
      (ks.zip bs).foldlM (fun s part => write s (.byte area part.1) (.scalar part.2.toUInt32)) s =
        .ok s' := by
  obtain ⟨b, b', hb, hb', rfl⟩ := (h.write_eq_ok ha).mp hw
  obtain ⟨bs, hlength, hparts, hfold⟩ :=
    (ByteStore.coherent area).write_bytes b b' a ks v ha hks hb'
  refine ⟨bs, hlength, hparts, ?_⟩
  rw [h.foldlM_write hb, hfold]
  rfl

theorem write_byte (h : GoesTo read write area view put) (s s' : σ) (k : UInt32) (c : UInt8)
    (hw : write s (.byte area k) (.scalar c.toUInt32) = .ok s') (k' : UInt32) :
    read s' (.byte area k') =
      if k' = k then .ok (.scalar c.toUInt32) else read s (.byte area k') := by
  obtain ⟨b, b', hb, hb', rfl⟩ := (h.write_eq_ok rfl).mp hw
  rw [h.read_eq (h.view_put b' hb) rfl, h.read_eq hb rfl,
    (ByteStore.coherent area).write_byte b b' k c hb']

theorem write_bit (h : GoesTo read write area view put) (s s' : σ) (k : UInt32) (i : Fin 8)
    (v : Value) (hw : write s (.bit area k i) v = .ok s') :
    (v = .scalar 0 ∨ v = .scalar 1) ∧ ∀ k' i', read s' (.bit area k' i') =
      if k' = k ∧ i' = i then .ok v else read s (.bit area k' i') := by
  obtain ⟨b, b', hb, hb', rfl⟩ := (h.write_eq_ok rfl).mp hw
  obtain ⟨hvalue, hbits⟩ := (ByteStore.coherent area).write_bit b b' k i v hb'
  refine ⟨hvalue, fun k' i' => ?_⟩
  rw [h.read_eq (h.view_put b' hb) rfl, h.read_eq hb rfl, hbits]

theorem write_combine (h : GoesTo read write area view put) (s : σ) (a : Access) (bs : List UInt8)
    (ha : a.area = area) (hlength : 8 * bs.length = a.width.toNat) :
    write s a (.bytes bs) = write s a (.combine a.width bs) := by
  cases hb : view s with
  | none =>
    obtain ⟨e, he⟩ := h.fails hb
    rw [(he a ha).2, (he a ha).2]
  | some b =>
    rw [h.write_eq _ hb ha, h.write_eq _ hb ha,
      (ByteStore.coherent area).write_combine b a bs ha hlength]

theorem coherent (h : GoesTo read write area view put) :
    Coherent read write area fun s => ((view s).map ByteStore.size).getD 0 where
  exists_read_byte := h.exists_read_byte
  read_bytes := h.read_bytes
  read_byte := h.read_byte
  exists_write := h.exists_write
  write_bytes := h.write_bytes
  write_byte := h.write_byte
  write_bit := h.write_bit
  write_combine := h.write_combine

end GoesTo

theorem Memory.setBytes_setBytes (m : Memory) (area : Area) (s s' : ByteStore) :
    (m.setBytes s area).setBytes s' area = m.setBytes s' area := by
  cases area with
  | dataBlock number => exact setBlock_setBlock m number s s'
  | _ => rfl

theorem Memory.goesTo {area : Area} (h : area.isTable = false) :
    GoesTo read write area (·.bytes? area) fun m s => m.setBytes s area where
  read_eq := by
    rintro m s a hs rfl
    exact read_of_bytes? hs
  write_eq := by
    rintro m s a v hs rfl
    exact write_of_bytes? hs
  fails := by
    intro m hs
    cases area with
    | timer | counter => cases h
    | dataBlock number =>
      refine ⟨.noSuchBlock number, ?_⟩
      rintro ⟨_, offset, width⟩ rfl
      exact ⟨(fails_of_absent (v := .scalar 0) hs rfl).1, fun v => (fails_of_absent hs rfl).2⟩
    | _ =>
      refine ⟨.noActiveFrame, ?_⟩
      rintro ⟨_, offset, width⟩ rfl
      exact ⟨(fails_of_absent (v := .scalar 0) hs rfl).1, fun v => (fails_of_absent hs rfl).2⟩
  view_put := fun s hs => bytes?_setBytes_self (by simp [hs]) s
  put_put := fun m => m.setBytes_setBytes area
  put_self := setBytes_self

theorem LocalStack.goesTo (area : Area) :
    GoesTo read write area (fun s => some s.bytes) fun s bytes => { s with bytes } where
  read_eq := by
    rintro s b a ⟨⟩ -
    rfl
  write_eq := by
    rintro s b a v ⟨⟩ -
    rfl
  fails := by
    rintro s ⟨⟩
  view_put := fun _ _ => rfl
  put_put := fun _ _ _ => rfl
  put_self := by
    rintro s b ⟨⟩
    rfl

def Memory.byteCount (m : Memory) (area : Area) : Nat := ((m.bytes? area).map ByteStore.size).getD 0

/-- In a row of bytes, in every area of the global memory that is one, data blocks included, and in local
data, accesses of all widths go to the same bits. What can be read at several bytes is what the reads of the
single bytes combine to, and a byte is the sum of its bits. Writing several bytes leaves what writing the single
bytes in turn leaves, writing one byte or bit leaves all others, and bytes that combine to a number are written
as it. -/
theorem accesses_coherent :
    (∀ area, Coherent ByteStore.read ByteStore.write area ByteStore.size) ∧
    (∀ area, area.isTable = false → Coherent Memory.read Memory.write area (·.byteCount area)) ∧
    ∀ area, Coherent LocalStack.read LocalStack.write area LocalStack.capacity :=
  ⟨ByteStore.coherent, fun _ h => (Memory.goesTo h).coherent, fun area => (LocalStack.goesTo area).coherent⟩

/-- Writing a word to a data block leaves what writing its two bytes leaves. -/
theorem accesses_coherent_word :
    let m := (Memory.ofSpecs ⟨1, 1, 0, 0, 0, 0, 0⟩).addBlock 5 4
    let a : Access := ⟨.dataBlock 5, .ofByte 1, 16⟩
    (Area.dataBlock 5).isTable = false ∧ a.ConsistsOf [1, 2] ∧
      m.write a (.scalar 0x1234) = .ok (m.setBlock ⟨5, .ofData #[0, 0x12, 0x34, 0]⟩) ∧
      ∃ bs : List UInt8, bs.length = 2 ∧ ([1, 2].zip bs).foldlM (fun m part =>
        m.write (.byte (.dataBlock 5) part.1) (.scalar part.2.toUInt32)) m =
          .ok (m.setBlock ⟨5, .ofData #[0, 0x12, 0x34, 0]⟩) := by
  intro m a
  have hks : a.ConsistsOf [1, 2] := ⟨by decide, by decide⟩
  have hwrite : m.write a (.scalar 0x1234) = .ok (m.setBlock ⟨5, .ofData #[0, 0x12, 0x34, 0]⟩) := by decide
  obtain ⟨bs, hlength, -, hfold⟩ :=
    (accesses_coherent.2.1 (.dataBlock 5) rfl).write_bytes m _ a [1, 2] _ rfl hks hwrite
  exact ⟨rfl, hks, hwrite, bs, hlength, hfold⟩

end PlcMachine
