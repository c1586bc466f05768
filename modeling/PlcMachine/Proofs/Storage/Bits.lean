import PlcMachine.Proofs.Storage.History

/-! # Bits of global memory

An access of bytes goes to the bits that it covers, and an access to a table to the 16 bits of a cell.
Reading depends on sizes and on those bits, writing leaves all other bits, and whether a write fails
depends on sizes only.
-/

namespace PlcMachine

/-- The bits of its area that an access goes to. -/
def Access.Spans (a : Access) (i : Nat) : Prop :=
  if a.area.isTable then i / 16 = a.offset.byte.toNat else a.Covers i

theorem Access.spans_of_table {a : Access} {i : Nat} (h : a.area.isTable = true) :
    a.Spans i ↔ i / 16 = a.offset.byte.toNat := by
  rw [Spans, if_pos h]

theorem Access.spans_of_bytes {a : Access} {i : Nat} (h : a.area.isTable = false) :
    a.Spans i ↔ a.Covers i := by
  rw [Spans, if_neg (by simp [h])]

theorem ByteStore.exists_write_iff {s : ByteStore} {a : Access} {v : Value} :
    (∃ s', s.write a v = .ok s') ↔ (∃ u, s.read a = .ok u) ∧ v.Fits a.width := by
  constructor
  · rintro ⟨s', h⟩
    obtain ⟨ha, hv, -⟩ := write_eq_ok.mp h
    exact ⟨⟨_, read_eq_ok.mpr ⟨ha, rfl⟩⟩, hv⟩
  · rintro ⟨⟨u, h⟩, hv⟩
    exact ⟨_, write_of_within (read_eq_ok.mp h).1 hv⟩

theorem ByteStore.write_error_of_size_eq {s s' : ByteStore} {a : Access} {v : Value} {e : AccessError}
    (hsize : s.size = s'.size) (h : s.write a v = .error e) : s'.write a v = .error e := by
  obtain ⟨e', he, he'⟩ | ⟨-, -, hw, -⟩ := write_cases hsize a v
  · rw [he', ← h, he]
  · cases hw.symm.trans h

namespace CellTable

variable {t t' : CellTable} {a : Access} {v : Value}

def bitAt (t : CellTable) (i : Nat) : Bool := (t.cells.getD (i / 16) 0).toNat.testBit (i % 16)

theorem getD_eq_of_bitAt {k : Nat} (h : ∀ i, i / 16 = k → t.bitAt i = t'.bitAt i) :
    t.cells.getD k 0 = t'.cells.getD k 0 := by
  apply UInt16.toNat.inj
  apply Nat.eq_of_testBit_eq
  intro j
  by_cases hj : j < 16
  · have hi := h (16 * k + j) (by omega)
    have hd : (16 * k + j) / 16 = k := by omega
    have hm : (16 * k + j) % 16 = j := by omega
    rwa [bitAt, bitAt, hd, hm] at hi
  · have hpow : 2 ^ 16 ≤ 2 ^ j := Nat.pow_le_pow_right (by decide) (by omega)
    rw [Nat.testBit_lt_two_pow (Nat.lt_of_lt_of_le (UInt16.toNat_lt _) hpow),
      Nat.testBit_lt_two_pow (Nat.lt_of_lt_of_le (UInt16.toNat_lt _) hpow)]

theorem check_of_size_eq (hsize : t.size = t'.size) (a : Access) : t.check a = t'.check a := by
  unfold check
  rw [hsize]

theorem read_congr (hsize : t.size = t'.size)
    (h : ∀ i, i / 16 = a.offset.byte.toNat → t.bitAt i = t'.bitAt i) : t.read a = t'.read a := by
  unfold read
  rw [check_of_size_eq hsize, getD_eq_of_bitAt h]

theorem bitAt_of_write {i : Nat} (h : t.write a v = .ok t') (hi : i / 16 ≠ a.offset.byte.toNat) :
    t'.bitAt i = t.bitAt i := by
  obtain ⟨-, n, -, -, rfl⟩ := write_eq_ok.mp h
  simp [bitAt, Array.getD_eq_getD_getElem?, hi.symm]

theorem exists_write_iff :
    (∃ t', t.write a v = .ok t') ↔
      (∃ u, t.read a = .ok u) ∧ v.Fits a.width ∧ ∃ n, v = .scalar n := by
  constructor
  · rintro ⟨t', h⟩
    obtain ⟨ha, n, rfl, hn, -⟩ := write_eq_ok.mp h
    refine ⟨⟨_, read_eq_ok.mpr ⟨ha, rfl⟩⟩, ?_, n, rfl⟩
    rw [ha.1]
    exact hn
  · rintro ⟨⟨u, h⟩, hv, n, rfl⟩
    exact exists_write h hv rfl

theorem write_error_of_size_eq {e : AccessError} (hsize : t.size = t'.size)
    (h : t.write a v = .error e) : t'.write a v = .error e := by
  unfold write at h ⊢
  rw [← check_of_size_eq hsize]
  cases hc : t.check a with
  | error e' => rwa [hc] at h
  | ok u =>
    rw [hc] at h
    cases v with
    | bytes bs => exact h
    | scalar n =>
      simp only [bind, Except.bind] at h ⊢
      split_ifs at h ⊢
      · cases h
      · exact h

end CellTable

namespace Memory

variable {m m' : Memory} {a : Access} {v : Value}

def bit? (m : Memory) (area : Area) (i : Nat) : Option Bool :=
  ((m.bytes? area).map (·.bitAt i)).or ((m.cells? area).map (·.bitAt i))

theorem bit?_of_bytes? {area : Area} {s : ByteStore} (h : m.bytes? area = some s) (i : Nat) :
    m.bit? area i = some (s.bitAt i) := by
  rw [bit?, h]
  rfl

theorem bit?_of_cells? {area : Area} {t : CellTable} (h : m.cells? area = some t) (i : Nat) :
    m.bit? area i = some (t.bitAt i) := by
  rw [bit?, h, (isTable_of_cells? h).2]
  rfl

theorem read_of_bytes? {s : ByteStore} (h : m.bytes? a.area = some s) : m.read a = s.read a := by
  obtain ⟨area, offset, width⟩ := a
  cases area with
  | dataBlock number => simp [read, block, block?_of_bytes? h, bind, Except.bind]
  | input | output | flag | peripheralIn | peripheralOut => simp_all [read, bytes?]
  | localData | outerData | instanceData | timer | counter => cases h

theorem read_of_cells? {t : CellTable} (h : m.cells? a.area = some t) : m.read a = t.read a := by
  obtain ⟨area, offset, width⟩ := a
  cases area <;> simp_all [read, cells?]

theorem write_of_bytes? {s : ByteStore} (h : m.bytes? a.area = some s) :
    m.write a v = (s.write a v).map (m.setBytes · a.area) := by
  obtain ⟨area, offset, width⟩ := a
  cases area with
  | dataBlock number => simp only [write, block, block?_of_bytes? h]; rfl
  | input | output | flag | peripheralIn | peripheralOut => cases h; rfl
  | localData | outerData | instanceData | timer | counter => cases h

theorem write_of_cells? {t : CellTable} (h : m.cells? a.area = some t) :
    m.write a v = (t.write a v).map (m.setCells · a.area) := by
  obtain ⟨area, offset, width⟩ := a
  cases area <;> simp only [cells?, Option.some.injEq, reduceCtorEq] at h <;> subst h <;> rfl

/-- Accesses to an area that there is not fail, and how they fail depends on the area only. -/
theorem fails_of_absent (hb : m.bytes? a.area = none) (hc : m.cells? a.area = none) :
    m.read a = .error (match a.area with
      | .dataBlock number => .noSuchBlock number
      | _ => .noActiveFrame) ∧
    m.write a v = .error (match a.area with
      | .dataBlock number => .noSuchBlock number
      | _ => .noActiveFrame) := by
  obtain ⟨area, offset, width⟩ := a
  cases area with
  | dataBlock number =>
    have hnone : m.block? number = none := by simpa [bytes?] using hb
    simp only [read, write, block, hnone]
    exact ⟨rfl, rfl⟩
  | localData | outerData | instanceData => exact ⟨rfl, rfl⟩
  | input | output | flag | peripheralIn | peripheralOut => cases hb
  | timer | counter => cases hc

theorem area_cases_of_blank_eq (h : m'.blank = m.blank) (area : Area) :
    (∃ s s', m.bytes? area = some s ∧ m'.bytes? area = some s' ∧ s'.size = s.size) ∨
      (∃ t t', m.cells? area = some t ∧ m'.cells? area = some t' ∧ t'.size = t.size) ∨
        m.bytes? area = none ∧ m.cells? area = none ∧ m'.bytes? area = none ∧ m'.cells? area = none := by
  cases hb : m.bytes? area with
  | some s =>
    obtain ⟨s', hs', hsize⟩ := exists_bytes?_of_blank_eq h hb
    exact .inl ⟨s, s', rfl, hs', hsize⟩
  | none =>
    cases hc : m.cells? area with
    | some t =>
      obtain ⟨t', ht', hsize⟩ := exists_cells?_of_blank_eq h hc
      exact .inr (.inl ⟨t, t', rfl, ht', hsize⟩)
    | none =>
      have hb' := bytes?_blank m' area
      have hc' := cells?_blank m' area
      rw [h, bytes?_blank, hb] at hb'
      rw [h, cells?_blank, hc] at hc'
      exact .inr (.inr ⟨rfl, rfl, Option.map_eq_none_iff.mp hb'.symm, Option.map_eq_none_iff.mp hc'.symm⟩)

theorem bit?_of_write {area : Area} {i : Nat} (h : m.write a v = .ok m')
    (hi : area = a.area → ¬ a.Spans i) : m'.bit? area i = m.bit? area i := by
  obtain ⟨s, s', hs, hw, rfl⟩ | ⟨t, t', ht, hw, rfl⟩ := write_eq_ok.mp h
  · by_cases harea : area = a.area
    · subst harea
      have hcovers := mt (Access.spans_of_bytes (isTable_of_bytes? hs).1).mpr (hi rfl)
      rw [bit?_of_bytes? hs, bit?_of_bytes? (bytes?_setBytes_self (by simp [hs]) s'),
        ByteStore.bitAt_of_write hw hcovers]
    · rw [bit?, bit?, bytes?_setBytes_of_ne m harea, cells?_setBytes]
  · by_cases harea : area = a.area
    · subst harea
      have hcell := mt (Access.spans_of_table (isTable_of_cells? ht).1).mpr (hi rfl)
      rw [bit?_of_cells? ht, bit?_of_cells? (cells?_setCells_self (by simp [ht]) t'),
        CellTable.bitAt_of_write hw hcell]
    · rw [bit?, bit?, bytes?_setCells, cells?_setCells_of_ne m harea]

/-- What a read gives depends on the dimensions and on the bits that it goes to. -/
theorem read_congr (hblank : m'.blank = m.blank)
    (h : ∀ i, a.Spans i → m'.bit? a.area i = m.bit? a.area i) : m'.read a = m.read a := by
  obtain ⟨s, s', hs, hs', hsize⟩ | ⟨t, t', ht, ht', hsize⟩ | ⟨hb, hc, hb', hc'⟩ :=
    area_cases_of_blank_eq hblank a.area
  · rw [read_of_bytes? hs, read_of_bytes? hs']
    refine ByteStore.read_congr hsize fun _ i hi => ?_
    have hbit := h i ((Access.spans_of_bytes (isTable_of_bytes? hs).1).mpr hi)
    rw [bit?_of_bytes? hs, bit?_of_bytes? hs'] at hbit
    exact Option.some.inj hbit
  · rw [read_of_cells? ht, read_of_cells? ht']
    refine CellTable.read_congr hsize fun i hi => ?_
    have hbit := h i ((Access.spans_of_table (isTable_of_cells? ht).1).mpr hi)
    rw [bit?_of_cells? ht, bit?_of_cells? ht'] at hbit
    exact Option.some.inj hbit
  · rw [(fails_of_absent (v := .scalar 0) hb hc).1, (fails_of_absent (v := .scalar 0) hb' hc').1]

theorem write_error_of_blank_eq {e : AccessError} (hblank : m'.blank = m.blank)
    (h : m.write a v = .error e) : m'.write a v = .error e := by
  obtain ⟨s, s', hs, hs', hsize⟩ | ⟨t, t', ht, ht', hsize⟩ | ⟨hb, hc, hb', hc'⟩ :=
    area_cases_of_blank_eq hblank a.area
  · rw [write_of_bytes? hs, map_eq_error] at h
    rw [write_of_bytes? hs', map_eq_error]
    exact ByteStore.write_error_of_size_eq hsize.symm h
  · rw [write_of_cells? ht, map_eq_error] at h
    rw [write_of_cells? ht', map_eq_error]
    exact CellTable.write_error_of_size_eq hsize.symm h
  · rw [(fails_of_absent hb hc).2] at h
    rw [(fails_of_absent hb' hc').2, h]

theorem exists_write_iff : (∃ m', m.write a v = .ok m') ↔
    (∃ u, m.read a = .ok u) ∧ v.Fits a.width ∧ (a.area.isTable = true → ∃ n, v = .scalar n) := by
  cases hb : m.bytes? a.area with
  | some s =>
    rw [write_of_bytes? hb, exists_map_eq_ok, ByteStore.exists_write_iff, read_of_bytes? hb]
    simp [(isTable_of_bytes? hb).1]
  | none =>
    cases hc : m.cells? a.area with
    | some t =>
      rw [write_of_cells? hc, exists_map_eq_ok, CellTable.exists_write_iff, read_of_cells? hc]
      simp [(isTable_of_cells? hc).1]
    | none =>
      simp [fails_of_absent (v := v) hb hc]

end Memory

end PlcMachine
