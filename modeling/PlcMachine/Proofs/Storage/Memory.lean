import PlcMachine.Proofs.Storage.ByteStore
import PlcMachine.Storage.Operation

/-! # Reading and writing global memory

Every global area is a row of bytes or a table of cells. A write goes to the area that it names and
keeps all sizes, so it decides nothing about which later accesses succeed.
-/

namespace PlcMachine

namespace CellTable

def Holds (t : CellTable) (a : Access) : Prop :=
  a.width = 16 ∧ a.offset.bit = 0 ∧ a.offset.byte.toNat < t.size

theorem check_eq_ok {t : CellTable} {a : Access} : t.check a = .ok () ↔ t.Holds a := by
  unfold check Holds
  split_ifs with hw hr
  · simp [hw]
  · simp only [false_iff]
    rintro ⟨-, hb, hi⟩
    rcases hr with hr | hr
    · exact hr hb
    · omega
  · simp only [true_iff]
    obtain ⟨hb, hi⟩ := not_or.mp hr
    exact ⟨not_not.mp hw, not_not.mp hb, Nat.lt_of_not_le hi⟩

theorem read_eq_ok {t : CellTable} {a : Access} {v : Value} :
    t.read a = .ok v ↔
      t.Holds a ∧ v = .scalar (t.cells.getD a.offset.byte.toNat 0).toUInt32 := by
  unfold read
  rw [bind_eq_ok]
  constructor
  · rintro ⟨⟨⟩, hc, hr⟩
    exact ⟨check_eq_ok.mp hc, (pure_eq_ok.mp hr).symm⟩
  · rintro ⟨hc, rfl⟩
    exact ⟨(), check_eq_ok.mpr hc, rfl⟩

theorem write_eq_ok {t t' : CellTable} {a : Access} {v : Value} :
    t.write a v = .ok t' ↔ t.Holds a ∧ ∃ n : UInt32, v = .scalar n ∧ n.toNat < UInt16.size ∧
      t' = ⟨t.cells.setIfInBounds a.offset.byte.toNat n.toUInt16⟩ := by
  unfold write
  rw [bind_eq_ok]
  constructor
  · rintro ⟨⟨⟩, hc, hr⟩
    refine ⟨check_eq_ok.mp hc, ?_⟩
    cases v with
    | bytes bs => exact absurd hr throw_ne_ok
    | scalar n =>
      dsimp only at hr
      split_ifs at hr with hn
      exact ⟨n, rfl, hn, (pure_eq_ok.mp hr).symm⟩
  · rintro ⟨hc, n, rfl, hn, rfl⟩
    exact ⟨(), check_eq_ok.mpr hc, by dsimp only; rw [if_pos hn]; rfl⟩

theorem size_of_write {t t' : CellTable} {a : Access} {v : Value} (h : t.write a v = .ok t') :
    t'.size = t.size := by
  obtain ⟨-, n, -, -, rfl⟩ := write_eq_ok.mp h
  simp [size]

theorem read_of_write {t t' : CellTable} {a : Access} {v : Value} (h : t.write a v = .ok t') :
    t'.read a = .ok v.canonical := by
  have hsize := size_of_write h
  obtain ⟨⟨hw, hb, hi⟩, n, rfl, hn, rfl⟩ := write_eq_ok.mp h
  refine read_eq_ok.mpr ⟨⟨hw, hb, hsize ▸ hi⟩, ?_⟩
  have hi' : a.offset.byte.toNat < t.cells.size := hi
  have hcell : n.toUInt16.toUInt32 = n := by
    apply UInt32.toNat.inj
    rw [UInt16.toNat_toUInt32, UInt32.toNat_toUInt16]
    exact Nat.mod_eq_of_lt hn
  simp [hi', hcell, Value.canonical]

theorem canonical_of_read {t : CellTable} {a : Access} {v : Value} (h : t.read a = .ok v) :
    v.Fits a.width ∧ v.canonical = v := by
  obtain ⟨⟨hw, -, -⟩, rfl⟩ := read_eq_ok.mp h
  refine ⟨?_, rfl⟩
  rw [hw]
  exact UInt16.toNat_lt _

theorem write_of_read {t : CellTable} {a : Access} {v : Value} (h : t.read a = .ok v) :
    t.write a v = .ok t := by
  obtain ⟨ha, rfl⟩ := read_eq_ok.mp h
  obtain ⟨cells⟩ := t
  have hi : a.offset.byte.toNat < cells.size := ha.2.2
  refine write_eq_ok.mpr ⟨ha, _, rfl, UInt16.toNat_lt _, ?_⟩
  simp [hi, Array.setIfInBounds]

theorem exists_write {t : CellTable} {a : Access} {u v : Value} (h : t.read a = .ok u)
    (hv : v.Fits a.width) (hc : v.canonical = v) : ∃ t', t.write a v = .ok t' := by
  have ha := (read_eq_ok.mp h).1
  rw [ha.1] at hv
  cases v with
  | scalar n => exact ⟨_, write_eq_ok.mpr ⟨ha, n, rfl, hv, rfl⟩⟩
  | bytes bs =>
    have hlen : 8 * bs.length = 16 := hv
    have hscalar : Value.ofBytes bs = .bytes bs := hc
    rw [Value.ofBytes, if_pos (by simp; omega)] at hscalar
    cases hscalar

end CellTable

namespace Memory

def bytes? (m : Memory) : Area → Option ByteStore
  | .input => some m.inputs
  | .output => some m.outputs
  | .flag => some m.flags
  | .peripheralIn => some m.peripheralIn
  | .peripheralOut => some m.peripheralOut
  | .dataBlock number => (m.block? number).map (·.bytes)
  | _ => none

def cells? (m : Memory) : Area → Option CellTable
  | .timer => some m.timers
  | .counter => some m.counters
  | _ => none

def setBytes (m : Memory) (s : ByteStore) : Area → Memory
  | .input => { m with inputs := s }
  | .output => { m with outputs := s }
  | .flag => { m with flags := s }
  | .peripheralIn => { m with peripheralIn := s }
  | .peripheralOut => { m with peripheralOut := s }
  | .dataBlock number => m.setBlock ⟨number, s⟩
  | _ => m

def setCells (m : Memory) (t : CellTable) : Area → Memory
  | .timer => { m with timers := t }
  | .counter => { m with counters := t }
  | _ => m

theorem block_eq_ok {m : Memory} {number : UInt16} {b : DataBlock} :
    m.block number = .ok b ↔ m.block? number = some b := by
  unfold block
  split <;> simp_all

theorem read_eq_ok {m : Memory} {a : Access} {v : Value} :
    m.read a = .ok v ↔ (∃ s, m.bytes? a.area = some s ∧ s.read a = .ok v) ∨
      ∃ t, m.cells? a.area = some t ∧ t.read a = .ok v := by
  obtain ⟨area, offset, width⟩ := a
  cases area <;> simp [read, bytes?, cells?, bind_eq_ok, block_eq_ok]

theorem write_eq_ok {m m' : Memory} {a : Access} {v : Value} :
    m.write a v = .ok m' ↔
      (∃ s s', m.bytes? a.area = some s ∧ s.write a v = .ok s' ∧ m.setBytes s' a.area = m') ∨
      ∃ t t', m.cells? a.area = some t ∧ t.write a v = .ok t' ∧ m.setCells t' a.area = m' := by
  obtain ⟨area, offset, width⟩ := a
  cases area <;>
    simp [write, bytes?, cells?, setBytes, setCells, bind_eq_ok, map_eq_ok, block_eq_ok]

theorem find?_insertInto (b : DataBlock) (blocks : List DataBlock) (number : UInt16) :
    (b.insertInto blocks).find? (·.number = number) =
      if number = b.number then some b else blocks.find? (·.number = number) := by
  induction blocks with
  | nil =>
    rcases eq_or_ne number b.number with rfl | h
    · simp [DataBlock.insertInto]
    · simp [DataBlock.insertInto, h, h.symm]
  | cons c cs ih =>
    unfold DataBlock.insertInto
    split_ifs with hc hn hn
    · simp [hn]
    · have hcn : c.number ≠ number := by rw [hc]; exact Ne.symm hn
      simp [hcn, Ne.symm hn]
    · have hcn : c.number ≠ number := by rw [hn]; exact hc
      rw [List.find?_cons_of_neg (by simpa using hcn), ih, if_pos hn]
    · by_cases hcn : c.number = number
      · simp [hcn]
      · rw [List.find?_cons_of_neg (by simpa using hcn), List.find?_cons_of_neg (by simpa using hcn),
          ih, if_neg hn]

theorem block?_setBlock (m : Memory) (b : DataBlock) (number : UInt16) :
    (m.setBlock b).block? number = if number = b.number then some b else m.block? number :=
  find?_insertInto b m.blocks number

theorem insertInto_insertInto {b b' : DataBlock} (h : b'.number = b.number)
    (blocks : List DataBlock) : b'.insertInto (b.insertInto blocks) = b'.insertInto blocks := by
  induction blocks with
  | nil => simp [DataBlock.insertInto, h]
  | cons c cs ih =>
    by_cases hc : c.number = b.number
    · simp [DataBlock.insertInto, hc, h]
    · simp [DataBlock.insertInto, hc, h, ih]

theorem insertInto_self {b : DataBlock} {blocks : List DataBlock}
    (h : blocks.find? (·.number = b.number) = some b) : b.insertInto blocks = blocks := by
  induction blocks with
  | nil => simp at h
  | cons c cs ih =>
    by_cases hc : c.number = b.number
    · rw [List.find?_cons_of_pos (by simpa using hc)] at h
      simp [DataBlock.insertInto, Option.some.inj h]
    · rw [List.find?_cons_of_neg (by simpa using hc)] at h
      simp [DataBlock.insertInto, hc, ih h]

theorem setBlock_setBlock (m : Memory) (number : UInt16) (s s' : ByteStore) :
    (m.setBlock ⟨number, s⟩).setBlock ⟨number, s'⟩ = m.setBlock ⟨number, s'⟩ := by
  have hblocks : DataBlock.insertInto ⟨number, s'⟩ (DataBlock.insertInto ⟨number, s⟩ m.blocks) =
      DataBlock.insertInto ⟨number, s'⟩ m.blocks := insertInto_insertInto (by rfl) m.blocks
  simp only [setBlock, hblocks]

theorem block?_of_bytes? {m : Memory} {number : UInt16} {s : ByteStore}
    (h : m.bytes? (.dataBlock number) = some s) : m.block? number = some ⟨number, s⟩ := by
  obtain ⟨b, hb, rfl⟩ := Option.map_eq_some_iff.mp h
  have hnumber : b.number = number := by simpa using List.find?_some hb
  rw [hb, ← hnumber]

theorem setBlock_self {m : Memory} {number : UInt16} {s : ByteStore}
    (h : m.bytes? (.dataBlock number) = some s) : m.setBlock ⟨number, s⟩ = m := by
  have hblocks := insertInto_self (b := ⟨number, s⟩) (block?_of_bytes? h)
  simp only [setBlock, hblocks]

theorem read_setBlock {m : Memory} {number : UInt16} {s s' : ByteStore} {a : Access}
    (hs : m.bytes? (.dataBlock number) = some s) (hsize : s'.size = s.size)
    (h : a.area = .dataBlock number → ∀ i, a.Covers i → s'.bitAt i = s.bitAt i) :
    (m.setBlock ⟨number, s'⟩).read a = m.read a := by
  obtain ⟨area, offset, width⟩ := a
  cases area <;> try rfl
  case dataBlock n =>
    simp only [read, block, block?_setBlock]
    split_ifs with hn
    · subst hn
      rw [block?_of_bytes? hs]
      exact ByteStore.read_congr hsize fun _ => h rfl
    · rfl

theorem bytes?_setBytes_self {m : Memory} {area : Area} (h : m.bytes? area ≠ none) (s : ByteStore) :
    (m.setBytes s area).bytes? area = some s := by
  cases area <;> simp [bytes?, setBytes, block?_setBlock] at h ⊢

theorem bytes?_setBytes_of_ne (m : Memory) {area area' : Area} (h : area' ≠ area) (s : ByteStore) :
    (m.setBytes s area).bytes? area' = m.bytes? area' := by
  cases area <;> cases area' <;> try rfl
  case dataBlock.dataBlock number number' =>
    have hn : number' ≠ number := fun hn => h (congrArg _ hn)
    simp [bytes?, setBytes, block?_setBlock, hn]
  all_goals exact absurd rfl h

theorem cells?_setBytes (m : Memory) (area area' : Area) (s : ByteStore) :
    (m.setBytes s area).cells? area' = m.cells? area' := by
  cases area <;> cases area' <;> rfl

theorem cells?_setCells_self {m : Memory} {area : Area} (h : m.cells? area ≠ none) (t : CellTable) :
    (m.setCells t area).cells? area = some t := by
  cases area <;> simp [cells?, setCells] at h ⊢

theorem write_dataBlock {m m' : Memory} {number : UInt16} {offset : BitAddress} {width : UInt32}
    {v : Value} : m.write ⟨.dataBlock number, offset, width⟩ v = .ok m' ↔
      ∃ s s', m.bytes? (.dataBlock number) = some s ∧ s.write ⟨.dataBlock number, offset, width⟩ v = .ok s' ∧
        m.setBlock ⟨number, s'⟩ = m' := by
  simp [write_eq_ok, cells?, setBytes]

theorem read_of_write {m m' : Memory} {a : Access} {v : Value} (h : m.write a v = .ok m') :
    m'.read a = .ok v.canonical := by
  obtain ⟨s, s', hs, hw, rfl⟩ | ⟨t, t', ht, hw, rfl⟩ := write_eq_ok.mp h
  · refine read_eq_ok.mpr (.inl ⟨s', bytes?_setBytes_self (by simp [hs]) s', ?_⟩)
    exact ByteStore.read_of_write hw a.area
  · refine read_eq_ok.mpr (.inr ⟨t', cells?_setCells_self (by simp [ht]) t', ?_⟩)
    exact CellTable.read_of_write hw

theorem canonical_of_read {m : Memory} {a : Access} {v : Value} (h : m.read a = .ok v) :
    v.Fits a.width ∧ v.canonical = v := by
  obtain ⟨s, -, hr⟩ | ⟨t, -, hr⟩ := read_eq_ok.mp h
  · obtain ⟨ha, rfl⟩ := ByteStore.read_eq_ok.mp hr
    exact ByteStore.contents_fits ha
  · exact CellTable.canonical_of_read hr

theorem shape_of_read {m : Memory} {a : Access} {v : Value} (h : m.read a = .ok v) :
    a.ValidWidth ∧ a.Aligned := by
  obtain ⟨s, -, hr⟩ | ⟨t, -, hr⟩ := read_eq_ok.mp h
  · have ha := (ByteStore.read_eq_ok.mp hr).1
    exact ⟨ha.width, ha.aligned⟩
  · obtain ⟨hwidth, hbit, -⟩ := (CellTable.read_eq_ok.mp hr).1
    refine ⟨.inr ?_, ?_, .inr hbit⟩
    · rw [hwidth]
      decide
    · rw [hbit]
      decide

theorem exists_write {m : Memory} {a : Access} {u v : Value} (h : m.read a = .ok u)
    (hv : v.Fits a.width) (hc : v.canonical = v) : ∃ m', m.write a v = .ok m' := by
  obtain ⟨s, hs, hr⟩ | ⟨t, ht, hr⟩ := read_eq_ok.mp h
  · have hw := ByteStore.write_of_within (ByteStore.read_eq_ok.mp hr).1 hv
    exact ⟨_, write_eq_ok.mpr (.inl ⟨s, _, hs, hw, rfl⟩)⟩
  · obtain ⟨t', hw⟩ := CellTable.exists_write hr hv hc
    exact ⟨_, write_eq_ok.mpr (.inr ⟨t, t', ht, hw, rfl⟩)⟩

theorem setBytes_self {m : Memory} {area : Area} {s : ByteStore} (h : m.bytes? area = some s) :
    m.setBytes s area = m := by
  cases area with
  | dataBlock number => exact setBlock_self h
  | input | output | flag | peripheralIn | peripheralOut =>
    obtain rfl := Option.some.inj h
    rfl
  | localData | outerData | instanceData | timer | counter => rfl

theorem setCells_self {m : Memory} {area : Area} {t : CellTable} (h : m.cells? area = some t) :
    m.setCells t area = m := by
  cases area <;> simp only [cells?, Option.some.injEq, reduceCtorEq] at h <;> subst h <;> rfl

theorem write_of_read {m : Memory} {a : Access} {v : Value} (h : m.read a = .ok v) :
    m.write a v = .ok m := by
  obtain ⟨s, hs, hr⟩ | ⟨t, ht, hr⟩ := read_eq_ok.mp h
  · exact write_eq_ok.mpr (.inl ⟨s, s, hs, ByteStore.write_of_read hr, setBytes_self hs⟩)
  · exact write_eq_ok.mpr (.inr ⟨t, t, ht, CellTable.write_of_read hr, setCells_self ht⟩)

end Memory

section Blank

def ByteStore.blank (s : ByteStore) : ByteStore := .zeroed s.size

def CellTable.blank (t : CellTable) : CellTable := .zeroed t.size

def DataBlock.blank (b : DataBlock) : DataBlock := ⟨b.number, b.bytes.blank⟩

/-- The memory of the same dimensions and blocks with all contents zero. -/
def Memory.blank (m : Memory) : Memory where
  inputs := m.inputs.blank
  outputs := m.outputs.blank
  flags := m.flags.blank
  peripheralIn := m.peripheralIn.blank
  peripheralOut := m.peripheralOut.blank
  timers := m.timers.blank
  counters := m.counters.blank
  blocks := m.blocks.map DataBlock.blank

@[simp]
theorem ByteStore.size_blank (s : ByteStore) : s.blank.size = s.size := size_zeroed _

@[simp]
theorem CellTable.size_blank (t : CellTable) : t.blank.size = t.size := by simp [blank, zeroed, size]

namespace Memory

theorem block?_blank (m : Memory) (number : UInt16) :
    m.blank.block? number = (m.block? number).map DataBlock.blank := by
  simp only [block?, blank]
  induction m.blocks with
  | nil => rfl
  | cons b bs ih =>
    by_cases hb : b.number = number
    · simp [DataBlock.blank, hb]
    · simpa [DataBlock.blank, hb] using ih

theorem map_blank_insertInto {blocks : List DataBlock} {b b' : DataBlock}
    (h : blocks.find? (·.number = b.number) = some b') (hb : b.blank = b'.blank) :
    (b.insertInto blocks).map DataBlock.blank = blocks.map DataBlock.blank := by
  induction blocks with
  | nil => simp at h
  | cons c cs ih =>
    unfold DataBlock.insertInto
    split_ifs with hc
    · rw [List.find?_cons_of_pos (by simpa using hc)] at h
      rw [List.map_cons, List.map_cons, hb, Option.some.inj h]
    · rw [List.find?_cons_of_neg (by simpa using hc)] at h
      rw [List.map_cons, List.map_cons, ih h]

theorem bytes?_blank (m : Memory) (area : Area) :
    m.blank.bytes? area = (m.bytes? area).map ByteStore.blank := by
  cases area <;> try rfl
  case dataBlock number =>
    simp only [bytes?, block?_blank, Option.map_map]
    rfl

theorem cells?_blank (m : Memory) (area : Area) :
    m.blank.cells? area = (m.cells? area).map CellTable.blank := by
  cases area <;> rfl

theorem blank_setBytes {m : Memory} {area : Area} {s s' : ByteStore} (h : m.bytes? area = some s)
    (hsize : s'.size = s.size) : (m.setBytes s' area).blank = m.blank := by
  have hs : s'.blank = s.blank := congrArg ByteStore.zeroed hsize
  cases area <;> simp only [bytes?, Option.some.injEq, reduceCtorEq] at h
  case dataBlock number =>
    obtain ⟨b, hb, rfl⟩ := Option.map_eq_some_iff.mp h
    have hnumber : b.number = number := by simpa using List.find?_some hb
    have he : DataBlock.blank ⟨number, s'⟩ = b.blank := by rw [DataBlock.blank, hs, ← hnumber]; rfl
    have hblocks := map_blank_insertInto (b := ⟨number, s'⟩) hb he
    simp only [blank, setBytes, setBlock, hblocks]
  all_goals
    subst h
    simp only [blank, setBytes, hs]

theorem blank_setCells {m : Memory} {area : Area} {t t' : CellTable} (h : m.cells? area = some t)
    (hsize : t'.size = t.size) : (m.setCells t' area).blank = m.blank := by
  have ht : t'.blank = t.blank := congrArg CellTable.zeroed hsize
  cases area <;> simp only [cells?, Option.some.injEq, reduceCtorEq] at h <;> subst h <;>
    simp only [blank, setCells, ht]

theorem blank_of_write {m m' : Memory} {a : Access} {v : Value} (h : m.write a v = .ok m') :
    m'.blank = m.blank := by
  obtain ⟨s, s', hs, hw, rfl⟩ | ⟨t, t', ht, hw, rfl⟩ := write_eq_ok.mp h
  · exact blank_setBytes hs (ByteStore.size_write hw)
  · exact blank_setCells ht (CellTable.size_of_write hw)

theorem exists_bytes?_of_blank_eq {m m' : Memory} {area : Area} {s : ByteStore}
    (hm : m'.blank = m.blank) (hs : m.bytes? area = some s) :
    ∃ s', m'.bytes? area = some s' ∧ s'.size = s.size := by
  have hb := bytes?_blank m' area
  rw [hm, bytes?_blank, hs] at hb
  obtain ⟨s', hs', he⟩ := Option.map_eq_some_iff.mp hb.symm
  exact ⟨s', hs', by rw [← ByteStore.size_blank, he, ByteStore.size_blank]⟩

theorem exists_cells?_of_blank_eq {m m' : Memory} {area : Area} {t : CellTable}
    (hm : m'.blank = m.blank) (ht : m.cells? area = some t) :
    ∃ t', m'.cells? area = some t' ∧ t'.size = t.size := by
  have hc := cells?_blank m' area
  rw [hm, cells?_blank, ht] at hc
  obtain ⟨t', ht', he⟩ := Option.map_eq_some_iff.mp hc.symm
  exact ⟨t', ht', by rw [← CellTable.size_blank, he, CellTable.size_blank]⟩

/-- The areas and data blocks of the first memory are in the second, and none is shorter there. -/
structure FitsIn (m m' : Memory) : Prop where
  bytes : ∀ area s, m.bytes? area = some s → ∃ s', m'.bytes? area = some s' ∧ s.size ≤ s'.size
  cells : ∀ area t, m.cells? area = some t → ∃ t', m'.cells? area = some t' ∧ t.size ≤ t'.size

theorem FitsIn.of_blank_eq {m m' : Memory} (h : m'.blank = m.blank) : m.FitsIn m' := by
  constructor
  · intro area s hs
    obtain ⟨s', hs', hsize⟩ := exists_bytes?_of_blank_eq h hs
    exact ⟨s', hs', Nat.le_of_eq hsize.symm⟩
  · intro area t ht
    obtain ⟨t', ht', hsize⟩ := exists_cells?_of_blank_eq h ht
    exact ⟨t', ht', Nat.le_of_eq hsize.symm⟩

theorem FitsIn.trans {m m' m'' : Memory} (h : m.FitsIn m') (h' : m'.FitsIn m'') : m.FitsIn m'' := by
  constructor
  · intro area s hs
    obtain ⟨s', hs', hle⟩ := h.bytes area s hs
    obtain ⟨s'', hs'', hle'⟩ := h'.bytes area s' hs'
    exact ⟨s'', hs'', Nat.le_trans hle hle'⟩
  · intro area t ht
    obtain ⟨t', ht', hle⟩ := h.cells area t ht
    obtain ⟨t'', ht'', hle'⟩ := h'.cells area t' ht'
    exact ⟨t'', ht'', Nat.le_trans hle hle'⟩

theorem FitsIn.readable {m m' : Memory} {a : Access} {v : Value} (h : m.FitsIn m')
    (hr : m.read a = .ok v) : ∃ v', m'.read a = .ok v' := by
  obtain ⟨s, hs, hr⟩ | ⟨t, ht, hr⟩ := read_eq_ok.mp hr
  · obtain ⟨s', hs', hle⟩ := h.bytes _ s hs
    have ha := (ByteStore.read_eq_ok.mp hr).1.mono hle
    exact ⟨_, read_eq_ok.mpr (.inl ⟨s', hs', ByteStore.read_eq_ok.mpr ⟨ha, rfl⟩⟩)⟩
  · obtain ⟨t', ht', hle⟩ := h.cells _ t ht
    obtain ⟨hw, hb, hi⟩ := (CellTable.read_eq_ok.mp hr).1
    have ha : t'.Holds a := ⟨hw, hb, Nat.lt_of_lt_of_le hi hle⟩
    exact ⟨_, read_eq_ok.mpr (.inr ⟨t', ht', CellTable.read_eq_ok.mpr ⟨ha, rfl⟩⟩)⟩

theorem checkBlock_eq_ok {m : Memory} {number : UInt16} {offset : BitAddress} {width : UInt32} :
    m.checkBlock number offset width = .ok () ↔ ∃ s, m.bytes? (.dataBlock number) = some s ∧
      Access.Within ⟨.dataBlock number, offset, width⟩ s.size := by
  simp [checkBlock, bytes?, bind_eq_ok, block_eq_ok, Access.check_eq_ok]

theorem FitsIn.checkBlock {m m' : Memory} {number : UInt16} {offset : BitAddress} {width : UInt32}
    (h : m.FitsIn m') (hc : m.checkBlock number offset width = .ok ()) :
    m'.checkBlock number offset width = .ok () := by
  obtain ⟨s, hs, hw⟩ := checkBlock_eq_ok.mp hc
  obtain ⟨s', hs', hle⟩ := h.bytes _ s hs
  exact checkBlock_eq_ok.mpr ⟨s', hs', hw.mono hle⟩

theorem readable_of_checkBlock {m : Memory} {number : UInt16} {offset : BitAddress} {width : UInt32}
    (h : m.checkBlock number offset width = .ok ()) :
    ∃ v, m.read ⟨.dataBlock number, offset, width⟩ = .ok v := by
  obtain ⟨s, hs, hw⟩ := checkBlock_eq_ok.mp h
  exact ⟨_, read_eq_ok.mpr (.inl ⟨s, hs, ByteStore.read_eq_ok.mpr ⟨hw, rfl⟩⟩)⟩

end Memory

end Blank

end PlcMachine
