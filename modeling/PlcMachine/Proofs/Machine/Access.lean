import PlcMachine.Proofs.Storage.Memory
import PlcMachine.Machine.State

/-! # Access to a controller

An access to local or outer data lands in the first or the second frame, and any other in global
memory. Writing changes contents only: registers, cursors and sizes stay, and with them the accesses
that succeed.
-/

namespace PlcMachine

def Frame.blank (f : Frame) : Frame :=
  { f with stack := { f.stack with bytes := f.stack.bytes.blank } }

def Frame.setBytes (f : Frame) (bytes : ByteStore) : Frame :=
  { f with stack := { f.stack with bytes } }

theorem Frame.blank_setBytes {f : Frame} {bytes : ByteStore} (h : bytes.size = f.stack.bytes.size) :
    (f.setBytes bytes).blank = f.blank := by
  unfold Frame.blank Frame.setBytes ByteStore.blank
  rw [h]

theorem Frame.size_of_blank_eq {f f' : Frame} (h : f'.blank = f.blank) :
    f'.stack.bytes.size = f.stack.bytes.size := by
  have hb : f'.stack.bytes.blank = f.stack.bytes.blank := (congrArg (·.stack.bytes) h :)
  rw [← ByteStore.size_blank, hb, ByteStore.size_blank]

theorem Frame.cons_of_blank_eq {f : Frame} {fs fs' rest : List Frame}
    (h : fs'.map Frame.blank = fs.map Frame.blank) (hfs : fs = f :: rest) :
    ∃ f' rest', fs' = f' :: rest' ∧ f'.blank = f.blank ∧
      rest'.map Frame.blank = rest.map Frame.blank := by
  rw [hfs, List.map_cons] at h
  exact List.map_eq_cons_iff.mp h

theorem LocalStack.write_eq_ok {s s' : LocalStack} {a : Access} {v : Value} :
    s.write a v = .ok s' ↔ ∃ bytes, s.bytes.write a v = .ok bytes ∧ { s with bytes } = s' := by
  unfold write
  exact map_eq_ok

namespace Machine

variable {m m' : Machine} {a : Access} {v : Value}

/-- The controller with all contents of local data and global memory zero. -/
def blank (m : Machine) : Machine :=
  { m with frames := m.frames.map Frame.blank, memory := m.memory.blank }

/-- The access with the open instance data block in the place of instance data. -/
def absolute (m : Machine) (a : Access) : Access :=
  match a.area with
  | .instanceData => { a with area := .dataBlock m.registers.di }
  | _ => a

theorem width_absolute (m : Machine) (a : Access) : (m.absolute a).width = a.width := by
  unfold absolute
  split <;> rfl

theorem covers_absolute (m : Machine) (a : Access) (i : Nat) :
    (m.absolute a).Covers i ↔ a.Covers i := by
  unfold absolute
  split <;> exact Iff.rfl

theorem readAccess_localData {f : Frame} {rest : List Frame} (hf : m.frames = f :: rest)
    (ha : a.area = .localData) : m.readAccess a = f.stack.bytes.read a := by
  simp only [readAccess, hf, ha]
  rfl

theorem readAccess_outerData {g f : Frame} {rest : List Frame} (hf : m.frames = g :: f :: rest)
    (ha : a.area = .outerData) : m.readAccess a = f.stack.bytes.read a := by
  simp only [readAccess, hf, ha]
  rfl

theorem readAccess_global (ha : a.area.isFrameRelative = false) :
    m.readAccess a = m.memory.read (m.absolute a) := by
  unfold readAccess absolute
  cases h : a.area <;> simp_all [Area.isFrameRelative]

theorem readAccess_of_memory_eq {a : Access} (h : m'.memory = m.memory)
    (ha : a.area.isFrameRelative = false) (hd : a.area ≠ .instanceData) :
    m'.readAccess a = m.readAccess a := by
  have habs : ∀ m : Machine, m.absolute a = a := by
    intro m
    unfold absolute
    split
    · next hdi => exact absurd hdi hd
    · rfl
  rw [readAccess_global ha, readAccess_global ha, habs, habs, h]

theorem writeAccess_localData {f : Frame} {rest : List Frame} (hf : m.frames = f :: rest)
    (ha : a.area = .localData) : m.writeAccess a v = .ok m' ↔
      ∃ bytes, f.stack.bytes.write a v = .ok bytes ∧
        { m with frames := f.setBytes bytes :: rest } = m' := by
  simp [writeAccess, hf, ha, map_eq_ok, LocalStack.write_eq_ok, Frame.setBytes]

theorem writeAccess_outerData {g f : Frame} {rest : List Frame} (hf : m.frames = g :: f :: rest)
    (ha : a.area = .outerData) : m.writeAccess a v = .ok m' ↔
      ∃ bytes, f.stack.bytes.write a v = .ok bytes ∧
        { m with frames := g :: f.setBytes bytes :: rest } = m' := by
  simp [writeAccess, hf, ha, map_eq_ok, LocalStack.write_eq_ok, Frame.setBytes]

theorem writeAccess_global (ha : a.area.isFrameRelative = false) :
    m.writeAccess a v = .ok m' ↔
      ∃ memory, m.memory.write (m.absolute a) v = .ok memory ∧ { m with memory } = m' := by
  unfold writeAccess absolute
  cases h : a.area <;> simp_all [Area.isFrameRelative, map_eq_ok]

theorem writeAccess_eq_map (ha : a.area.isFrameRelative = false) :
    m.writeAccess a v = (m.memory.write (m.absolute a) v).map ({ m with memory := · }) := by
  unfold writeAccess absolute
  cases h : a.area <;> simp_all [Area.isFrameRelative] <;> rfl

/-- The three places in which an access can land. -/
theorem area_cases (m : Machine) (a : Access) :
    (∃ f rest, m.frames = f :: rest ∧ a.area = .localData) ∨
      (∃ g f rest, m.frames = g :: f :: rest ∧ a.area = .outerData) ∨
        a.area.isFrameRelative = false ∨
          ∃ e, m.readAccess a = .error e ∧ ∀ v, m.writeAccess a v = .error e := by
  cases ha : a.area
  case localData =>
    cases hf : m.frames with
    | nil => exact .inr (.inr (.inr ⟨.noActiveFrame, by simp [readAccess, writeAccess, ha, hf]⟩))
    | cons f rest => exact .inl ⟨f, rest, rfl, rfl⟩
  case outerData =>
    match hf : m.frames with
    | [] => exact .inr (.inr (.inr ⟨.noActiveFrame, by simp [readAccess, writeAccess, ha, hf]⟩))
    | [g] => exact .inr (.inr (.inr ⟨.noOuterFrame, by simp [readAccess, writeAccess, ha, hf]⟩))
    | g :: f :: rest => exact .inr (.inl ⟨g, f, rest, rfl, rfl⟩)
  all_goals exact .inr (.inr (.inl rfl))

theorem readAccess_of_drop_eq (hmemory : m'.memory = m.memory) (hregisters : m'.registers = m.registers)
    (hbelow : m'.frames.drop 1 = m.frames.drop 1) (ha : a.area ≠ .localData)
    (h : m.readAccess a = .ok v) : m'.readAccess a = .ok v := by
  obtain ⟨f, rest, -, harea⟩ | ⟨g, f, rest, hf, harea⟩ | harea | ⟨e, he, -⟩ := m.area_cases a
  · exact absurd harea ha
  · rw [hf] at hbelow
    obtain ⟨g', hg'⟩ : ∃ g', m'.frames = g' :: f :: rest := by
      rcases hframes : m'.frames with _ | ⟨g', rest'⟩
      · simp [hframes] at hbelow
      · exact ⟨g', congrArg (g' :: ·) (by simpa [hframes] using hbelow)⟩
    rw [readAccess_outerData hf harea] at h
    rwa [readAccess_outerData hg' harea]
  · have habsolute : m'.absolute a = m.absolute a := by
      unfold absolute
      rw [hregisters]
    rw [readAccess_global harea] at h ⊢
    rwa [habsolute, hmemory]
  · cases he.symm.trans h

/-- A write changes the contents of one of the first two frames or of global memory. -/
theorem writeAccess_cases (h : m.writeAccess a v = .ok m') :
    (∃ f rest bytes, m.frames = f :: rest ∧ a.area = .localData ∧
        f.stack.bytes.write a v = .ok bytes ∧ m' = { m with frames := f.setBytes bytes :: rest }) ∨
      (∃ g f rest bytes, m.frames = g :: f :: rest ∧ a.area = .outerData ∧
        f.stack.bytes.write a v = .ok bytes ∧
          m' = { m with frames := g :: f.setBytes bytes :: rest }) ∨
      ∃ memory, a.area.isFrameRelative = false ∧ m.memory.write (m.absolute a) v = .ok memory ∧
        m' = { m with memory } := by
  obtain ⟨f, rest, hf, ha⟩ | ⟨g, f, rest, hf, ha⟩ | ha | ⟨e, -, he⟩ := m.area_cases a
  · obtain ⟨bytes, hw, rfl⟩ := (writeAccess_localData hf ha).mp h
    exact .inl ⟨f, rest, bytes, hf, ha, hw, rfl⟩
  · obtain ⟨bytes, hw, rfl⟩ := (writeAccess_outerData hf ha).mp h
    exact .inr (.inl ⟨g, f, rest, bytes, hf, ha, hw, rfl⟩)
  · obtain ⟨memory, hw, rfl⟩ := (writeAccess_global ha).mp h
    exact .inr (.inr ⟨memory, ha, hw, rfl⟩)
  · cases (he v).symm.trans h

theorem blank_of_writeAccess (h : m.writeAccess a v = .ok m') : m'.blank = m.blank := by
  obtain ⟨f, rest, bytes, hf, -, hw, rfl⟩ | ⟨g, f, rest, bytes, hf, -, hw, rfl⟩ |
    ⟨memory, -, hw, rfl⟩ := writeAccess_cases h
  · have hb := Frame.blank_setBytes (ByteStore.size_write hw)
    simp [blank, hf, hb]
  · have hb := Frame.blank_setBytes (ByteStore.size_write hw)
    simp [blank, hf, hb]
  · simp [blank, Memory.blank_of_write hw]

theorem drop_of_writeAccess (h : m.writeAccess a v = .ok m') :
    m'.frames.drop 2 = m.frames.drop 2 := by
  obtain ⟨f, rest, bytes, hf, -, -, rfl⟩ | ⟨g, f, rest, bytes, hf, -, -, rfl⟩ |
    ⟨memory, -, -, rfl⟩ := writeAccess_cases h
  · simp [hf]
  · simp [hf]
  · rfl

theorem readAccess_of_writeAccess (h : m.writeAccess a v = .ok m') :
    m'.readAccess a = .ok v.canonical := by
  obtain ⟨f, rest, bytes, hf, ha, hw, rfl⟩ | ⟨g, f, rest, bytes, hf, ha, hw, rfl⟩ |
    ⟨memory, ha, hw, rfl⟩ := writeAccess_cases h
  · rw [readAccess_localData rfl ha]
    exact ByteStore.read_of_write hw a.area
  · rw [readAccess_outerData rfl ha]
    exact ByteStore.read_of_write hw a.area
  · rw [readAccess_global ha]
    exact Memory.read_of_write hw

theorem canonical_of_readAccess (h : m.readAccess a = .ok v) :
    v.Fits a.width ∧ v.canonical = v := by
  obtain ⟨f, rest, hf, ha⟩ | ⟨g, f, rest, hf, ha⟩ | ha | ⟨e, he, -⟩ := m.area_cases a
  · rw [readAccess_localData hf ha] at h
    obtain ⟨hw, rfl⟩ := ByteStore.read_eq_ok.mp h
    exact ByteStore.contents_fits hw
  · rw [readAccess_outerData hf ha] at h
    obtain ⟨hw, rfl⟩ := ByteStore.read_eq_ok.mp h
    exact ByteStore.contents_fits hw
  · rw [readAccess_global ha] at h
    rw [← m.width_absolute a]
    exact Memory.canonical_of_read h
  · cases he.symm.trans h

theorem shape_of_readAccess (h : m.readAccess a = .ok v) : a.ValidWidth ∧ a.Aligned := by
  obtain ⟨f, rest, hf, ha⟩ | ⟨g, f, rest, hf, ha⟩ | ha | ⟨e, he, -⟩ := m.area_cases a
  · rw [readAccess_localData hf ha] at h
    have hw := (ByteStore.read_eq_ok.mp h).1
    exact ⟨hw.width, hw.aligned⟩
  · rw [readAccess_outerData hf ha] at h
    have hw := (ByteStore.read_eq_ok.mp h).1
    exact ⟨hw.width, hw.aligned⟩
  · rw [readAccess_global ha] at h
    have hshape := Memory.shape_of_read h
    unfold absolute at hshape
    split at hshape <;> exact hshape
  · cases he.symm.trans h

theorem exists_writeAccess {u : Value} (h : m.readAccess a = .ok u) (hv : v.Fits a.width)
    (hc : v.canonical = v) : ∃ m', m.writeAccess a v = .ok m' := by
  obtain ⟨f, rest, hf, ha⟩ | ⟨g, f, rest, hf, ha⟩ | ha | ⟨e, he, -⟩ := m.area_cases a
  · rw [readAccess_localData hf ha] at h
    have hw := ByteStore.write_of_within (ByteStore.read_eq_ok.mp h).1 hv
    exact ⟨_, (writeAccess_localData hf ha).mpr ⟨_, hw, rfl⟩⟩
  · rw [readAccess_outerData hf ha] at h
    have hw := ByteStore.write_of_within (ByteStore.read_eq_ok.mp h).1 hv
    exact ⟨_, (writeAccess_outerData hf ha).mpr ⟨_, hw, rfl⟩⟩
  · rw [readAccess_global ha] at h
    obtain ⟨memory, hw⟩ := Memory.exists_write h (by rwa [width_absolute]) hc
    exact ⟨_, (writeAccess_global ha).mpr ⟨memory, hw, rfl⟩⟩
  · cases he.symm.trans h

theorem writeAccess_of_readAccess (h : m.readAccess a = .ok v) : m.writeAccess a v = .ok m := by
  obtain ⟨f, rest, hf, ha⟩ | ⟨g, f, rest, hf, ha⟩ | ha | ⟨e, he, -⟩ := m.area_cases a
  · rw [readAccess_localData hf ha] at h
    refine (writeAccess_localData hf ha).mpr ⟨_, ByteStore.write_of_read h, ?_⟩
    change { m with frames := f :: rest } = m
    rw [← hf]
  · rw [readAccess_outerData hf ha] at h
    refine (writeAccess_outerData hf ha).mpr ⟨_, ByteStore.write_of_read h, ?_⟩
    change { m with frames := g :: f :: rest } = m
    rw [← hf]
  · rw [readAccess_global ha] at h
    exact (writeAccess_global ha).mpr ⟨_, Memory.write_of_read h, rfl⟩
  · cases he.symm.trans h

theorem registers_of_blank_eq (h : m'.blank = m.blank) : m'.registers = m.registers :=
  (congrArg registers h :)

theorem specs_of_blank_eq (h : m'.blank = m.blank) : m'.specs = m.specs :=
  (congrArg specs h :)

theorem frames_of_blank_eq (h : m'.blank = m.blank) :
    m'.frames.map Frame.blank = m.frames.map Frame.blank :=
  (congrArg frames h :)

theorem pool_of_blank_eq (h : m'.blank = m.blank) : m'.pool = m.pool :=
  (congrArg pool h :)

theorem memory_of_blank_eq (h : m'.blank = m.blank) : m'.memory.blank = m.memory.blank :=
  (congrArg memory h :)

def capacities (m : Machine) : List Nat := m.frames.map (·.stack.capacity)

theorem capacities_blank (m : Machine) : m.blank.capacities = m.capacities := by
  rw [capacities, capacities, blank, List.map_map]
  exact List.map_congr_left fun _ _ => ByteStore.size_blank _

theorem capacities_of_blank_eq (h : m'.blank = m.blank) : m'.capacities = m.capacities := by
  rw [← capacities_blank, h, capacities_blank]

/-- Whatever succeeds in the first state succeeds in the second: instance data is in the same block, local
data has the same sizes, and no area of global memory is shorter. -/
structure Admits (m m' : Machine) : Prop where
  di : m'.registers.di = m.registers.di
  capacities : m'.capacities = m.capacities
  memory : m.memory.FitsIn m'.memory

theorem Admits.of_blank_eq (h : m'.blank = m.blank) : m.Admits m' where
  di := congrArg Registers.di (registers_of_blank_eq h)
  capacities := capacities_of_blank_eq h
  memory := .of_blank_eq (memory_of_blank_eq h)

theorem Admits.trans {m'' : Machine} (h : m.Admits m') (h' : m'.Admits m'') : m.Admits m'' where
  di := h'.di.trans h.di
  capacities := h'.capacities.trans h.capacities
  memory := h.memory.trans h'.memory

theorem Admits.readable (hm : m.Admits m') (h : m.readAccess a = .ok v) :
    ∃ v', m'.readAccess a = .ok v' := by
  have hsizes := hm.capacities
  have hread : ∀ {f f' : Frame}, f'.stack.capacity = f.stack.capacity → f.stack.bytes.read a = .ok v →
      ∃ v', f'.stack.bytes.read a = .ok v' := by
    intro f f' hsize hr
    have hwithin := (ByteStore.read_eq_ok.mp hr).1
    exact ⟨_, ByteStore.read_eq_ok.mpr ⟨hwithin.mono (Nat.le_of_eq hsize.symm), rfl⟩⟩
  unfold Machine.capacities at hsizes
  obtain ⟨f, rest, hf, ha⟩ | ⟨g, f, rest, hf, ha⟩ | ha | ⟨e, he, -⟩ := m.area_cases a
  · rw [readAccess_localData hf ha] at h
    rw [hf, List.map_cons] at hsizes
    obtain ⟨f', rest', hf', hsize, -⟩ := List.map_eq_cons_iff.mp hsizes
    rw [readAccess_localData hf' ha]
    exact hread hsize h
  · rw [readAccess_outerData hf ha] at h
    rw [hf, List.map_cons, List.map_cons] at hsizes
    obtain ⟨g', t', hg', -, ht⟩ := List.map_eq_cons_iff.mp hsizes
    obtain ⟨f', rest', rfl, hsize, -⟩ := List.map_eq_cons_iff.mp ht
    rw [readAccess_outerData hg' ha]
    exact hread hsize h
  · rw [readAccess_global ha] at h ⊢
    have habs : m'.absolute a = m.absolute a := by
      unfold absolute
      rw [hm.di]
    rw [habs]
    exact hm.memory.readable h
  · cases he.symm.trans h

theorem readable_of_blank_eq (hm : m'.blank = m.blank) (h : m.readAccess a = .ok v) :
    ∃ v', m'.readAccess a = .ok v' := (Admits.of_blank_eq hm).readable h

theorem depth_pos_of_slot {i : UInt32} {op : Operand} (h : m.slot i = .ok op) : 0 < m.depth := by
  unfold slot at h
  unfold depth
  cases hf : m.frames with
  | nil => simp [hf] at h
  | cons f rest => exact Nat.succ_pos _

theorem unslot_of_slot {i : UInt32} {op : Operand} (h : m.slot i = .ok op) :
    m.unslot (.slot i) = .ok op := h

theorem fetch_of_unslot_memory {op : Operand} {l : Location} (h : m.unslot op = .ok (.memory l)) :
    m.fetch op = m.readAccess l.toAccess := by
  simp only [fetch, h]
  rfl

theorem store_of_unslot {op : Operand} {l : Location} (h : m.unslot op = .ok (.memory l)) (v : Value) :
    m.store op v = m.writeAccess l.toAccess v := by
  simp only [store, h]
  rfl

theorem unslot_of_store {op : Operand} (h : m.store op v = .ok m') :
    ∃ l, m.unslot op = .ok (.memory l) ∧ m.writeAccess l.toAccess v = .ok m' := by
  obtain ⟨actual, hop, hw⟩ := bind_eq_ok.mp h
  cases actual with
  | memory l => exact ⟨l, hop, hw⟩
  | immediate _ _ _ | block _ _ | slot _ => cases hw

theorem fetch_slot {i : UInt32} {l : Location} (h : m.slot i = .ok (.memory l)) :
    m.fetch (.slot i) = m.readAccess l.toAccess := fetch_of_unslot_memory (unslot_of_slot h)

theorem fetch_memory (m : Machine) (l : Location) : m.fetch (.memory l) = m.readAccess l.toAccess :=
  rfl

theorem store_slot {i : UInt32} {l : Location} (h : m.slot i = .ok (.memory l)) :
    m.store (.slot i) v = m.writeAccess l.toAccess v := store_of_unslot (unslot_of_slot h) v

theorem store_cases {op : Operand} (h : m.store op v = .ok m') :
    ∃ a, m.writeAccess a v = .ok m' := by
  obtain ⟨l, -, hw⟩ := unslot_of_store h
  exact ⟨l.toAccess, hw⟩

theorem resolve_eq_ok {op : Operand} :
    m.resolve op = .ok v ↔ op.validate = .ok () ∧ m.fetch op = .ok v := by
  unfold resolve
  rw [bind_eq_ok]
  exact ⟨fun ⟨⟨⟩, hv, hf⟩ => ⟨hv, hf⟩, fun ⟨hv, hf⟩ => ⟨(), hv, hf⟩⟩

theorem fits_of_resolve {op : Operand} {w : UInt32} (h : m.resolve op = .ok v)
    (hw : op.width? = some w) : v.Fits w := by
  obtain ⟨hv, hf⟩ := resolve_eq_ok.mp h
  cases op with
  | immediate u w' c =>
    cases hw
    cases hf
    by_contra hn
    simp [Operand.validate, hn] at hv
  | memory l =>
    cases hw
    exact (canonical_of_readAccess hf).1
  | block kind number =>
    cases hw
    cases hf
    exact number.toNat_lt
  | slot i => cases hw

end Machine

end PlcMachine
