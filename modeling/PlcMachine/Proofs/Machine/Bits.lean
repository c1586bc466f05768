import PlcMachine.Proofs.Machine.Access
import PlcMachine.Proofs.Storage.Bits

/-! # Bits of a controller

The same storage can go by several names: instance data is a data block, and the outer data of a frame is
the local data of its caller. A bit is counted from its home, so that two operands overlap exactly if
they name a common bit.
-/

namespace PlcMachine

/-- Where an area is: shared by all frames, or the local data of one, counted from the outermost. -/
inductive Home where
  | shared (area : Area)
  | frame (level : Nat)
deriving DecidableEq, Repr

structure Bit where
  home : Home
  index : Nat
deriving DecidableEq, Repr

theorem getElem?_reverse_cons {α : Type} (x : α) (xs : List α) (k : Nat) :
    (x :: xs).reverse[k]? = if k = xs.length then some x else xs.reverse[k]? := by
  rw [List.reverse_cons, List.getElem?_append, List.length_reverse]
  split_ifs with h₁ h₂ h₂
  · omega
  · rfl
  · simp [h₂]
  · rw [List.getElem?_eq_none (by simp; omega), List.getElem?_eq_none (by simp; omega)]

namespace Machine

variable {m m' : Machine} {a : Access} {v : Value} {op : Operand} {b : Bit}

def home? (m : Machine) : Area → Option Home
  | .localData => if 0 < m.depth then some (.frame (m.depth - 1)) else none
  | .outerData => if 1 < m.depth then some (.frame (m.depth - 2)) else none
  | .instanceData => some (.shared (.dataBlock m.registers.di))
  | area => some (.shared area)

def bit? (m : Machine) (b : Bit) : Option Bool :=
  match b.home with
  | .shared area => m.memory.bit? area b.index
  | .frame level => m.frames.reverse[level]?.map (·.stack.bytes.bitAt b.index)

def Reaches (m : Machine) (a : Access) (b : Bit) : Prop :=
  m.home? a.area = some b.home ∧ a.Spans b.index

/-- The operand, or the actual if it is a formal parameter, is a location that has the bit. -/
def Names (m : Machine) (op : Operand) (b : Bit) : Prop :=
  ∃ l, m.unslot op = .ok (.memory l) ∧ m.Reaches l.toAccess b

/-- No bit is named by both. -/
def Disjoint (m : Machine) (op op' : Operand) : Prop := ∀ b, m.Names op b → ¬ m.Names op' b

theorem writeAccess_localData_eq_map {f : Frame} {rest : List Frame} (hf : m.frames = f :: rest)
    (ha : a.area = .localData) : m.writeAccess a v =
      (f.stack.bytes.write a v).map ({ m with frames := f.setBytes · :: rest }) := by
  simp only [writeAccess, hf, ha, LocalStack.write]
  cases f.stack.bytes.write a v <;> rfl

theorem writeAccess_outerData_eq_map {g f : Frame} {rest : List Frame} (hf : m.frames = g :: f :: rest)
    (ha : a.area = .outerData) : m.writeAccess a v =
      (f.stack.bytes.write a v).map ({ m with frames := g :: f.setBytes · :: rest }) := by
  simp only [writeAccess, hf, ha, LocalStack.write]
  cases f.stack.bytes.write a v <;> rfl

section Homes

theorem home?_localData {f : Frame} {rest : List Frame} (hf : m.frames = f :: rest) :
    m.home? .localData = some (.frame rest.length) := by
  simp [home?, depth, hf]

theorem home?_outerData {g f : Frame} {rest : List Frame} (hf : m.frames = g :: f :: rest) :
    m.home? .outerData = some (.frame rest.length) := by
  simp [home?, depth, hf]

theorem home?_global (ha : a.area.isFrameRelative = false) :
    m.home? a.area = some (.shared (m.absolute a).area) := by
  unfold absolute
  cases h : a.area <;> simp_all [Area.isFrameRelative, home?]

theorem isTable_absolute (m : Machine) (a : Access) :
    (m.absolute a).area.isTable = a.area.isTable := by
  unfold absolute
  split
  · next h => rw [h]; rfl
  · rfl

theorem spans_absolute (m : Machine) (a : Access) (i : Nat) : (m.absolute a).Spans i ↔ a.Spans i := by
  rw [Access.Spans, Access.Spans, isTable_absolute, covers_absolute]
  have hbyte : (m.absolute a).offset = a.offset := by
    unfold absolute
    split <;> rfl
  rw [hbyte]

end Homes

section Contents

variable (h : m'.blank = m.blank)
include h

theorem depth_of_blank_eq : m'.depth = m.depth := by
  simpa [depth] using congrArg List.length (frames_of_blank_eq h)

theorem home?_of_blank_eq (area : Area) : m'.home? area = m.home? area := by
  unfold home?
  rw [depth_of_blank_eq h, registers_of_blank_eq h]

theorem reaches_of_blank_eq : m'.Reaches a b ↔ m.Reaches a b := by
  rw [Reaches, Reaches, home?_of_blank_eq h]

theorem absolute_of_blank_eq (a : Access) : m'.absolute a = m.absolute a := by
  unfold absolute
  rw [registers_of_blank_eq h]

theorem unslot_of_blank_eq (op : Operand) : m'.unslot op = m.unslot op := by
  cases op with
  | immediate _ _ _ | memory _ | block _ _ => rfl
  | slot i =>
    have hslot := congrArg (fun fs => fs.head?.bind (·.slot? i)) (frames_of_blank_eq h)
    simp only [List.head?_map, Option.bind_map] at hslot
    have hslot : m'.frames.head?.bind (·.slot? i) = m.frames.head?.bind (·.slot? i) := hslot
    simp only [unslot, slot, hslot]

theorem names_of_blank_eq : m'.Names op b ↔ m.Names op b := by
  unfold Names
  rw [unslot_of_blank_eq h]
  simp only [reaches_of_blank_eq h]

theorem area_cases_of_blank_eq (a : Access) :
    (∃ f rest f' rest', m.frames = f :: rest ∧ m'.frames = f' :: rest' ∧
        f'.stack.bytes.size = f.stack.bytes.size ∧ rest'.length = rest.length ∧ a.area = .localData) ∨
      (∃ g f rest g' f' rest', m.frames = g :: f :: rest ∧ m'.frames = g' :: f' :: rest' ∧
        f'.stack.bytes.size = f.stack.bytes.size ∧ rest'.length = rest.length ∧ a.area = .outerData) ∨
      a.area.isFrameRelative = false ∨
      ∃ e, m.readAccess a = .error e ∧ m'.readAccess a = .error e ∧
        ∀ v, m.writeAccess a v = .error e ∧ m'.writeAccess a v = .error e := by
  have hframes := frames_of_blank_eq h
  cases ha : a.area
  case localData =>
    cases hf : m.frames with
    | nil =>
      rw [hf, List.map_nil, List.map_eq_nil_iff] at hframes
      exact .inr (.inr (.inr ⟨.noActiveFrame, by simp [readAccess, writeAccess, ha, hf, hframes]⟩))
    | cons f rest =>
      obtain ⟨f', rest', hf', hblank, hrest⟩ := Frame.cons_of_blank_eq hframes hf
      have hlength : rest'.length = rest.length := by simpa using congrArg List.length hrest
      exact .inl ⟨f, rest, f', rest', rfl, hf', Frame.size_of_blank_eq hblank, hlength, rfl⟩
  case outerData =>
    rcases hf : m.frames with _ | ⟨g, _ | ⟨f, rest⟩⟩
    · rw [hf, List.map_nil, List.map_eq_nil_iff] at hframes
      exact .inr (.inr (.inr ⟨.noActiveFrame, by simp [readAccess, writeAccess, ha, hf, hframes]⟩))
    · obtain ⟨g', rest', hg', -, hrest⟩ := Frame.cons_of_blank_eq hframes hf
      obtain rfl : rest' = [] := List.map_eq_nil_iff.mp hrest
      exact .inr (.inr (.inr ⟨.noOuterFrame, by simp [readAccess, writeAccess, ha, hf, hg']⟩))
    · obtain ⟨g', rest', hg', -, hrest⟩ := Frame.cons_of_blank_eq hframes hf
      obtain ⟨f', rest', rfl, hblank, hrest⟩ := Frame.cons_of_blank_eq hrest rfl
      have hlength : rest'.length = rest.length := by simpa using congrArg List.length hrest
      exact .inr (.inl ⟨g, f, rest, g', f', rest', rfl, hg', Frame.size_of_blank_eq hblank, hlength, rfl⟩)
  all_goals exact .inr (.inr (.inl rfl))

/-- What an access reads depends on the bits that it goes to. -/
theorem readAccess_congr (hbits : ∀ b, m.Reaches a b → m'.bit? b = m.bit? b) :
    m'.readAccess a = m.readAccess a := by
  obtain ⟨f, rest, f', rest', hf, hf', hsize, hlength, ha⟩ |
    ⟨g, f, rest, g', f', rest', hf, hf', hsize, hlength, ha⟩ | ha | ⟨e, he, he', -⟩ :=
    area_cases_of_blank_eq h a
  · rw [readAccess_localData hf ha, readAccess_localData hf' ha]
    refine ByteStore.read_congr hsize fun _ i hi => ?_
    have hbit := hbits ⟨.frame rest.length, i⟩
      ⟨ha ▸ home?_localData hf, (Access.spans_of_bytes (by rw [ha]; rfl)).mpr hi⟩
    simpa [bit?, hf, hf', hlength] using hbit
  · rw [readAccess_outerData hf ha, readAccess_outerData hf' ha]
    refine ByteStore.read_congr hsize fun _ i hi => ?_
    have hbit := hbits ⟨.frame rest.length, i⟩
      ⟨ha ▸ home?_outerData hf, (Access.spans_of_bytes (by rw [ha]; rfl)).mpr hi⟩
    simpa [bit?, hf, hf', getElem?_reverse_cons, hlength] using hbit
  · rw [readAccess_global ha, readAccess_global ha, absolute_of_blank_eq h]
    refine Memory.read_congr (memory_of_blank_eq h) fun i hi => ?_
    exact hbits ⟨.shared (m.absolute a).area, i⟩ ⟨home?_global ha, (m.spans_absolute a i).mp hi⟩
  · rw [he, he']

theorem writeAccess_error_of_blank_eq {e : AccessError} (hw : m.writeAccess a v = .error e) :
    m'.writeAccess a v = .error e := by
  obtain ⟨f, rest, f', rest', hf, hf', hsize, -, ha⟩ | ⟨g, f, rest, g', f', rest', hf, hf', hsize, -, ha⟩ |
    ha | ⟨e', -, -, he⟩ := area_cases_of_blank_eq h a
  · rw [writeAccess_localData_eq_map hf ha, map_eq_error] at hw
    rw [writeAccess_localData_eq_map hf' ha, map_eq_error]
    exact ByteStore.write_error_of_size_eq hsize.symm hw
  · rw [writeAccess_outerData_eq_map hf ha, map_eq_error] at hw
    rw [writeAccess_outerData_eq_map hf' ha, map_eq_error]
    exact ByteStore.write_error_of_size_eq hsize.symm hw
  · rw [writeAccess_eq_map ha, map_eq_error] at hw
    rw [writeAccess_eq_map ha, map_eq_error, absolute_of_blank_eq h]
    exact Memory.write_error_of_blank_eq (memory_of_blank_eq h) hw
  · rw [(he v).2, ← hw, (he v).1]

theorem store_error_of_blank_eq {e : AccessError} (hs : m.store op v = .error e) :
    m'.store op v = .error e := by
  unfold store at hs ⊢
  rw [unslot_of_blank_eq h]
  cases hop : m.unslot op with
  | error e' => rwa [hop] at hs
  | ok actual =>
    rw [hop] at hs
    cases actual with
    | memory l => exact writeAccess_error_of_blank_eq h hs
    | immediate _ _ _ | block _ _ | slot _ => exact hs

theorem fetch_congr (hbits : ∀ b, m.Names op b → m'.bit? b = m.bit? b) : m'.fetch op = m.fetch op := by
  unfold fetch
  rw [unslot_of_blank_eq h]
  cases hop : m.unslot op with
  | error e => rfl
  | ok actual =>
    cases actual with
    | memory l => exact readAccess_congr h fun b hb => hbits b ⟨l, hop, hb⟩
    | immediate _ _ _ | block _ _ | slot _ => rfl

end Contents

section Writing

theorem bit?_of_writeAccess (h : m.writeAccess a v = .ok m') (hb : ¬ m.Reaches a b) :
    m'.bit? b = m.bit? b := by
  obtain ⟨home, i⟩ := b
  have hspans : m.home? a.area = some home → ¬ a.Spans i := fun hhome hi => hb ⟨hhome, hi⟩
  obtain ⟨f, rest, bytes, hf, ha, hw, rfl⟩ | ⟨g, f, rest, bytes, hf, ha, hw, rfl⟩ |
    ⟨memory, ha, hw, rfl⟩ := writeAccess_cases h
  · rw [ha, home?_localData hf, Option.some.injEq, Access.spans_of_bytes (by rw [ha]; rfl)] at hspans
    cases home with
    | shared area => rfl
    | frame level =>
      simp only [bit?, hf, getElem?_reverse_cons]
      split_ifs with hlevel
      · exact congrArg some (ByteStore.bitAt_of_write hw (hspans (congrArg _ hlevel.symm)))
      · rfl
  · rw [ha, home?_outerData hf, Option.some.injEq, Access.spans_of_bytes (by rw [ha]; rfl)] at hspans
    cases home with
    | shared area => rfl
    | frame level =>
      simp only [bit?, hf, getElem?_reverse_cons, List.length_cons]
      split_ifs with hg hlevel
      · rfl
      · exact congrArg some (ByteStore.bitAt_of_write hw (hspans (congrArg _ hlevel.symm)))
      · rfl
  · rw [home?_global ha, Option.some.injEq, ← m.spans_absolute] at hspans
    cases home with
    | frame level => rfl
    | shared area =>
      refine Memory.bit?_of_write hw fun harea => hspans ?_
      rw [harea]

theorem exists_writeAccess_iff : (∃ m', m.writeAccess a v = .ok m') ↔
    (∃ u, m.readAccess a = .ok u) ∧ v.Fits a.width ∧ (a.area.isTable = true → ∃ n, v = .scalar n) := by
  obtain ⟨f, rest, hf, ha⟩ | ⟨g, f, rest, hf, ha⟩ | ha | ⟨e, he, he'⟩ := m.area_cases a
  · rw [readAccess_localData hf ha, writeAccess_localData_eq_map hf ha, exists_map_eq_ok,
      ByteStore.exists_write_iff]
    simp [ha, Area.isTable]
  · rw [readAccess_outerData hf ha, writeAccess_outerData_eq_map hf ha, exists_map_eq_ok,
      ByteStore.exists_write_iff]
    simp [ha, Area.isTable]
  · rw [readAccess_global ha, writeAccess_eq_map ha, exists_map_eq_ok, Memory.exists_write_iff,
      width_absolute, isTable_absolute]
  · simp [he, he']

/-- A store to a location succeeds where a fetch does, if the value fits and a table is given a number. -/
theorem exists_store_iff {l : Location} (h : m.unslot op = .ok (.memory l)) :
    (∃ m', m.store op v = .ok m') ↔
      (∃ u, m.fetch op = .ok u) ∧ v.Fits l.width ∧ (l.area.isTable = true → ∃ n, v = .scalar n) := by
  rw [store_of_unslot h, fetch_of_unslot_memory h]
  exact exists_writeAccess_iff

theorem bit?_of_store (h : m.store op v = .ok m') (hb : ¬ m.Names op b) : m'.bit? b = m.bit? b := by
  obtain ⟨l, hop, hw⟩ := unslot_of_store h
  exact bit?_of_writeAccess hw fun hreaches => hb ⟨l, hop, hreaches⟩

theorem fetch_of_store (h : m.store op v = .ok m') : m'.fetch op = .ok v.canonical := by
  obtain ⟨l, hop, hw⟩ := unslot_of_store h
  rw [fetch_of_unslot_memory ((unslot_of_blank_eq (blank_of_writeAccess hw) op).trans hop)]
  exact readAccess_of_writeAccess hw

end Writing

end Machine

end PlcMachine
