import Mathlib.Data.List.Induction
import PlcMachine.Proofs.Storage.Memory

/-! # Histories of global memory

A place is one byte, or one cell of a table. It comes into existence zeroed when its area grows past it
or its data block is put there, and from then on it holds what the stores that go to it leave in it.
-/

namespace PlcMachine

def Area.isTable : Area → Bool
  | .timer | .counter => true
  | _ => false

def Specs.size? (specs : Specs) : Area → Option Nat
  | .input | .peripheralIn => some specs.inputBytes.toNat
  | .output | .peripheralOut => some specs.outputBytes.toNat
  | .flag => some specs.flagBytes.toNat
  | .timer => some specs.timers.toNat
  | .counter => some specs.counters.toNat
  | _ => none

def MemoryOperation.size? : MemoryOperation → Area → Option Nat
  | .resize specs, area => specs.size? area
  | .addBlock number size, area => if area = .dataBlock number then some size else none
  | _, _ => none

/-- One byte of an area of bytes, or one cell of a table. -/
structure Place where
  area : Area
  index : UInt32

namespace Place

def access (p : Place) : Access := ⟨p.area, .ofByte p.index, if p.area.isTable then 16 else 8⟩

/-- The access goes to the place, alone or among others. -/
def Meets (p : Place) (a : Access) : Prop :=
  a.area = p.area ∧ a.offset.byte.toNat ≤ p.index.toNat ∧
    p.index.toNat < a.offset.byte.toNat + if p.area.isTable then 1 else a.byteLength

instance (p : Place) (a : Access) : Decidable (p.Meets a) := inferInstanceAs (Decidable (_ ∧ _))

/-- What a store that goes to the place leaves there: the number for a cell, and for a byte one bit set
or cleared or the byte of the value that falls there. -/
def put (p : Place) (old : UInt32) (a : Access) (v : Value) : UInt32 :=
  if p.area.isTable then v.scalar?.getD old
  else if a.width = 1 then (setBit old.toUInt8 a.offset.bit (v ≠ .scalar 0)).toUInt32
  else ((v.toBytes a.byteLength).getD (p.index.toNat - a.offset.byte.toNat) 0).toUInt32

/-- What the place holds after stores, of which those that go elsewhere do not count. -/
def content (p : Place) (old : UInt32) (stores : List (Access × Value)) : UInt32 :=
  (stores.filter fun s => p.Meets s.1).foldl (fun old s => p.put old s.1 s.2) old

end Place

/-- The size that an area was given last, if it was given any. -/
def sizeAfter (specs : Specs) (ops : List MemoryOperation) (area : Area) : Option Nat :=
  ops.foldl (fun size op => (op.size? area).or size) (specs.size? area)

namespace Place

/-- The place lies below the size that its area was given last. -/
def Exists (p : Place) (specs : Specs) (ops : List MemoryOperation) : Prop :=
  ∃ size, sizeAfter specs ops p.area = some size ∧ p.index.toNat < size

/-- The last request of a history brings the place into existence. -/
inductive Comes (p : Place) (specs : Specs) : List MemoryOperation → Prop where
  | start (h : p.Exists specs []) : Comes p specs []
  | grow {ops : List MemoryOperation} {op : MemoryOperation} (hbefore : ¬ p.Exists specs ops)
      (hafter : p.Exists specs (ops ++ [op])) : Comes p specs (ops ++ [op])
  | replace {ops : List MemoryOperation} {number : UInt16} {size : Nat}
      (harea : p.area = .dataBlock number) (h : p.index.toNat < size) :
      Comes p specs (ops ++ [.addBlock number size])

/-- The place came into existence at the end of the first requests, and not again since. -/
structure LastComes (p : Place) (specs : Specs) (before since : List MemoryOperation) : Prop where
  comes : p.Comes specs before
  last : ∀ ops, ops <+: since → ops ≠ [] → ¬ p.Comes specs (before ++ ops)

end Place

theorem getElem?_extract_append_replicate {α : Type} (xs : Array α) (n k : Nat) (x : α) :
    (xs.extract 0 n ++ Array.replicate (n - xs.size) x)[k]? =
      if k < n then some (xs[k]?.getD x) else none := by
  rw [Array.getElem?_append, Array.getElem?_extract, Array.getElem?_replicate, Array.size_extract]
  split_ifs with h₁ h₂ h₃ h₄
  all_goals try omega
  all_goals try rfl
  · have hk : k < xs.size := by omega
    simp [hk]
  · have hk : xs.size ≤ k := by omega
    simp [hk]

namespace ByteStore

variable {s s' : ByteStore} {a : Access} {v : Value}

theorem getElem?_zeroed (n k : Nat) : (zeroed n).data[k]? = if k < n then some 0 else none :=
  Array.getElem?_replicate

theorem getElem?_resize (s : ByteStore) (n k : Nat) :
    (s.resize n).data[k]? = if k < n then some (s.data[k]?.getD 0) else none := by
  rw [data_resize, ← size_data]
  exact getElem?_extract_append_replicate s.data n k 0

theorem byteLength_byte (area : Area) (offset : BitAddress) :
    Access.byteLength ⟨area, offset, 8⟩ = 1 := by
  simp [Access.byteLength]

theorem read_byte {area : Area} {k : UInt32} : s.read ⟨area, .ofByte k, 8⟩ = .ok v ↔
    ∃ b, s.data[k.toNat]? = some b ∧ v = .scalar b.toUInt32 := by
  have hwithin : Access.Within ⟨area, .ofByte k, 8⟩ s.size ↔ k.toNat < s.data.size := by
    have hend : Access.byteEnd ⟨area, .ofByte k, 8⟩ = k.toNat + 1 :=
      congrArg (k.toNat + ·) (byteLength_byte area _)
    constructor
    · intro h
      have hfits := h.fits
      rw [hend, ← size_data] at hfits
      exact hfits
    · intro h
      rw [size_data] at h
      exact ⟨.inr ⟨by simp, by simp⟩, ⟨UInt8.zero_le, .inr rfl⟩, hend ▸ h⟩
  have hcontents (hk : k.toNat < s.data.size) :
      s.contents ⟨area, .ofByte k, 8⟩ = .scalar s.data[k.toNat].toUInt32 := by
    have hslice : s.slice k.toNat 1 = [s.data[k.toNat]] := by
      apply List.ext_getElem?
      intro j
      rw [getElem?_slice _ _ _ _ (by rw [← size_data]; exact hk)]
      cases j with
      | zero => simp [Array.getElem?_eq_getElem hk]
      | succ j => simp
    rw [contents, if_neg (by simp), byteLength_byte]
    change Value.ofBytes (s.slice k.toNat 1) = _
    rw [hslice, Value.ofBytes_singleton]
  rw [read_eq_ok, hwithin]
  constructor
  · rintro ⟨hk, rfl⟩
    exact ⟨_, Array.getElem?_eq_getElem hk, hcontents hk⟩
  · rintro ⟨b, hb, rfl⟩
    obtain ⟨hk, rfl⟩ := Array.getElem?_eq_some_iff.mp hb
    exact ⟨hk, hcontents hk⟩

theorem getElem?_of_write (h : s.write a v = .ok s') (k : Nat) : s'.data[k]? = s.data[k]?.map fun b =>
    if a.offset.byte.toNat ≤ k ∧ k < a.offset.byte.toNat + a.byteLength then
      if a.width = 1 then setBit b a.offset.bit (v ≠ .scalar 0)
      else (v.toBytes a.byteLength).getD (k - a.offset.byte.toNat) 0
    else b := by
  obtain ⟨ha, hv, rfl⟩ := write_eq_ok.mp h
  by_cases hk : k < s.data.size
  · rw [Array.getElem?_eq_getElem hk, Option.map_some]
    by_cases hw : a.width = 1
    · have hlength : a.byteLength = 1 := if_pos hw
      have hk' : k = a.offset.byte.toNat ↔ a.offset.byte.toNat ≤ k ∧ k < a.offset.byte.toNat + 1 := by
        omega
      rw [written, if_pos hw, if_pos hw, data_ofData, hlength, Array.getElem?_modify,
        Array.getElem?_eq_getElem hk]
      simp only [← hk', eq_comm (a := a.offset.byte.toNat)]
      split_ifs <;> rfl
    · have hlength := length_toBytes ha hv hw
      rw [written, if_neg hw, if_neg hw, data_ofData, getElem?_overwrite _ _ _ _ hk, hlength]
      split_ifs with hmeets
      · rw [List.getD_eq_getElem?_getD, List.getElem?_eq_getElem (by omega)]
        rfl
      · exact Array.getElem?_eq_getElem hk
  · have hk' : ¬ k < (s.written a v).data.size := by
      rwa [size_data, size_written, ← size_data]
    rw [Array.getElem?_eq_none (Nat.le_of_not_lt hk), Array.getElem?_eq_none (Nat.le_of_not_lt hk')]
    rfl

end ByteStore

namespace CellTable

variable {t t' : CellTable} {a : Access} {v : Value}

theorem getElem?_zeroed (n k : Nat) : (zeroed n).cells[k]? = if k < n then some 0 else none :=
  Array.getElem?_replicate

theorem getElem?_resize (t : CellTable) (n k : Nat) :
    (t.resize n).cells[k]? = if k < n then some (t.cells[k]?.getD 0) else none :=
  getElem?_extract_append_replicate t.cells n k 0

theorem read_cell {area : Area} {k : UInt32} : t.read ⟨area, .ofByte k, 16⟩ = .ok v ↔
    ∃ c, t.cells[k.toNat]? = some c ∧ v = .scalar c.toUInt32 := by
  rw [read_eq_ok]
  constructor
  · rintro ⟨⟨-, -, hk⟩, rfl⟩
    have hk : k.toNat < t.cells.size := hk
    refine ⟨_, Array.getElem?_eq_getElem hk, ?_⟩
    simp [BitAddress.ofByte, hk]
  · rintro ⟨c, hc, rfl⟩
    obtain ⟨hk, rfl⟩ := Array.getElem?_eq_some_iff.mp hc
    refine ⟨⟨rfl, rfl, hk⟩, ?_⟩
    simp [BitAddress.ofByte, hk]

theorem getElem?_of_write (h : t.write a v = .ok t') (k : Nat) :
    ∃ n : UInt32, v = .scalar n ∧ n.toNat < UInt16.size ∧ t'.cells[k]? = t.cells[k]?.map fun c =>
      if a.offset.byte.toNat = k then n.toUInt16 else c := by
  obtain ⟨-, n, rfl, hn, rfl⟩ := write_eq_ok.mp h
  refine ⟨n, rfl, hn, ?_⟩
  rw [Array.getElem?_setIfInBounds]
  split_ifs with hk hsize
  · subst hk
    simp [hsize]
  · subst hk
    simp [hsize]
  · simp

end CellTable

namespace Memory

variable {m m' : Memory} {p : Place}

def at? (m : Memory) (p : Place) : Option UInt32 :=
  ((m.bytes? p.area).bind fun s => s.data[p.index.toNat]?.map UInt8.toUInt32).or
    ((m.cells? p.area).bind fun t => t.cells[p.index.toNat]?.map UInt16.toUInt32)

theorem isTable_of_bytes? {area : Area} {s : ByteStore} (h : m.bytes? area = some s) :
    area.isTable = false ∧ m.cells? area = none := by
  cases area with
  | timer | counter => cases h
  | _ => exact ⟨rfl, rfl⟩

theorem isTable_of_cells? {area : Area} {t : CellTable} (h : m.cells? area = some t) :
    area.isTable = true ∧ m.bytes? area = none := by
  cases area with
  | timer | counter => exact ⟨rfl, rfl⟩
  | _ => cases h

theorem at?_of_bytes? {s : ByteStore} (h : m.bytes? p.area = some s) :
    m.at? p = s.data[p.index.toNat]?.map UInt8.toUInt32 := by
  rw [at?, h, (isTable_of_bytes? h).2]
  exact Option.or_none

theorem at?_of_cells? {t : CellTable} (h : m.cells? p.area = some t) :
    m.at? p = t.cells[p.index.toNat]?.map UInt16.toUInt32 := by
  rw [at?, h, (isTable_of_cells? h).2]
  rfl

theorem read_access {v : Value} : m.read p.access = .ok v ↔ ∃ n, m.at? p = some n ∧ v = .scalar n := by
  rw [read_eq_ok]
  constructor
  · rintro (⟨s, hs, hr⟩ | ⟨t, ht, hr⟩)
    · have hs : m.bytes? p.area = some s := hs
      rw [Place.access, (isTable_of_bytes? hs).1] at hr
      obtain ⟨b, hb, rfl⟩ := ByteStore.read_byte.mp hr
      refine ⟨_, ?_, rfl⟩
      rw [at?_of_bytes? hs, hb]
      rfl
    · have ht : m.cells? p.area = some t := ht
      rw [Place.access, (isTable_of_cells? ht).1] at hr
      obtain ⟨c, hc, rfl⟩ := CellTable.read_cell.mp hr
      refine ⟨_, ?_, rfl⟩
      rw [at?_of_cells? ht, hc]
      rfl
  · rintro ⟨n, hn, rfl⟩
    cases hs : m.bytes? p.area with
    | some s =>
      rw [at?_of_bytes? hs] at hn
      obtain ⟨b, hb, rfl⟩ := Option.map_eq_some_iff.mp hn
      refine .inl ⟨s, hs, ?_⟩
      rw [Place.access, (isTable_of_bytes? hs).1]
      exact ByteStore.read_byte.mpr ⟨b, hb, rfl⟩
    | none =>
      cases ht : m.cells? p.area with
      | some t =>
        rw [at?_of_cells? ht] at hn
        obtain ⟨c, hc, rfl⟩ := Option.map_eq_some_iff.mp hn
        refine .inr ⟨t, ht, ?_⟩
        rw [Place.access, (isTable_of_cells? ht).1]
        exact CellTable.read_cell.mpr ⟨c, hc, rfl⟩
      | none =>
        rw [at?, hs, ht] at hn
        cases hn

theorem at?_ofSpecs (specs : Specs) (p : Place) : (ofSpecs specs).at? p =
    (specs.size? p.area).bind fun size => if p.index.toNat < size then some 0 else none := by
  have hbytes (size k : Nat) : (ByteStore.zeroed size).data[k]?.map UInt8.toUInt32 =
      if k < size then some 0 else none := by
    rw [ByteStore.getElem?_zeroed]
    split_ifs <;> rfl
  have hcells (size k : Nat) : (CellTable.zeroed size).cells[k]?.map UInt16.toUInt32 =
      if k < size then some 0 else none := by
    rw [CellTable.getElem?_zeroed]
    split_ifs <;> rfl
  obtain ⟨area, index⟩ := p
  cases area with
  | input | output | flag | peripheralIn | peripheralOut =>
    rw [at?_of_bytes? rfl]
    exact hbytes _ _
  | timer | counter =>
    rw [at?_of_cells? rfl]
    exact hcells _ _
  | localData | outerData | dataBlock _ | instanceData => rfl

theorem at?_resize (m : Memory) (specs : Specs) (p : Place) : (m.resize specs).at? p =
    match specs.size? p.area with
    | some size => if p.index.toNat < size then some ((m.at? p).getD 0) else none
    | none => m.at? p := by
  have hbytes (s : ByteStore) (size k : Nat) : (s.resize size).data[k]?.map UInt8.toUInt32 =
      if k < size then some ((s.data[k]?.map UInt8.toUInt32).getD 0) else none := by
    rw [ByteStore.getElem?_resize]
    split_ifs
    · cases s.data[k]? <;> rfl
    · rfl
  have hcells (t : CellTable) (size k : Nat) : (t.resize size).cells[k]?.map UInt16.toUInt32 =
      if k < size then some ((t.cells[k]?.map UInt16.toUInt32).getD 0) else none := by
    rw [CellTable.getElem?_resize]
    split_ifs
    · cases t.cells[k]? <;> rfl
    · rfl
  obtain ⟨area, index⟩ := p
  cases area with
  | input | output | flag | peripheralIn | peripheralOut =>
    rw [at?_of_bytes? rfl, at?_of_bytes? rfl]
    exact hbytes _ _ _
  | timer | counter =>
    rw [at?_of_cells? rfl, at?_of_cells? rfl]
    exact hcells _ _ _
  | localData | outerData | dataBlock _ | instanceData => rfl

theorem bytes?_addBlock (m : Memory) (number : UInt16) (size : Nat) (area : Area) :
    (m.addBlock number size).bytes? area =
      if area = .dataBlock number then some (.zeroed size) else m.bytes? area := by
  cases area with
  | dataBlock n =>
    by_cases hn : n = number
    · simp [bytes?, addBlock, block?_setBlock, DataBlock.zeroed, hn]
    · simp [bytes?, addBlock, block?_setBlock, DataBlock.zeroed, hn]
  | _ => rfl

theorem at?_addBlock (m : Memory) (number : UInt16) (size : Nat) (p : Place) :
    (m.addBlock number size).at? p =
      if p.area = .dataBlock number then if p.index.toNat < size then some 0 else none
      else m.at? p := by
  have hbytes := m.bytes?_addBlock number size p.area
  have hcells : (m.addBlock number size).cells? p.area = m.cells? p.area := by
    cases p.area <;> rfl
  split_ifs at hbytes ⊢ with harea hindex
  · rw [at?_of_bytes? hbytes, ByteStore.getElem?_zeroed, if_pos hindex]
    rfl
  · rw [at?_of_bytes? hbytes, ByteStore.getElem?_zeroed, if_neg hindex]
    rfl
  · rw [at?, at?, hbytes, hcells]

theorem bytes?_setCells (m : Memory) (area area' : Area) (t : CellTable) :
    (m.setCells t area).bytes? area' = m.bytes? area' := by
  cases area <;> rfl

theorem cells?_setCells_of_ne (m : Memory) {area area' : Area} (h : area' ≠ area) (t : CellTable) :
    (m.setCells t area).cells? area' = m.cells? area' := by
  cases area <;> cases area' <;> first | rfl | exact absurd rfl h

section Stores

variable {a : Access} {v : Value}

theorem at?_setBytes {s s' : ByteStore} (hs : m.bytes? p.area = some s) (ha : p.area = a.area)
    (hw : s.write a v = .ok s') : (m.setBytes s' p.area).at? p =
      (m.at? p).map fun old => if p.Meets a then p.put old a v else old := by
  have hbytes := (isTable_of_bytes? hs).1
  have hs' := bytes?_setBytes_self (by simp [hs] : m.bytes? p.area ≠ none) s'
  rw [at?_of_bytes? hs', at?_of_bytes? hs, ByteStore.getElem?_of_write hw, Option.map_map, Option.map_map]
  congr 1
  funext b
  simp only [Function.comp_apply, Place.Meets, Place.put, ha ▸ hbytes, ha, true_and, Bool.false_eq_true,
    ↓reduceIte, UInt8.toUInt8_toUInt32]
  split_ifs <;> rfl

theorem at?_setCells {t t' : CellTable} (ht : m.cells? p.area = some t) (ha : p.area = a.area)
    (hw : t.write a v = .ok t') : (m.setCells t' p.area).at? p =
      (m.at? p).map fun old => if p.Meets a then p.put old a v else old := by
  have htable := (isTable_of_cells? ht).1
  have ht' := cells?_setCells_self (by simp [ht] : m.cells? p.area ≠ none) t'
  obtain ⟨n, rfl, hn, hcell⟩ := CellTable.getElem?_of_write hw p.index.toNat
  have hmeets : a.offset.byte.toNat = p.index.toNat ↔
      a.offset.byte.toNat ≤ p.index.toNat ∧ p.index.toNat < a.offset.byte.toNat + 1 := by omega
  have hnumber : n.toUInt16.toUInt32 = n := by
    apply UInt32.toNat.inj
    rw [UInt16.toNat_toUInt32, UInt32.toNat_toUInt16]
    exact Nat.mod_eq_of_lt hn
  rw [at?_of_cells? ht', at?_of_cells? ht, hcell, Option.map_map, Option.map_map]
  congr 1
  funext c
  simp only [Function.comp_apply, Place.Meets, Place.put, ha ▸ htable, ha, true_and, ↓reduceIte, hmeets,
    Value.scalar?, Option.getD_some]
  split_ifs
  · exact hnumber
  · rfl

theorem at?_write (h : m.write a v = .ok m') (p : Place) :
    m'.at? p = (m.at? p).map fun old => if p.Meets a then p.put old a v else old := by
  by_cases harea : p.area = a.area
  · obtain ⟨s, s', hs, hw, rfl⟩ | ⟨t, t', ht, hw, rfl⟩ := write_eq_ok.mp h
    · rw [← harea] at hs ⊢
      exact at?_setBytes hs harea hw
    · rw [← harea] at ht ⊢
      exact at?_setCells ht harea hw
  · have hmeets : ¬ p.Meets a := fun hmeets => harea hmeets.1.symm
    simp only [hmeets, ↓reduceIte, Option.map_id']
    obtain ⟨s, s', -, -, rfl⟩ | ⟨t, t', -, -, rfl⟩ := write_eq_ok.mp h
    · rw [at?, at?, bytes?_setBytes_of_ne m harea, cells?_setBytes]
    · rw [at?, at?, bytes?_setCells, cells?_setCells_of_ne m harea]

end Stores

/-- The memory after a request, whether it succeeded or failed. -/
def after (m : Memory) (op : MemoryOperation) : Memory := (m.perform op).2

def run (m : Memory) (ops : List MemoryOperation) : Memory := ops.foldl after m

def stored (m : Memory) : MemoryOperation → List (Access × Value)
  | .write a v =>
    match m.write a v with
    | .ok _ => [(a, v)]
    | .error _ => []
  | _ => []

/-- The stores that succeed among requests made one after another. -/
def stores (m : Memory) : List MemoryOperation → List (Access × Value)
  | [] => []
  | op :: ops => m.stored op ++ (m.after op).stores ops

theorem after_read (m : Memory) (a : Access) : m.after (.read a) = m := by
  rw [after, perform, perform?]
  cases m.read a <;> rfl

theorem after_checkBlock (m : Memory) (number : UInt16) (offset : BitAddress) (width : UInt32) :
    m.after (.checkBlock number offset width) = m := by
  rw [after, perform, perform?]
  cases m.checkBlock number offset width <;> rfl

theorem after_write_of_ok {a : Access} {v : Value} (h : m.write a v = .ok m') :
    m.after (.write a v) = m' := by
  rw [after, perform, perform?, h]
  rfl

theorem after_write_of_error {a : Access} {v : Value} {e : AccessError} (h : m.write a v = .error e) :
    m.after (.write a v) = m := by
  rw [after, perform, perform?, h]
  rfl

theorem run_concat (m : Memory) (ops : List MemoryOperation) (op : MemoryOperation) :
    m.run (ops ++ [op]) = (m.run ops).after op := by
  rw [run, List.foldl_append]
  rfl

theorem run_append (m : Memory) (ops ops' : List MemoryOperation) :
    m.run (ops ++ ops') = (m.run ops).run ops' := List.foldl_append

theorem stores_concat (m : Memory) (ops : List MemoryOperation) (op : MemoryOperation) :
    m.stores (ops ++ [op]) = m.stores ops ++ (m.run ops).stored op := by
  induction ops generalizing m with
  | nil => exact List.append_nil _
  | cons op' ops ih => rw [List.cons_append, stores, stores, ih, List.append_assoc]; rfl

end Memory

variable {specs : Specs} {ops before since : List MemoryOperation} {op : MemoryOperation} {p : Place}

theorem sizeAfter_concat (specs : Specs) (ops : List MemoryOperation) (op : MemoryOperation)
    (area : Area) : sizeAfter specs (ops ++ [op]) area = (op.size? area).or (sizeAfter specs ops area) := by
  rw [sizeAfter, List.foldl_append]
  rfl

namespace Place

theorem content_append (p : Place) (old : UInt32) (ss ss' : List (Access × Value)) :
    p.content old (ss ++ ss') = p.content (p.content old ss) ss' := by
  rw [content, content, content, List.filter_append, List.foldl_append]

theorem exists_concat_of_some {size : Nat} (h : op.size? p.area = some size) :
    p.Exists specs (ops ++ [op]) ↔ p.index.toNat < size := by
  rw [Exists, sizeAfter_concat, h]
  simp

theorem exists_concat_of_none (h : op.size? p.area = none) :
    p.Exists specs (ops ++ [op]) ↔ p.Exists specs ops := by
  rw [Exists, sizeAfter_concat, h]
  exact Iff.rfl

end Place

namespace Memory

theorem at?_after_of_none (m : Memory) (h : op.size? p.area = none) :
    (m.after op).at? p = (m.at? p).map fun old => p.content old (m.stored op) := by
  have hkeep : m.at? p = (m.at? p).map fun old => p.content old [] := Option.map_id'.symm
  cases op with
  | read a => rwa [after_read]
  | hasBlock number => exact hkeep
  | checkBlock number offset width => rwa [after_checkBlock]
  | write a v =>
    cases hw : m.write a v with
    | error e =>
      rw [after_write_of_error hw, stored, hw]
      exact hkeep
    | ok m' =>
      rw [after_write_of_ok hw, stored, hw, at?_write hw]
      congr 1
      funext old
      by_cases hmeets : p.Meets a
      · simp [Place.content, hmeets]
      · simp [Place.content, hmeets]
  | addBlock number size =>
    have harea : p.area ≠ .dataBlock number := by
      intro harea
      simp [MemoryOperation.size?, harea] at h
    change (m.addBlock number size).at? p = _
    rw [at?_addBlock, if_neg harea]
    exact hkeep
  | resize specs =>
    have hsize : specs.size? p.area = none := h
    change (m.resize specs).at? p = _
    rw [at?_resize, hsize]
    exact hkeep

/-- A request that gives the area a size decides which of its places exist. Only new dimensions leave
what a place held before. -/
theorem at?_after_of_some (m : Memory) {size : Nat} (h : op.size? p.area = some size) :
    (m.after op).at? p =
      if p.index.toNat < size then
        some (match op with
          | .resize _ => (m.at? p).getD 0
          | _ => 0)
      else none := by
  cases op with
  | read _ | write _ _ | hasBlock _ | checkBlock _ _ _ => cases h
  | addBlock number size' =>
    change (m.addBlock number size').at? p = _
    rw [at?_addBlock]
    simp only [MemoryOperation.size?] at h
    split_ifs at h with harea
    cases h
    rw [if_pos harea]
  | resize specs =>
    have hsize : specs.size? p.area = some size := h
    change (m.resize specs).at? p = _
    rw [at?_resize, hsize]

theorem isSome_at?_run : (((ofSpecs specs).run ops).at? p).isSome ↔ p.Exists specs ops := by
  induction ops using List.reverseRecOn with
  | nil =>
    change ((ofSpecs specs).at? p).isSome ↔ ∃ size, specs.size? p.area = some size ∧ _
    rw [at?_ofSpecs]
    cases specs.size? p.area with
    | none => simp
    | some size => by_cases hindex : p.index.toNat < size <;> simp [hindex]
  | append_singleton ops op ih =>
    rw [run_concat]
    cases hsize : op.size? p.area with
    | none => rw [at?_after_of_none _ hsize, Option.isSome_map, ih, Place.exists_concat_of_none hsize]
    | some size =>
      rw [at?_after_of_some _ hsize, Place.exists_concat_of_some hsize]
      split_ifs with hindex <;> simp [hindex]

theorem at?_of_comes (h : p.Comes specs ops) : ((ofSpecs specs).run ops).at? p = some 0 := by
  cases h with
  | start h =>
    obtain ⟨size, hsize, hindex⟩ : ∃ size, specs.size? p.area = some size ∧ p.index.toNat < size := h
    change (ofSpecs specs).at? p = some 0
    rw [at?_ofSpecs, hsize, Option.bind_some, if_pos hindex]
  | @grow ops op hbefore hafter =>
    have hnone : ((ofSpecs specs).run ops).at? p = none := by
      rw [← Option.not_isSome_iff_eq_none, isSome_at?_run]
      exact hbefore
    cases hsize : op.size? p.area with
    | none => exact absurd ((Place.exists_concat_of_none hsize).mp hafter) hbefore
    | some size =>
      have hindex := (Place.exists_concat_of_some hsize).mp hafter
      rw [run_concat, at?_after_of_some _ hsize, if_pos hindex, hnone]
      cases op <;> rfl
  | @replace ops number size harea hindex =>
    have hsize : (MemoryOperation.addBlock number size).size? p.area = some size := if_pos harea
    rw [run_concat, at?_after_of_some _ hsize, if_pos hindex]

theorem at?_of_not_comes (hexists : p.Exists specs (ops ++ [op])) (hcomes : ¬ p.Comes specs (ops ++ [op])) :
    p.Exists specs ops ∧ ((ofSpecs specs).run (ops ++ [op])).at? p =
      (((ofSpecs specs).run ops).at? p).map fun old =>
        p.content old (((ofSpecs specs).run ops).stored op) := by
  have hbefore : p.Exists specs ops := by
    by_contra hbefore
    exact hcomes (.grow hbefore hexists)
  refine ⟨hbefore, ?_⟩
  rw [run_concat]
  cases hsize : op.size? p.area with
  | none => exact at?_after_of_none _ hsize
  | some size =>
    have hindex := (Place.exists_concat_of_some hsize).mp hexists
    obtain ⟨n, hn⟩ := Option.isSome_iff_exists.mp (isSome_at?_run.mpr hbefore)
    rw [at?_after_of_some _ hsize, if_pos hindex, hn]
    cases op with
    | read _ | write _ _ | hasBlock _ | checkBlock _ _ _ => cases hsize
    | resize specs' => rfl
    | addBlock number size' =>
      simp only [MemoryOperation.size?] at hsize
      split_ifs at hsize with harea
      cases hsize
      exact absurd (.replace harea hindex) hcomes

/-- Since a place last came into existence it holds what the stores that succeeded left there. -/
theorem at?_of_lastComes (h : p.LastComes specs before since) (hexists : p.Exists specs (before ++ since)) :
    ((ofSpecs specs).run (before ++ since)).at? p =
      some (p.content 0 (((ofSpecs specs).run before).stores since)) := by
  induction since using List.reverseRecOn with
  | nil =>
    rw [List.append_nil]
    exact at?_of_comes h.comes
  | append_singleton since op ih =>
    -- The last request does not bring the place into existence, so it was there before.
    have hlast := h.last (since ++ [op]) List.prefix_rfl (List.concat_ne_nil _ _)
    rw [← List.append_assoc] at hexists hlast ⊢
    obtain ⟨hbefore, hafter⟩ := at?_of_not_comes hexists hlast
    have hsince := ih ⟨h.comes, fun ops hops => h.last ops (hops.trans (List.prefix_append _ _))⟩ hbefore
    rw [hafter, hsince, stores_concat, Place.content_append, ← run_append]
    rfl

end Memory

namespace Place

theorem exists_lastComes (h : p.Exists specs ops) :
    ∃ before since, ops = before ++ since ∧ p.LastComes specs before since := by
  induction ops using List.reverseRecOn with
  | nil => 
    refine ⟨[], [], rfl, .start h, ?_⟩
    intro ops hops hne
    exact absurd (List.prefix_nil.mp hops) hne
  | append_singleton ops op ih =>
    by_cases hcomes : p.Comes specs (ops ++ [op])
    · refine ⟨ops ++ [op], [], (List.append_nil _).symm, hcomes, ?_⟩
      intro ops hops hne
      exact absurd (List.prefix_nil.mp hops) hne
    · obtain ⟨hbefore, -⟩ := Memory.at?_of_not_comes h hcomes
      obtain ⟨before, since, rfl, hcomes', hlast⟩ := ih hbefore
      refine ⟨before, since ++ [op], List.append_assoc _ _ _, hcomes', ?_⟩
      intro ops hops hne
      rcases List.prefix_concat_iff.mp hops with rfl | hops
      · rwa [← List.append_assoc]
      · exact hlast ops hops hne

end Place

namespace Memory

theorem exists_read_access {m : Memory} : (∃ v, m.read p.access = .ok v) ↔ (m.at? p).isSome := by
  simp only [read_access, Option.isSome_iff_exists]
  constructor
  · rintro ⟨v, n, hn, -⟩
    exact ⟨n, hn⟩
  · rintro ⟨n, hn⟩
    exact ⟨.scalar n, n, hn, rfl⟩

theorem read_access_run {v : Value} : ((ofSpecs specs).run ops).read p.access = .ok v ↔
    ∃ before since, ops = before ++ since ∧ p.Exists specs ops ∧ p.LastComes specs before since ∧
      v = .scalar (p.content 0 (((ofSpecs specs).run before).stores since)) := by
  rw [read_access]
  constructor
  · rintro ⟨n, hn, rfl⟩
    have hexists : p.Exists specs ops := isSome_at?_run.mp (Option.isSome_of_eq_some hn)
    obtain ⟨before, since, rfl, hlast⟩ := Place.exists_lastComes hexists
    have hcontent := at?_of_lastComes hlast hexists
    refine ⟨before, since, rfl, hexists, hlast, ?_⟩
    rw [Option.some.inj (hn.symm.trans hcontent)]
  · rintro ⟨before, since, rfl, hexists, hlast, rfl⟩
    exact ⟨_, at?_of_lastComes hlast hexists, rfl⟩

theorem read_access_regrown {m : Memory} {small large : Specs} {size size' : Nat}
    (hsmall : small.size? p.area = some size) (hle : size ≤ p.index.toNat)
    (hlarge : large.size? p.area = some size') (hlt : p.index.toNat < size') :
    ((m.resize small).resize large).read p.access = .ok (.scalar 0) := by
  refine read_access.mpr ⟨0, ?_, rfl⟩
  rw [at?_resize, hlarge, at?_resize, hsmall]
  dsimp only
  rw [if_pos hlt, if_neg (Nat.not_lt.mpr hle)]
  rfl

theorem read_access_resize {m : Memory} {number : UInt16} {specs : Specs} {v : Value}
    (harea : p.area = .dataBlock number) :
    (m.resize specs).read p.access = .ok v ↔ m.read p.access = .ok v := by
  have hkept : specs.size? p.area = none := by
    rw [harea]
    rfl
  rw [read_access, read_access, at?_resize, hkept]

theorem read_access_of_write {m m' : Memory} {a : Access} {u v : Value} (hw : m.write a v = .ok m')
    (harea : a.area ≠ p.area) : m'.read p.access = .ok u ↔ m.read p.access = .ok u := by
  have hmeets : ¬ p.Meets a := fun hmeets => harea hmeets.1
  rw [read_access, read_access, at?_write hw]
  simp only [hmeets, ↓reduceIte, Option.map_id']

end Memory

end PlcMachine
