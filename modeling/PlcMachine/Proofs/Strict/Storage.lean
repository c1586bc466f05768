import PlcMachine.Proofs.Storage.Memory
import PlcMachine.Proofs.Strict.Step

/-! # Storage step by step

Reading and writing in the steps that they consist of: slices, indices, shifts and copies. All of them are
guarded by the check that every access starts with, so no access gets stuck.
-/

namespace PlcMachine

open Strict

namespace Access

/-- The check of an access, which gives the number of bytes that it covers. -/
def checkStrict (a : Access) (size : Nat) : Strict AccessError Nat := do
  total a.checkShape
  let stop ← step (sum? UInt64.size a.offset.byte.toNat a.byteLength)
  if size < stop then throw (.outOfRange a size)
  return a.byteLength

theorem checkStrict_eq (a : Access) (size : Nat) :
    a.checkStrict size = total (do a.check size; return a.byteLength) := by
  have hend : a.offset.byte.toNat + a.byteLength < UInt64.size := by
    have hbyte := a.offset.byte.toNat_lt
    have hwidth := a.width.toNat_lt
    unfold byteLength UInt64.size
    split_ifs <;> omega
  unfold checkStrict check
  rw [sum?_eq hend]
  cases a.checkShape with
  | error e => rfl
  | ok =>
    by_cases h : size < a.byteEnd
    · have h' : size < a.offset.byte.toNat + a.byteLength := h
      simp only [h, h', step_some, total_ok_bind, ↓reduceIte]
      rfl
    · have h' : ¬ size < a.offset.byte.toNat + a.byteLength := h
      simp only [h, h', step_some, total_ok_bind, ↓reduceIte]
      rfl

theorem checkStrict_of_within {a : Access} {size : Nat} (h : a.Within size) :
    a.checkStrict size = total (.ok a.byteLength) := by
  rw [checkStrict_eq, check_eq_ok.mpr h]
  rfl

theorem checkStrict_of_error {a : Access} {size : Nat} {e : AccessError} (h : a.check size = .error e) :
    a.checkStrict size = total (.error e) := by
  rw [checkStrict_eq, h]
  rfl

end Access

namespace ByteStore

def slice? (s : ByteStore) (start count : Nat) : Option (List UInt8) :=
  if start + count ≤ s.size then some (s.slice start count) else none

def loaded? (bytes : List UInt8) (a : Access) : Option Value :=
  if a.width = 1 then do
    let bits ← shiftRight? (← bytes[0]?) a.offset.bit
    return .scalar (bits &&& 1).toUInt32
  else if a.width = 8 then do
    return .scalar (← bytes[0]?).toUInt32
  else if a.width = 16 then do
    return .scalar (.ofNat (BigEndian.decode [← bytes[0]?, ← bytes[1]?]))
  else if a.width = 32 then do
    return .scalar (.ofNat (BigEndian.decode [← bytes[0]?, ← bytes[1]?, ← bytes[2]?, ← bytes[3]?]))
  else some (.bytes bytes)

def stored? (bytes : List UInt8) (a : Access) : Value → Option (List UInt8)
  | .bytes bs => replace? bytes bs
  | .scalar n =>
    if a.width = 1 then do
      let mask ← shiftLeft? 1 a.offset.bit
      let b ← bytes[0]?
      return bytes.set 0 (if n ≠ 0 then b ||| mask else b &&& ~~~mask)
    else if a.width = 8 then do
      let _ ← bytes[0]?
      return bytes.set 0 n.toUInt8
    else if a.width = 16 then replace? bytes (BigEndian.encode 2 n.toNat)
    else replace? bytes (BigEndian.encode 4 n.toNat)

def readStrict (s : ByteStore) (a : Access) : Strict AccessError Value := do
  let count ← a.checkStrict s.size
  let bytes ← step (s.slice? a.offset.byte.toNat count)
  step (loaded? bytes a)

def writeStrict (s : ByteStore) (a : Access) (v : Value) : Strict AccessError ByteStore := do
  let count ← a.checkStrict s.size
  if ¬ v.Fits a.width then throw (.valueMismatch a.width)
  let bytes ← step (s.slice? a.offset.byte.toNat count)
  let bytes ← step (stored? bytes a v)
  return .ofData (overwrite s.data a.offset.byte.toNat bytes)

theorem slice?_eq {s : ByteStore} {a : Access} (ha : a.Within s.size) :
    s.slice? a.offset.byte.toNat a.byteLength = some (s.slice a.offset.byte.toNat a.byteLength) :=
  if_pos ha.fits

theorem slice_eq_map {s : ByteStore} {start count : Nat} (h : start + count ≤ s.size) :
    s.slice start count = (List.range count).map fun k => s.data.getD (start + k) 0 := by
  apply List.ext_getElem?
  intro k
  rw [getElem?_slice s _ _ _ h]
  split_ifs with hk
  · simp [hk]
  · simp [hk]

theorem shiftRight_and_one {b i : UInt8} (hi : i ≤ 7) :
    ((b >>> i) &&& 1).toUInt32 = if b.toNat.testBit i.toNat then 1 else 0 := by
  have hi' : i.toNat < 8 := Nat.lt_succ_of_le hi
  apply UInt32.toNat.inj
  rw [UInt8.toNat_toUInt32, UInt8.toNat_and, UInt8.toNat_shiftRight, Nat.mod_eq_of_lt hi', UInt8.toNat_one,
    Nat.and_one_is_mod, Nat.shiftRight_eq_div_pow, ← Nat.toNat_testBit]
  cases b.toNat.testBit i.toNat <;> rfl

theorem ofBytes_eq_bytes {bs : List UInt8} {w : UInt32} (h : 8 * bs.length = w.toNat) (h₈ : w ≠ 8)
    (h₁₆ : w ≠ 16) (h₃₂ : w ≠ 32) : Value.ofBytes bs = .bytes bs := by
  have hw : w = .ofNat (8 * bs.length) := by
    rw [h]
    simp
  refine if_neg ?_
  simp only [List.mem_cons, List.not_mem_nil, or_false]
  rintro (hl | hl | hl)
  · exact h₈ (by rw [hw, hl]; rfl)
  · exact h₁₆ (by rw [hw, hl]; rfl)
  · exact h₃₂ (by rw [hw, hl]; rfl)

theorem byteLength_of_width {a : Access} {w : UInt32} (h : a.width = w) (hw : w ≠ 1) :
    a.byteLength = w.toNat / 8 := by
  rw [Access.byteLength, h, if_neg hw]

theorem loaded?_eq {s : ByteStore} {a : Access} (ha : a.Within s.size) :
    loaded? (s.slice a.offset.byte.toNat a.byteLength) a = some (s.contents a) := by
  have hslice := slice_eq_map ha.fits
  unfold loaded? contents
  by_cases h₁ : a.width = 1
  · have hbit : a.offset.bit ≤ 7 := ha.aligned.1
    have hcount : a.byteLength = 1 := if_pos h₁
    have hshift : shiftRight? (s.data.getD a.offset.byte.toNat 0) a.offset.bit =
        some (s.data.getD a.offset.byte.toNat 0 >>> a.offset.bit) := if_pos (Nat.lt_succ_of_le hbit)
    rw [hslice, hcount, if_pos h₁, if_pos h₁, bit, ← shiftRight_and_one hbit]
    change (do
      let bits ← shiftRight? (s.data.getD a.offset.byte.toNat 0) a.offset.bit
      return Value.scalar (bits &&& 1).toUInt32) = _
    rw [hshift]
    rfl
  rw [if_neg h₁, if_neg h₁]
  by_cases h₈ : a.width = 8
  · rw [if_pos h₈, hslice, byteLength_of_width h₈ (by decide)]
    exact congrArg some (Value.ofBytes_singleton _).symm
  rw [if_neg h₈]
  by_cases h₁₆ : a.width = 16
  · rw [if_pos h₁₆, hslice, byteLength_of_width h₁₆ (by decide)]
    rfl
  rw [if_neg h₁₆]
  by_cases h₃₂ : a.width = 32
  · rw [if_pos h₃₂, hslice, byteLength_of_width h₃₂ (by decide)]
    rfl
  rw [if_neg h₃₂, ofBytes_eq_bytes _ h₈ h₁₆ h₃₂]
  rw [length_slice s _ _ ha.fits]
  exact (ha.index_eq h₁).2.symm

theorem readStrict_eq (s : ByteStore) (a : Access) : s.readStrict a = total (s.read a) := by
  unfold readStrict
  cases hcheck : a.check s.size with
  | error e =>
    rw [Access.checkStrict_of_error hcheck, read, hcheck]
    rfl
  | ok =>
    have ha := Access.check_eq_ok.mp hcheck
    rw [Access.checkStrict_of_within ha, total_ok_bind, step_bind (slice?_eq ha), loaded?_eq ha,
      read_eq_ok.mpr ⟨ha, rfl⟩]
    rfl

theorem overwrite_singleton (data : Array UInt8) (i : Nat) (f : UInt8 → UInt8) :
    overwrite data i [f (data.getD i 0)] = data.modify i f := by
  apply Array.ext_getElem?
  intro k
  rw [overwrite, overwrite, Array.getElem?_setIfInBounds, Array.getElem?_modify]
  split_ifs with hk hsize
  · subst hk
    simp [hsize]
  · subst hk
    simp [hsize]
  · rfl

theorem replace?_eq {α : Type} {old new : List α} (h : old.length = new.length) :
    replace? old new = some new := if_pos h

theorem width_ne_one_of_bytes {bs : List UInt8} {w : UInt32} (h : (Value.bytes bs).Fits w) : w ≠ 1 := by
  rintro rfl
  have hlength : 8 * bs.length = 1 := h
  omega

theorem stored?_of_width_one {s : ByteStore} {a : Access} {v : Value} (ha : a.Within s.size)
    (hv : v.Fits a.width) (h₁ : a.width = 1) : stored? (s.slice a.offset.byte.toNat a.byteLength) a v =
      some [setBit (s.data.getD a.offset.byte.toNat 0) a.offset.bit (v ≠ .scalar 0)] := by
  have hbit : a.offset.bit ≤ 7 := ha.aligned.1
  have hcount : a.byteLength = 1 := if_pos h₁
  cases v with
  | bytes bs => exact absurd h₁ (width_ne_one_of_bytes hv)
  | scalar n =>
    have hshift : shiftLeft? 1 a.offset.bit = some (1 <<< a.offset.bit) :=
      if_pos (Nat.lt_succ_of_le hbit)
    rw [slice_eq_map ha.fits, hcount, stored?, if_pos h₁, hshift]
    simp [setBit]

theorem stored?_of_width_ne_one {s : ByteStore} {a : Access} {v : Value} (ha : a.Within s.size)
    (hv : v.Fits a.width) (h₁ : a.width ≠ 1) :
    stored? (s.slice a.offset.byte.toNat a.byteLength) a v = some (v.toBytes a.byteLength) := by
  have hlength := length_slice s _ _ ha.fits
  cases v with
  | bytes bs => exact replace?_eq (hlength.trans (length_toBytes ha hv h₁).symm)
  | scalar n =>
    rw [stored?, if_neg h₁]
    obtain ⟨hw, -⟩ | ⟨hw, -⟩ | ⟨hw, -⟩ | hw := Value.scalar_fits_cases hv
    · exact absurd hw h₁
    · rw [if_pos hw, slice_eq_map ha.fits, byteLength_of_width hw (by decide)]
      simp [Value.toBytes, BigEndian.encode]
    · have hcount : a.byteLength = 2 := byteLength_of_width hw (by decide)
      rw [hcount] at hlength
      rw [if_neg (by rw [hw]; decide), if_pos hw, hcount]
      exact replace?_eq (hlength.trans (BigEndian.length_encode _ _).symm)
    · have hcount : a.byteLength = 4 := byteLength_of_width hw (by decide)
      rw [hcount] at hlength
      rw [if_neg (by rw [hw]; decide), if_neg (by rw [hw]; decide), hcount]
      exact replace?_eq (hlength.trans (BigEndian.length_encode _ _).symm)

theorem stored?_eq {s : ByteStore} {a : Access} {v : Value} (ha : a.Within s.size) (hv : v.Fits a.width) :
    ∃ bytes, stored? (s.slice a.offset.byte.toNat a.byteLength) a v = some bytes ∧
      .ofData (overwrite s.data a.offset.byte.toNat bytes) = s.written a v := by
  by_cases h₁ : a.width = 1
  · refine ⟨_, stored?_of_width_one ha hv h₁, ?_⟩
    rw [overwrite_singleton _ _ (setBit · a.offset.bit (v ≠ .scalar 0)), written, if_pos h₁]
  · refine ⟨_, stored?_of_width_ne_one ha hv h₁, ?_⟩
    rw [written, if_neg h₁]

theorem writeStrict_eq (s : ByteStore) (a : Access) (v : Value) :
    s.writeStrict a v = total (s.write a v) := by
  unfold writeStrict
  cases hcheck : a.check s.size with
  | error e =>
    rw [Access.checkStrict_of_error hcheck, write, hcheck]
    rfl
  | ok =>
    have ha := Access.check_eq_ok.mp hcheck
    rw [Access.checkStrict_of_within ha, total_ok_bind]
    by_cases hv : v.Fits a.width
    · obtain ⟨bytes, hstored, hdata⟩ := stored?_eq ha hv
      rw [if_neg (not_not_intro hv), step_bind (slice?_eq ha), step_bind hstored, hdata,
        write_of_within ha hv]
      rfl
    · rw [if_pos hv, write, hcheck]
      simp only [hv, not_false_eq_true, ↓reduceIte]
      rfl

end ByteStore

namespace CellTable

def readStrict (t : CellTable) (a : Access) : Strict AccessError Value := do
  total (t.check a)
  let cell ← step t.cells[a.offset.byte.toNat]?
  return .scalar cell.toUInt32

def writeStrict (t : CellTable) (a : Access) (v : Value) : Strict AccessError CellTable := do
  total (t.check a)
  match v with
  | .scalar n =>
    if n.toNat < UInt16.size then do
      let cells ← step (set? t.cells a.offset.byte.toNat n.toUInt16)
      return ⟨cells⟩
    else throw (.valueMismatch a.width)
  | .bytes _ => throw (.valueMismatch a.width)

theorem readStrict_eq (t : CellTable) (a : Access) : t.readStrict a = total (t.read a) := by
  refine bind_total rfl ?_
  rintro ⟨⟩ hcheck
  have hindex : a.offset.byte.toNat < t.cells.size := (check_eq_ok.mp hcheck).2.2
  rw [step_bind (Array.getElem?_eq_getElem hindex)]
  simp [hindex]
  rfl

theorem writeStrict_eq (t : CellTable) (a : Access) (v : Value) :
    t.writeStrict a v = total (t.write a v) := by
  refine bind_total rfl ?_
  rintro ⟨⟩ hcheck
  have hindex : a.offset.byte.toNat < t.cells.size := (check_eq_ok.mp hcheck).2.2
  cases v with
  | bytes bs => rfl
  | scalar n =>
    dsimp only
    split_ifs
    · exact step_bind (if_pos hindex) _
    · rfl

end CellTable

namespace Memory

def readStrict (m : Memory) (a : Access) : Strict AccessError Value :=
  match a.area with
  | .input => m.inputs.readStrict a
  | .output => m.outputs.readStrict a
  | .flag => m.flags.readStrict a
  | .peripheralIn => m.peripheralIn.readStrict a
  | .peripheralOut => m.peripheralOut.readStrict a
  | .timer => m.timers.readStrict a
  | .counter => m.counters.readStrict a
  | .dataBlock number => do (← total (m.block number)).bytes.readStrict a
  | .localData | .outerData | .instanceData => throw .noActiveFrame

def writeStrict (m : Memory) (a : Access) (v : Value) : Strict AccessError Memory :=
  match a.area with
  | .input => do return { m with inputs := ← m.inputs.writeStrict a v }
  | .output => do return { m with outputs := ← m.outputs.writeStrict a v }
  | .flag => do return { m with flags := ← m.flags.writeStrict a v }
  | .peripheralIn => do return { m with peripheralIn := ← m.peripheralIn.writeStrict a v }
  | .peripheralOut => do return { m with peripheralOut := ← m.peripheralOut.writeStrict a v }
  | .timer => do return { m with timers := ← m.timers.writeStrict a v }
  | .counter => do return { m with counters := ← m.counters.writeStrict a v }
  | .dataBlock number => do
    let b ← total (m.block number)
    return m.setBlock ⟨number, ← b.bytes.writeStrict a v⟩
  | .localData | .outerData | .instanceData => throw .noActiveFrame

def checkBlockStrict (m : Memory) (number : UInt16) (offset : BitAddress) (width : UInt32) :
    Strict AccessError Unit := do
  let b ← total (m.block number)
  let _ ← Access.checkStrict ⟨.dataBlock number, offset, width⟩ b.bytes.size

def performStrict? (m : Memory) : MemoryOperation → Strict AccessError (MemoryReply × Memory)
  | .read a => do return (.value (← m.readStrict a), m)
  | .write a v => do return (.done, ← m.writeStrict a v)
  | .checkBlock number offset width => do
    m.checkBlockStrict number offset width
    return (.done, m)
  | op => total (m.perform? op)

theorem readStrict_eq (m : Memory) (a : Access) : m.readStrict a = total (m.read a) := by
  obtain ⟨area, offset, width⟩ := a
  cases area with
  | input | output | flag | peripheralIn | peripheralOut => exact ByteStore.readStrict_eq _ _
  | timer | counter => exact CellTable.readStrict_eq _ _
  | dataBlock number => exact bind_total rfl fun b _ => b.bytes.readStrict_eq _
  | localData | outerData | instanceData => rfl

theorem writeStrict_eq (m : Memory) (a : Access) (v : Value) : m.writeStrict a v = total (m.write a v) := by
  obtain ⟨area, offset, width⟩ := a
  cases area with
  | input | output | flag | peripheralIn | peripheralOut =>
    exact bind_total (ByteStore.writeStrict_eq _ _ _) fun _ _ => rfl
  | timer | counter => exact bind_total (CellTable.writeStrict_eq _ _ _) fun _ _ => rfl
  | dataBlock number =>
    refine bind_total rfl fun b _ => ?_
    exact bind_total (b.bytes.writeStrict_eq _ _) fun _ _ => rfl
  | localData | outerData | instanceData => rfl

theorem checkBlockStrict_eq (m : Memory) (number : UInt16) (offset : BitAddress) (width : UInt32) :
    m.checkBlockStrict number offset width = total (m.checkBlock number offset width) := by
  refine bind_total rfl fun b _ => ?_
  rw [Access.checkStrict_eq]
  cases Access.check ⟨.dataBlock number, offset, width⟩ b.bytes.size <;> rfl

theorem performStrict?_eq (m : Memory) (op : MemoryOperation) :
    m.performStrict? op = total (m.perform? op) := by
  cases op with
  | read a => exact bind_total (m.readStrict_eq a) fun _ _ => rfl
  | write a v => exact bind_total (m.writeStrict_eq a v) fun _ _ => rfl
  | checkBlock number offset width =>
    exact bind_total (m.checkBlockStrict_eq number offset width) fun _ _ => rfl
  | addBlock _ _ | hasBlock _ | resize _ => rfl

end Memory

end PlcMachine
