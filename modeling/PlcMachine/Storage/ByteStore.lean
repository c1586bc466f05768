import PlcMachine.Address.Access
import PlcMachine.Storage.Value

/-! # Byte stores

A block of bytes that accesses read and write. Every access is checked first, so a read or write
that succeeds stays within the store, and a write keeps the size.
-/

namespace PlcMachine

def setBit (b : UInt8) (i : UInt8) (on : Bool) : UInt8 :=
  if on then b ||| (1 <<< i) else b &&& ~~~(1 <<< i)

/-- Bytes with their number. They come into being when they are first looked at. -/
structure ByteStore where
  size : Nat
  content : Thunk (Array UInt8)
  size_content : content.get.size = size

namespace ByteStore

def data (s : ByteStore) : Array UInt8 := s.content.get

def ofData (data : Array UInt8) : ByteStore := ⟨data.size, .pure data, rfl⟩

def zeroed (n : Nat) : ByteStore where
  size := n
  content := .mk fun _ => .replicate n 0
  size_content := by exact Array.size_replicate

def resize (s : ByteStore) (n : Nat) : ByteStore :=
  if n = s.size then s else .ofData (s.data.extract 0 n ++ Array.replicate (n - s.size) 0)

def slice (s : ByteStore) (start count : Nat) : List UInt8 :=
  (s.data.extract start (start + count)).toList

def overwrite (data : Array UInt8) (start : Nat) : List UInt8 → Array UInt8
  | [] => data
  | b :: bs => overwrite (data.setIfInBounds start b) (start + 1) bs

/-- The bit at an address, and zero outside the store. -/
def bit (s : ByteStore) (a : BitAddress) : Bool :=
  (s.data.getD a.byte.toNat 0).toNat.testBit a.bit.toNat

/-- Reads one bit as 0 or 1, or the bytes of a wider access as `Value.ofBytes` takes them. -/
def read (s : ByteStore) (a : Access) : Except AccessError Value := do
  a.check s.size
  if a.width = 1 then return .scalar (if s.bit a.offset then 1 else 0)
  else return .ofBytes (s.slice a.offset.byte.toNat a.byteLength)

def write (s : ByteStore) (a : Access) (v : Value) : Except AccessError ByteStore := do
  a.check s.size
  if ¬ v.Fits a.width then throw (.valueMismatch a.width)
  let start := a.offset.byte.toNat
  if a.width = 1 then
    return .ofData (s.data.modify start (setBit · a.offset.bit (v ≠ .scalar 0)))
  else
    return .ofData (overwrite s.data start (v.toBytes a.byteLength))

@[simp]
theorem size_data (s : ByteStore) : s.data.size = s.size := s.size_content

@[simp]
theorem data_ofData (data : Array UInt8) : (ofData data).data = data := rfl

@[simp]
theorem size_ofData (data : Array UInt8) : (ofData data).size = data.size := rfl

@[simp]
theorem size_zeroed (n : Nat) : (zeroed n).size = n := rfl

theorem ext_data {s t : ByteStore} (h : s.data = t.data) : s = t := by
  obtain ⟨_, c, rfl⟩ := s
  obtain ⟨_, d, rfl⟩ := t
  obtain rfl : c = d := Thunk.ext h
  rfl

@[simp]
theorem ofData_data (s : ByteStore) : ofData s.data = s := ext_data rfl

instance : DecidableEq ByteStore := fun _ _ => decidable_of_iff _ ⟨ext_data, congrArg data⟩

instance : Repr ByteStore := ⟨fun s => reprPrec s.data⟩

theorem data_resize (s : ByteStore) (n : Nat) :
    (s.resize n).data = s.data.extract 0 n ++ Array.replicate (n - s.size) 0 := by
  unfold resize
  split
  · next h => simp [h, ← size_data]
  · rfl

@[simp]
theorem size_resize (s : ByteStore) (n : Nat) : (s.resize n).size = n := by
  rw [← size_data, data_resize, Array.size_append, Array.size_extract, Array.size_replicate, size_data]
  omega

@[simp]
theorem size_overwrite (data : Array UInt8) (start : Nat) (bytes : List UInt8) :
    (overwrite data start bytes).size = data.size := by
  induction bytes generalizing data start with
  | nil => rfl
  | cons b bs ih => simp [overwrite, ih]

theorem getElem?_overwrite (data : Array UInt8) (start : Nat) (bytes : List UInt8) (i : Nat)
    (hi : i < data.size) :
    (overwrite data start bytes)[i]? =
      if start ≤ i ∧ i < start + bytes.length then bytes[i - start]? else data[i]? := by
  induction bytes generalizing data start with
  | nil => rw [overwrite, if_neg (by simp only [List.length_nil]; omega)]
  | cons b bs ih =>
    rw [overwrite, ih _ _ (by simpa using hi), Array.getElem?_setIfInBounds]
    by_cases h : start = i
    · subst h
      simp only [hi, ↓reduceIte, List.length_cons]
      rw [if_neg (by omega), if_pos (by omega)]
      simp
    · have hs : start ≤ i ↔ start + 1 ≤ i := by omega
      have hl : start + 1 + bs.length = start + (bs.length + 1) := by omega
      simp only [List.length_cons, hs, hl, h, ↓reduceIte]
      split
      · next hc => rw [show i - start = i - (start + 1) + 1 by omega, List.getElem?_cons_succ]
      · rfl

theorem size_write {s s' : ByteStore} {a : Access} {v : Value} (h : s.write a v = .ok s') :
    s'.size = s.size := by
  simp only [write, bind, Except.bind, pure, Except.pure] at h
  split at h
  · cases h
  · split at h
    · cases h
    · split at h <;> cases h <;> simp

end ByteStore

end PlcMachine
