import PlcMachine.LocalStack.Basic
import PlcMachine.Proofs.LocalStack.Ledger
import PlcMachine.Proofs.Strict.Storage

/-! # Allocation step by step

Local data is handed out by sums, and each of them has to fit its type. A position is raised to an
alignment by way of a sum that exceeds both, so that the last positions that 32 bits can count are out of
reach.
-/

namespace PlcMachine

open Strict

namespace BitAddress

/-- The sum of two addresses, with all bit counts taken as numbers of 64 bits. -/
def add? (a b : BitAddress) : Option BitAddress := do
  let i ← sum? UInt64.size (8 * a.byte.toNat) a.bit.toNat
  let j ← sum? UInt64.size (8 * b.byte.toNat) b.bit.toNat
  return ofIndex (← sum? UInt64.size i j)

theorem index_lt (a : BitAddress) : 8 * a.byte.toNat + a.bit.toNat < 9 * UInt32.size := by
  have hbyte := a.byte.toNat_lt
  have hbit := a.bit.toNat_lt
  unfold UInt32.size
  omega

theorem add?_eq (a b : BitAddress) : a.add? b = some (a + b) := by
  have hsize : 9 * UInt32.size + 9 * UInt32.size < UInt64.size := by decide
  have ha := a.index_lt
  have hb := b.index_lt
  have hi : sum? UInt64.size (8 * a.byte.toNat) a.bit.toNat = some a.index :=
    sum?_eq (Nat.lt_trans ha (by omega))
  have hj : sum? UInt64.size (8 * b.byte.toNat) b.bit.toNat = some b.index :=
    sum?_eq (Nat.lt_trans hb (by omega))
  have hsum : sum? UInt64.size a.index b.index = some (a.index + b.index) := by
    refine sum?_eq ?_
    unfold index
    omega
  unfold add?
  rw [hi, some_bind, hj, some_bind, hsum, some_bind]
  rfl

end BitAddress

namespace Cursor

def takeBytesStrict (c : Cursor) (capacity : Nat) (width : UInt32) (count alignment : Nat) :
    Strict LocalStackError (BitAddress × Cursor) := do
  let raised ← step (sum? UInt32.size c.next alignment)
  let start := (raised - 1) / alignment * alignment
  match sum? UInt32.size start count with
  | some stop =>
    if capacity < stop then throw (.exhausted width c.next capacity)
    return (.ofByte (.ofNat start), { c with next := stop })
  | none => throw (.exhausted width c.next capacity)

def sharedBitStrict (c : Cursor) : Strict LocalStackError (Option BitAddress) :=
  match c.bit with
  | some a =>
    if a.bit < 7 then do
      let bit ← step (sum? UInt8.size a.bit.toNat 1)
      return some ⟨a.byte, .ofNat bit⟩
    else return none
  | none => return none

def takeBitStrict (c : Cursor) (capacity : Nat) : Strict LocalStackError (BitAddress × Cursor) := do
  match ← c.sharedBitStrict with
  | some a => return (a, { c with bit := some a })
  | none =>
    let (a, c) ← c.takeBytesStrict capacity 1 1 1
    return (a, { c with bit := some a })

def allocateStrict (c : Cursor) (capacity : Nat) (width : UInt32) :
    Strict LocalStackError (BitAddress × Cursor) :=
  if width = 1 then c.takeBitStrict capacity
  else do
    let bits ← step (sum? UInt32.size width.toNat 7)
    c.takeBytesStrict capacity width (bits / 8) (if 8 < width then 2 else 1)

theorem sharedBitStrict_eq (c : Cursor) : c.sharedBitStrict = total (.ok c.sharedBit?) := by
  unfold sharedBitStrict sharedBit?
  cases c.bit with
  | none => rfl
  | some a =>
    dsimp only
    split_ifs with hlt
    · have hlt' : a.bit.toNat < 7 := hlt
      have hbit : UInt8.ofNat (a.bit.toNat + 1) = a.bit + 1 := by
        rw [UInt8.ofNat_add, UInt8.ofNat_toNat]
        rfl
      rw [step_bind (sum?_eq (show a.bit.toNat + 1 < UInt8.size by unfold UInt8.size; omega)), hbit]
      rfl
    · rfl

variable {c : Cursor} {capacity : Nat}

theorem takeBytesStrict_eq (hcapacity : capacity < UInt32.size) (width : UInt32) (count alignment : Nat) :
    c.takeBytesStrict capacity width count alignment =
      upTo LocalStackError.isOverflow (c.takeBytes capacity width count alignment) := by
  unfold takeBytesStrict takeBytes
  dsimp only
  by_cases hover : UInt32.size ≤ c.next + alignment
  · have hsum : sum? UInt32.size c.next alignment = none := if_neg (Nat.not_lt.mpr hover)
    rw [hsum, if_pos hover]
    rfl
  rw [step_bind (sum?_eq (Nat.lt_of_not_le hover)), if_neg hover]
  change (match sum? UInt32.size (c.aligned alignment) count with | some stop => _ | none => _) = _
  by_cases hfit : c.aligned alignment + count ≤ capacity
  · rw [sum?_eq (Nat.lt_of_le_of_lt hfit hcapacity), if_pos hfit]
    dsimp only
    rw [if_neg (Nat.not_lt.mpr hfit)]
    rfl
  · rw [if_neg hfit]
    unfold sum?
    split_ifs
    · dsimp only
      rw [if_pos (Nat.lt_of_not_le hfit)]
      rfl
    · rfl

/-- Handing out room gets stuck exactly where the program stops. -/
theorem allocateStrict_eq (hcapacity : capacity < UInt32.size) (width : UInt32) :
    c.allocateStrict capacity width = upTo LocalStackError.isOverflow (c.allocate capacity width) := by
  unfold allocateStrict allocate
  by_cases hbit : width = 1
  · rw [if_pos hbit, if_pos hbit]
    unfold takeBitStrict takeBit
    rw [sharedBitStrict_eq, total_ok_bind]
    cases c.sharedBit? with
    | some a => rfl
    | none => exact bind_upTo (takeBytesStrict_eq hcapacity _ _ _) fun _ _ => rfl
  rw [if_neg hbit, if_neg hbit]
  by_cases hover : UInt32.size ≤ width.toNat + 7
  · have hsum : sum? UInt32.size width.toNat 7 = none := if_neg (Nat.not_lt.mpr hover)
    rw [hsum, if_pos hover]
    rfl
  · rw [step_bind (sum?_eq (Nat.lt_of_not_le hover)), if_neg hover]
    exact takeBytesStrict_eq hcapacity _ _ _

theorem allocateStrict_eq_total {width : UInt32} (hcapacity : capacity + 2 < UInt32.size)
    (hnext : c.next ≤ capacity) (hwidth : width.toNat + 7 < UInt32.size) :
    c.allocateStrict capacity width = total (c.allocate capacity width) := by
  have hcountable : c.Countable width := by
    refine ⟨hwidth, ?_⟩
    split_ifs <;> omega
  rw [allocateStrict_eq (by omega)]
  apply upTo_of_not_isStuck
  cases ha : c.allocate capacity width with
  | ok r => rfl
  | error e =>
    cases e with
    | overflow => exact absurd hcountable (allocate_eq_overflow_iff.mp ha).1
    | _ => rfl

/-- In local data of so many bytes, handing out room gets stuck at these errors, and reserving room at none
of them. -/
structure Stops (stuck : LocalStackError → Bool) (room : Nat) : Prop where
  reserve : ∀ requested capacity, stuck (.reservationTooLarge requested capacity) = false
  allocate : ∀ {c : Cursor} {low capacity : Nat} {width : UInt32}, capacity ≤ room →
    c.Within low capacity → width.toNat + 7 < UInt32.size →
      c.allocateStrict capacity width = upTo stuck (c.allocate capacity width)

theorem Stops.mono {stuck : LocalStackError → Bool} {room room' : Nat} (h : Stops stuck room')
    (hroom : room ≤ room') : Stops stuck room :=
  ⟨h.reserve, fun hcapacity => h.allocate (Nat.le_trans hcapacity hroom)⟩

theorem stops_isOverflow {room : Nat} (h : room < UInt32.size) :
    Stops LocalStackError.isOverflow room where
  reserve := fun _ _ => rfl
  allocate := fun hcapacity _ _ => allocateStrict_eq (Nat.lt_of_le_of_lt hcapacity h) _

theorem stops_nowhere {room : Nat} (h : room + 2 < UInt32.size) : Stops (fun _ => false) room where
  reserve := fun _ _ => rfl
  allocate := by
    intro c low capacity width hcapacity hc hwidth
    rw [allocateStrict_eq_total (by omega) hc.le_capacity hwidth]
    exact (upTo_of_not_isStuck (isStuck_of_forall (fun _ => rfl) _)).symm

end Cursor

theorem Access.ValidWidth.add_lt {a : Access} (h : a.ValidWidth) : a.width.toNat + 7 < UInt32.size := by
  have hwidth := a.width.toNat_lt
  unfold UInt32.size
  rcases h with h | ⟨-, h⟩
  · rw [h]
    decide
  · omega

namespace LocalStack

def readStrict (s : LocalStack) (a : Access) : Strict AccessError Value := s.bytes.readStrict a

def writeStrict (s : LocalStack) (a : Access) (v : Value) : Strict AccessError LocalStack := do
  return { s with bytes := ← s.bytes.writeStrict a v }

theorem readStrict_eq (s : LocalStack) (a : Access) : s.readStrict a = total (s.read a) :=
  s.bytes.readStrict_eq a

theorem writeStrict_eq (s : LocalStack) (a : Access) (v : Value) :
    s.writeStrict a v = total (s.write a v) :=
  bind_total (s.bytes.writeStrict_eq a v) fun _ _ => rfl

end LocalStack

end PlcMachine
