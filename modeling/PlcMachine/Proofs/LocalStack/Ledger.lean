import PlcMachine.LocalStack.Basic
import PlcMachine.Proofs.LocalStack.Cursor

/-! # The slots of a local stack

A ledger lists the slots that a local stack has handed out since it was reset and the marks taken in
between. Going back to a mark strikes everything behind it. The cursor is always the one that the
remaining entries lead to, so slots that are in force at the same time never overlap.
-/

namespace PlcMachine

namespace LocalStack

inductive Request where
  | reset (capacity reserved : UInt32)
  | allocate (width : UInt32)
  | mark
  /-- Back to the mark in force that so many others were taken behind. -/
  | rewind (others : Nat)
deriving DecidableEq, Repr

/-- Room that was handed out, and the width that it was asked for. -/
structure Slot where
  offset : BitAddress
  width : UInt32
deriving DecidableEq, Repr

inductive Entry where
  | slot (s : Slot)
  | mark (cursor : Cursor)
deriving DecidableEq, Repr

/-- A local stack with what was entered since it was last reset and is still in force. -/
structure Ledger where
  stack : LocalStack
  reserved : UInt32
  /-- The slots handed out and the marks taken, the last one first. -/
  entries : List Entry
deriving DecidableEq, Repr

namespace Slot

def bytes (s : Slot) : Nat := (s.width.toNat + 7) / 8

/-- The slot takes the bit: a single bit itself, and every other slot whole bytes. -/
def Takes (s : Slot) (i : Nat) : Prop :=
  if s.width = 1 then i = s.offset.index
  else s.offset.index ≤ i ∧ i < s.offset.index + 8 * s.bytes

def Apart (s s' : Slot) : Prop := ∀ i, s.Takes i → ¬ s'.Takes i

/-- The slot lies between the reserved bytes and the capacity, and starts where slots of its width may. -/
structure Placed (s : Slot) (reserved capacity : Nat) : Prop where
  reserved_le : reserved ≤ s.offset.byte.toNat
  le_capacity : s.offset.byte.toNat + s.bytes ≤ capacity
  bit_le : s.offset.bit ≤ 7
  bit_eq : s.width ≠ 1 → s.offset.bit = 0
  even : 8 < s.width → s.offset.byte.toNat % 2 = 0

end Slot

def slots (entries : List Entry) : List Slot :=
  entries.filterMap fun
    | .slot s => some s
    | .mark _ => none

/-- The last single bit that is in force. -/
def lastBit? (entries : List Entry) : Option BitAddress :=
  ((slots entries).find? (·.width = 1)).map (·.offset)

/-- The entries up to a mark, with the cursor at it, where so many other marks are passed over. -/
def backTo? : Nat → List Entry → Option (Cursor × List Entry)
  | _, [] => none
  | others, .slot _ :: entries => backTo? others entries
  | 0, .mark c :: entries => some (c, .mark c :: entries)
  | others + 1, .mark _ :: entries => backTo? others entries

namespace Ledger

/-- Keeps the ledger. There is no way back to a mark that is not in force. -/
def perform? (t : Ledger) : Request → Except LocalStackError Ledger
  | .reset capacity reserved => do return ⟨← t.stack.reset capacity reserved, reserved, []⟩
  | .allocate width => do
    let (offset, stack) ← t.stack.allocate width
    return { t with stack, entries := .slot ⟨offset, width⟩ :: t.entries }
  | .mark => .ok { t with entries := .mark t.stack.cursor :: t.entries }
  | .rewind others =>
    match backTo? others t.entries with
    | some (c, entries) => .ok { t with stack := t.stack.rewind c, entries }
    | none => .ok t

def after (t : Ledger) (r : Request) : Ledger :=
  match t.perform? r with
  | .ok t' => t'
  | .error _ => t

def run (t : Ledger) (rs : List Request) : Ledger := rs.foldl after t

end Ledger

/-- The local stack is about to hand out its first slot: it is fresh, or has just been reset. -/
inductive Opens : LocalStack → UInt32 → Prop where
  | zeroed (capacity : UInt32) : Opens (zeroed capacity) 0
  | reset {s s' : LocalStack} {capacity reserved : UInt32}
      (h : s.reset capacity reserved = .ok s') : Opens s' reserved

/-- The cursor is the one that the entries lead to, one after another. -/
inductive Accounts (reserved capacity : Nat) : Cursor → List Entry → Prop where
  | nil : Accounts reserved capacity ⟨reserved, none⟩ []
  | slot {c c' : Cursor} {entries : List Entry} {offset : BitAddress} {width : UInt32}
      (h : Accounts reserved capacity c entries)
      (ha : c.allocate capacity width = .ok (offset, c')) :
      Accounts reserved capacity c' (.slot ⟨offset, width⟩ :: entries)
  | mark {c : Cursor} {entries : List Entry} (h : Accounts reserved capacity c entries) :
      Accounts reserved capacity c (.mark c :: entries)

end LocalStack

namespace Cursor

variable {c c' : Cursor} {low capacity : Nat} {width : UInt32} {a : BitAddress}

theorem aligned_eq (c : Cursor) (width : UInt32) : c.aligned (if 8 < width then 2 else 1) =
    c.next + if 8 < width then c.next % 2 else 0 := by
  unfold aligned
  split_ifs <;> omega

theorem allocate_eq_ok_of_ne (hw : width ≠ 1) (h : c.allocate capacity width = .ok (a, c')) :
    ∃ start, start = c.next + (if 8 < width then c.next % 2 else 0) ∧
      start + (width.toNat + 7) / 8 ≤ capacity ∧ a = .ofByte (.ofNat start) ∧
      c' = { c with next := start + (width.toNat + 7) / 8 } := by
  unfold allocate at h
  rw [if_neg hw] at h
  by_cases hover : UInt32.size ≤ width.toNat + 7
  · rw [if_pos hover] at h
    cases h
  rw [if_neg hover] at h
  obtain ⟨hle, ha, hc'⟩ := takeBytes_eq_ok h
  rw [aligned_eq] at hle ha hc'
  exact ⟨_, rfl, hle, ha, hc'⟩

theorem bit_of_allocate_of_ne (hw : width ≠ 1) (h : c.allocate capacity width = .ok (a, c')) :
    c'.bit = c.bit := by
  obtain ⟨start, -, -, -, rfl⟩ := allocate_eq_ok_of_ne hw h
  rfl

theorem bit_of_allocate_one (h : c.allocate capacity 1 = .ok (a, c')) : c'.bit = some a := by
  change c.takeBit capacity = .ok (a, c') at h
  unfold takeBit at h
  split at h
  · cases h
    rfl
  · obtain ⟨⟨b, c₁⟩, -, h⟩ := bind_eq_ok.mp h
    cases pure_eq_ok.mp h
    rfl

/-- The sums by which room of the width is found are numbers of 32 bits. -/
def Countable (c : Cursor) (width : UInt32) : Prop :=
  width.toNat + 7 < UInt32.size ∧ c.next + (if 8 < width then 2 else 1) < UInt32.size

theorem exists_takeBytes_error_iff (c : Cursor) (capacity : Nat) (width : UInt32)
    (count alignment : Nat) : (∃ e, c.takeBytes capacity width count alignment = .error e) ↔
      UInt32.size ≤ c.next + alignment ∨ capacity < c.aligned alignment + count := by
  unfold takeBytes
  dsimp only
  split_ifs with hover hle
  · simp [hover]
  · simp [hover, hle]
  · simpa [hover] using hle

theorem takeBytes_eq_overflow_iff (c : Cursor) (capacity : Nat) (width : UInt32)
    (count alignment : Nat) : c.takeBytes capacity width count alignment = .error .overflow ↔
      UInt32.size ≤ c.next + alignment := by
  unfold takeBytes
  dsimp only
  split_ifs with hover <;> simp [hover]

theorem countable_one_iff : c.Countable 1 ↔ ¬ UInt32.size ≤ c.next + 1 := by
  unfold Countable
  rw [if_neg (by decide), Nat.not_le]
  exact and_iff_right (by decide)

theorem countable_iff (hw : ¬ UInt32.size ≤ width.toNat + 7) :
    c.Countable width ↔ ¬ UInt32.size ≤ c.next + if 8 < width then 2 else 1 := by
  unfold Countable
  rw [Nat.not_le]
  exact and_iff_right (Nat.lt_of_not_le hw)

/-- No slot is handed out if and only if its room cannot be counted or the next whole bytes end behind the
capacity and, for a single bit, no bit of the shared byte is left. -/
theorem exists_allocate_error_iff : (∃ e, c.allocate capacity width = .error e) ↔
    (¬ c.Countable width ∨
      capacity < c.next + (if 8 < width then c.next % 2 else 0) + (width.toNat + 7) / 8) ∧
      (width = 1 → c.sharedBit? = none) := by
  unfold allocate
  by_cases hw : width = 1
  · subst hw
    rw [if_pos rfl, countable_one_iff, not_not]
    unfold takeBit
    cases hshared : c.sharedBit? with
    | some b => simp
    | none =>
      have htake := c.exists_takeBytes_error_iff capacity 1 1 1
      have haligned : c.aligned 1 = c.next := by simp [aligned]
      rw [haligned] at htake
      cases ht : c.takeBytes capacity 1 1 1 with
      | ok r => simpa [ht, bind, Except.bind, pure, Except.pure] using htake
      | error e => simpa [ht, bind, Except.bind] using htake
  · rw [if_neg hw]
    refine Iff.trans ?_ (and_iff_left fun h => absurd h hw).symm
    by_cases hover : UInt32.size ≤ width.toNat + 7
    · simp [Countable, hover, Nat.not_lt.mpr hover]
    · rw [if_neg hover, exists_takeBytes_error_iff, aligned_eq, countable_iff hover, not_not]

theorem allocate_eq_overflow_iff : c.allocate capacity width = .error .overflow ↔
    ¬ c.Countable width ∧ (width = 1 → c.sharedBit? = none) := by
  unfold allocate
  by_cases hw : width = 1
  · subst hw
    rw [if_pos rfl, countable_one_iff, not_not, ← c.takeBytes_eq_overflow_iff capacity 1 1 1]
    unfold takeBit
    cases c.sharedBit? with
    | some b => simp
    | none => cases c.takeBytes capacity 1 1 1 <;> simp [bind, Except.bind, pure, Except.pure]
  · rw [if_neg hw]
    refine Iff.trans ?_ (and_iff_left fun h => absurd h hw).symm
    by_cases hover : UInt32.size ≤ width.toNat + 7
    · simp [Countable, hover, Nat.not_lt.mpr hover]
    · rw [if_neg hover, takeBytes_eq_overflow_iff, countable_iff hover, not_not]

theorem lt_of_not_countable (hcapacity : capacity < UInt32.size - 1) (hnext : c.next ≤ capacity)
    (hw : width.toNat + 7 < UInt32.size) (h : ¬ c.Countable width) :
    capacity < c.next + (if 8 < width then c.next % 2 else 0) + (width.toNat + 7) / 8 := by
  rw [countable_iff (Nat.not_le.mpr hw), not_not] at h
  split_ifs at h ⊢ with hwide
  · have hwide' : 8 < width.toNat := hwide
    omega
  · omega

end Cursor

namespace LocalStack

variable {c c' : Cursor} {reserved capacity : Nat} {width : UInt32} {a : BitAddress}
  {entries : List Entry}

theorem Slot.bytes_one (a : BitAddress) : bytes ⟨a, 1⟩ = 1 := by simp [bytes]

theorem placed_of_allocate (hc : c.Within reserved capacity) (hcap : capacity < UInt32.size)
    (h : c.allocate capacity width = .ok (a, c')) :
    Slot.Placed ⟨a, width⟩ reserved capacity ∧
      ∀ i, Slot.Takes ⟨a, width⟩ i → c.Free i ∧ ¬ c'.Free i := by
  obtain ⟨hc', -, hgives⟩ := hc.allocate_gives hcap h
  by_cases hw : width = 1
  · subst hw
    obtain ⟨hbit, hlow, hnext⟩ := hc'.bit a (Cursor.bit_of_allocate_one h)
    refine ⟨⟨hlow, ?_, hbit, fun hne => absurd rfl hne, ?_⟩, ?_⟩
    · rw [Slot.bytes_one]
      exact Nat.le_trans hnext hc'.le_capacity
    · intro hwide
      exact absurd hwide (by decide : ¬ (8 : UInt32) < 1)
    · rintro i rfl
      have hcovers : Access.Covers ⟨.localData, a, 1⟩ a.index :=
        ⟨Nat.le_refl _, Nat.lt_succ_self _⟩
      exact ⟨hgives.free _ hcovers, hgives.taken _ hcovers⟩
  · obtain ⟨start, hstart, hle, rfl, rfl⟩ := Cursor.allocate_eq_ok_of_ne hw h
    have hsize : start < UInt32.size := by omega
    have hbyte : (UInt32.ofNat start).toNat = start := UInt32.toNat_ofNat_of_lt' hsize
    have hindex := Cursor.index_ofByte start hsize
    have hnext : c.next ≤ start := by omega
    refine ⟨⟨?_, ?_, UInt8.zero_le, fun _ => rfl, ?_⟩, ?_⟩
    · have hlow := hc.low_le
      change reserved ≤ (UInt32.ofNat start).toNat
      omega
    · change (UInt32.ofNat start).toNat + (width.toNat + 7) / 8 ≤ capacity
      omega
    · intro hwide
      change (UInt32.ofNat start).toNat % 2 = 0
      rw [if_pos hwide] at hstart
      omega
    · intro i hi
      simp only [Slot.Takes, hw, ↓reduceIte, hindex, Slot.bytes] at hi
      refine ⟨.inl (by omega), ?_⟩
      rintro (hfree | ⟨b, hb, -, hshared⟩)
      · dsimp only at hfree
        omega
      · have hbelow := (hc.bit b hb).2.2
        omega

namespace Accounts

theorem within (h : Accounts reserved capacity c entries) (hle : reserved ≤ capacity)
    (hcap : capacity < UInt32.size) : c.Within reserved capacity := by
  induction h with
  | nil => exact Cursor.within_reserved hle
  | slot _ ha ih => exact (ih.allocate_gives hcap ha).1
  | mark _ ih => exact ih

/-- The slots in force lie where they may, no two of them have a bit in common, and none has one that is
still free. -/
theorem slots_placed (h : Accounts reserved capacity c entries) (hle : reserved ≤ capacity)
    (hcap : capacity < UInt32.size) : (slots entries).Pairwise Slot.Apart ∧
      ∀ s ∈ slots entries, s.Placed reserved capacity ∧ ∀ i, s.Takes i → ¬ c.Free i := by
  induction h with
  | nil => exact ⟨.nil, fun _ hs => absurd hs List.not_mem_nil⟩
  | @slot c c' entries offset width h ha ih =>
    have hc := h.within hle hcap
    obtain ⟨hplaced, htakes⟩ := placed_of_allocate hc hcap ha
    have hbehind := (hc.allocate_gives hcap ha).2.1
    constructor
    · -- What is taken is not free any more, so the new slot, which is free, has no bit of an old one.
      refine List.pairwise_cons.mpr ⟨?_, ih.1⟩
      intro s hs i hi hi'
      exact (ih.2 s hs).2 i hi' (htakes i hi).1
    · intro s hs
      rcases List.mem_cons.mp hs with rfl | hs
      · exact ⟨hplaced, fun i hi => (htakes i hi).2⟩
      · exact ⟨(ih.2 s hs).1, fun i hi hfree => (ih.2 s hs).2 i hi (hbehind.free i hfree)⟩
  | mark _ ih => exact ih

theorem bit_eq (h : Accounts reserved capacity c entries) : c.bit = lastBit? entries := by
  induction h with
  | nil => rfl
  | @slot c c' entries offset width _ ha ih =>
    by_cases hw : width = 1
    · subst hw
      rw [Cursor.bit_of_allocate_one ha]
      rfl
    · rw [Cursor.bit_of_allocate_of_ne hw ha, ih]
      simp [lastBit?, slots, hw]
  | mark _ ih => exact ih

theorem backTo? {others : Nat} (h : Accounts reserved capacity c entries) {entries' : List Entry}
    (hback : LocalStack.backTo? others entries = some (c', entries')) :
    Accounts reserved capacity c' entries' := by
  induction h generalizing others with
  | nil => simp [LocalStack.backTo?] at hback
  | slot _ _ ih =>
    rw [LocalStack.backTo?] at hback
    exact ih hback
  | mark h ih =>
    cases others with
    | zero =>
      cases hback
      exact h.mark
    | succ others =>
      rw [LocalStack.backTo?] at hback
      exact ih hback

end Accounts

theorem reset_eq_ok {s s' : LocalStack} {capacity reserved : UInt32}
    (h : s.reset capacity reserved = .ok s') :
    reserved ≤ capacity ∧ s'.capacity = capacity.toNat ∧ s'.cursor = ⟨reserved.toNat, none⟩ := by
  unfold reset at h
  split_ifs at h with hlt
  cases h
  exact ⟨UInt32.not_lt.mp hlt, ByteStore.size_resize _ _, rfl⟩

theorem allocate_eq_ok {s s' : LocalStack} (h : s.allocate width = .ok (a, s')) :
    s'.capacity = s.capacity ∧ s.cursor.allocate s.capacity width = .ok (a, s'.cursor) := by
  obtain ⟨⟨b, c'⟩, ha, he⟩ := bind_eq_ok.mp h
  cases pure_eq_ok.mp he
  exact ⟨rfl, ha⟩

structure Ledger.Sound (t : Ledger) : Prop where
  reserved_le : t.reserved.toNat ≤ t.stack.capacity
  capacity_lt : t.stack.capacity < UInt32.size
  accounts : Accounts t.reserved.toNat t.stack.capacity t.stack.cursor t.entries

theorem Opens.sound {s : LocalStack} {reserved : UInt32} (h : s.Opens reserved) :
    Ledger.Sound ⟨s, reserved, []⟩ := by
  cases h with
  | zeroed capacity =>
    have hcapacity : (LocalStack.zeroed capacity).capacity = capacity.toNat := by
      simp [LocalStack.zeroed, LocalStack.capacity]
    exact ⟨Nat.zero_le _, hcapacity ▸ capacity.toNat_lt, .nil⟩
  | reset h =>
    obtain ⟨hle, hcapacity, hcursor⟩ := reset_eq_ok h
    refine ⟨?_, ?_, ?_⟩
    · exact hcapacity ▸ UInt32.le_iff_toNat_le.mp hle
    · exact hcapacity ▸ UInt32.toNat_lt _
    · exact hcursor ▸ .nil

namespace Ledger

variable {t t' : Ledger} {r : Request}

/-- One request keeps the entries in accord with the local stack. -/
theorem Sound.perform? (h : t.Sound) (hr : t.perform? r = .ok t') : t'.Sound := by
  cases r with
  | reset capacity reserved =>
    obtain ⟨s', hs', he⟩ := bind_eq_ok.mp hr
    cases pure_eq_ok.mp he
    exact (Opens.reset hs').sound
  | allocate width =>
    obtain ⟨⟨a, s'⟩, hs', he⟩ := bind_eq_ok.mp hr
    cases pure_eq_ok.mp he
    obtain ⟨hcapacity, ha⟩ := allocate_eq_ok hs'
    refine ⟨?_, ?_, ?_⟩
    · exact hcapacity ▸ h.reserved_le
    · exact hcapacity ▸ h.capacity_lt
    · exact hcapacity ▸ h.accounts.slot ha
  | mark =>
    cases hr
    exact ⟨h.reserved_le, h.capacity_lt, h.accounts.mark⟩
  | rewind others =>
    rw [Ledger.perform?] at hr
    cases hback : backTo? others t.entries with
    | none =>
      rw [hback] at hr
      cases hr
      exact h
    | some back =>
      rw [hback] at hr
      cases hr
      exact ⟨h.reserved_le, h.capacity_lt, h.accounts.backTo? hback⟩

theorem Sound.after (h : t.Sound) (r : Request) : (t.after r).Sound := by
  unfold Ledger.after
  split
  · next hr => exact h.perform? hr
  · exact h

theorem Sound.run (h : t.Sound) (rs : List Request) : (t.run rs).Sound := by
  induction rs generalizing t with
  | nil => exact h
  | cons r rs ih => exact ih (h.after r)

theorem Sound.sharedBit?_eq_none (h : t.Sound) : t.stack.cursor.sharedBit? = none ↔
    ∀ a, lastBit? t.entries = some a → a.bit = 7 := by
  have hwithin := h.accounts.within h.reserved_le h.capacity_lt
  rw [← h.accounts.bit_eq]
  unfold Cursor.sharedBit?
  cases hbit : t.stack.cursor.bit with
  | none => simp
  | some b =>
    have hle : b.bit ≤ 7 := (hwithin.bit b hbit).1
    simp only [UInt8.le_iff_toNat_le, UInt8.lt_iff_toNat_lt, ← UInt8.toNat_inj, Option.some.injEq,
      forall_eq'] at hle ⊢
    split_ifs with hlt
    · simp only [false_iff]
      omega
    · simp only [true_iff]
      omega

theorem exists_allocate_error_iff (t : Ledger) (width : UInt32) :
    (∃ e, t.perform? (.allocate width) = .error e) ↔
      ∃ e, t.stack.cursor.allocate t.stack.capacity width = .error e := by
  change (∃ e, (t.stack.allocate width >>= _) = .error e) ↔ _
  unfold LocalStack.allocate
  cases t.stack.cursor.allocate t.stack.capacity width <;>
    simp [bind, Except.bind, pure, Except.pure]

theorem allocate_eq_overflow_iff {width : UInt32} :
    t.perform? (.allocate width) = .error .overflow ↔
      t.stack.cursor.allocate t.stack.capacity width = .error .overflow := by
  change (t.stack.allocate width >>= _) = .error .overflow ↔ _
  unfold LocalStack.allocate
  cases t.stack.cursor.allocate t.stack.capacity width <;>
    simp [bind, Except.bind, pure, Except.pure]

theorem exists_reset_error_iff {capacity reserved : UInt32} :
    (∃ e, t.perform? (.reset capacity reserved) = .error e) ↔ capacity < reserved := by
  change (∃ e, (t.stack.reset capacity reserved >>= _) = .error e) ↔ _
  unfold LocalStack.reset
  split_ifs with hlt <;> simp [bind, Except.bind, pure, Except.pure, hlt]

theorem after_of_error {e : LocalStackError} (h : t.perform? r = .error e) : t.after r = t := by
  unfold after
  rw [h]

end Ledger

/-- Whatever is asked of a local stack, no two slots in force have a bit in common, and each of them lies
between the reserved bytes and the capacity, whole bytes from their first bit on and more than one byte from
an even one on. A slot is refused if and only if the next whole bytes for it would end behind the capacity
and, for a single bit, the byte that the last one in force is in has no bit left. At the end of what 32 bits
can count, the program stops instead. Room is refused to a frame if and only if its reserved bytes exceed the
capacity. What is refused changes nothing. -/
theorem slots_run {s : LocalStack} {reserved : UInt32} (h : s.Opens reserved) (rs : List Request) :
    let t := Ledger.run ⟨s, reserved, []⟩ rs
    (slots t.entries).Pairwise Slot.Apart ∧
    (∀ a ∈ slots t.entries, a.Placed t.reserved.toNat t.stack.capacity) ∧
    (∀ width : UInt32, width.toNat + 7 < UInt32.size → t.stack.capacity < UInt32.size - 1 →
      ((∃ e, t.perform? (.allocate width) = .error e) ↔
        t.stack.capacity < t.stack.used + (if 8 < width then t.stack.used % 2 else 0) +
          (width.toNat + 7) / 8 ∧
        (width = 1 → ∀ a, lastBit? t.entries = some a → a.bit = 7))) ∧
    (∀ width, (∃ e, t.perform? (.allocate width) = .error e) ↔
      (¬ t.stack.cursor.Countable width ∨
        t.stack.capacity < t.stack.used + (if 8 < width then t.stack.used % 2 else 0) +
          (width.toNat + 7) / 8) ∧
      (width = 1 → ∀ a, lastBit? t.entries = some a → a.bit = 7)) ∧
    (∀ width, t.perform? (.allocate width) = .error .overflow ↔
      ¬ t.stack.cursor.Countable width ∧
        (width = 1 → ∀ a, lastBit? t.entries = some a → a.bit = 7)) ∧
    (∀ capacity reserved, (∃ e, t.perform? (.reset capacity reserved) = .error e) ↔
      capacity < reserved) ∧
    ∀ r e, t.perform? r = .error e → t.after r = t := by
  intro t
  have ht : t.Sound := h.sound.run rs
  have hnext : t.stack.cursor.next ≤ t.stack.capacity :=
    (ht.accounts.within ht.reserved_le ht.capacity_lt).le_capacity
  obtain ⟨hapart, hplaced⟩ := ht.accounts.slots_placed ht.reserved_le ht.capacity_lt
  have hrefused := t.exists_allocate_error_iff
  simp only [Cursor.exists_allocate_error_iff, ht.sharedBit?_eq_none] at hrefused
  refine ⟨hapart, fun a ha => (hplaced a ha).1, ?_, hrefused, ?_, ?_, ?_⟩
  · intro width hwidth hcapacity
    rw [hrefused, or_iff_right_of_imp (Cursor.lt_of_not_countable hcapacity hnext hwidth)]
    rfl
  · intro width
    rw [Ledger.allocate_eq_overflow_iff, Cursor.allocate_eq_overflow_iff, ht.sharedBit?_eq_none]
  · intro capacity reserved
    exact Ledger.exists_reset_error_iff
  · intro r e he
    exact Ledger.after_of_error he

/-- A bit that is asked for behind a mark is handed out again once the mark is gone back to, in the byte that
was shared at the mark, and the bytes taken in between are free again. -/
theorem slots_run_rewound :
    let t := Ledger.run ⟨zeroed 32, 0, []⟩
      [.allocate 1, .mark, .allocate 32, .allocate 1, .rewind 0, .allocate 1]
    slots t.entries = [⟨⟨0, 1⟩, 1⟩, ⟨⟨0, 0⟩, 1⟩] ∧ (slots t.entries).Pairwise Slot.Apart ∧
      ∃ e, t.perform? (.allocate 256) = .error e := by
  obtain ⟨hapart, -, hrefused, -⟩ := slots_run (.zeroed 32)
    [.allocate 1, .mark, .allocate 32, .allocate 1, .rewind 0, .allocate 1]
  exact ⟨by decide, hapart, (hrefused 256 (by decide) (by decide)).mpr (by decide)⟩

end LocalStack

end PlcMachine
