import PlcMachine.LocalStack.Cursor
import PlcMachine.Proofs.Storage.Access

/-! # Bits handed out and bits still free

A cursor splits the bits of a local stack into those handed out and those still free. Handing out a
slot moves the bits of the slot from the free side to the other, and moves no bit back.
-/

namespace PlcMachine.Cursor

/-- The bit is not handed out: it lies above the bytes in use, or behind the last single bit in the
byte that single bits share. -/
def Free (c : Cursor) (i : Nat) : Prop :=
  8 * c.next ≤ i ∨ ∃ b, c.bit = some b ∧ b.index < i ∧ i / 8 = b.byte.toNat

/-- The cursor stands between the reserved bytes and the capacity, and so does its shared byte. -/
structure Within (c : Cursor) (low capacity : Nat) : Prop where
  low_le : low ≤ c.next
  le_capacity : c.next ≤ capacity
  bit : ∀ b, c.bit = some b → b.bit ≤ 7 ∧ low ≤ b.byte.toNat ∧ b.byte.toNat < c.next

/-- What was free at the cursor `c` was already free at `mark`. -/
structure Behind (mark c : Cursor) : Prop where
  next_le : mark.next ≤ c.next
  free : ∀ i, c.Free i → mark.Free i

/-- The access is a slot that is free before and handed out after. -/
structure Gives (c c' : Cursor) (capacity : Nat) (a : Access) : Prop where
  within : a.ValidWidth → a.Within capacity
  free : ∀ i, a.Covers i → c.Free i
  taken : ∀ i, a.Covers i → ¬ c'.Free i

theorem Behind.refl (c : Cursor) : c.Behind c := ⟨Nat.le_refl _, fun _ h => h⟩

theorem Behind.trans {a b c : Cursor} (hab : a.Behind b) (hbc : b.Behind c) : a.Behind c :=
  ⟨Nat.le_trans hab.next_le hbc.next_le, fun i h => hab.free i (hbc.free i h)⟩

theorem Gives.widen {c₀ c c' c₁ : Cursor} {capacity : Nat} {a : Access} (h : c.Gives c' capacity a)
    (h₀ : c₀.Behind c) (h₁ : c'.Behind c₁) : c₀.Gives c₁ capacity a :=
  ⟨h.within, fun i hi => h₀.free i (h.free i hi), fun i hi hf => h.taken i hi (h₁.free i hf)⟩

theorem within_reserved {low capacity : Nat} (h : low ≤ capacity) :
    Within ⟨low, none⟩ low capacity where
  low_le := Nat.le_refl _
  le_capacity := h
  bit := by
    intro b hb
    cases hb

theorem Within.not_free {c : Cursor} {low capacity i : Nat} (h : c.Within low capacity)
    (hi : i < 8 * low) : ¬ c.Free i := by
  rintro (hn | ⟨b, hb, hlt, hbyte⟩)
  · have := h.low_le; omega
  · have := (h.bit b hb).2.1; omega

theorem le_aligned (c : Cursor) {alignment : Nat} (h : alignment = 1 ∨ alignment = 2) :
    c.next ≤ c.aligned alignment := by
  unfold aligned
  rcases h with rfl | rfl <;> omega

theorem takeBytes_eq_ok {c c' : Cursor} {capacity count alignment : Nat} {width : UInt32}
    {a : BitAddress} (h : c.takeBytes capacity width count alignment = .ok (a, c')) :
    c.aligned alignment + count ≤ capacity ∧ a = .ofByte (.ofNat (c.aligned alignment)) ∧
      c' = { c with next := c.aligned alignment + count } := by
  unfold takeBytes at h
  dsimp only at h
  split_ifs at h with _ hle
  simp only [Except.ok.injEq, Prod.mk.injEq] at h
  exact ⟨hle, h.1.symm, h.2.symm⟩

variable {c c' : Cursor} {low capacity count alignment : Nat} {width : UInt32} {a : BitAddress}

theorem index_ofByte (start : Nat) (h : start < UInt32.size) :
    (BitAddress.ofByte (.ofNat start)).index = 8 * start := by
  unfold BitAddress.index BitAddress.ofByte
  rw [UInt32.toNat_ofNat_of_lt' h]
  rfl

theorem Within.takeBytes_gives (hc : c.Within low capacity) (hcap : capacity < UInt32.size)
    (halign : alignment = 1 ∨ alignment = 2) (hcount : count = (width.toNat + 7) / 8)
    (h : c.takeBytes capacity width count alignment = .ok (a, c')) :
    c'.Within low capacity ∧ c.Behind c' ∧ c.Gives c' capacity ⟨.localData, a, width⟩ := by
  have hstart := c.le_aligned halign
  obtain ⟨hle, rfl, rfl⟩ := takeBytes_eq_ok h
  have hindex := index_ofByte (c.aligned alignment) (by omega)
  refine ⟨⟨?_, hle, ?_⟩, ⟨?_, ?_⟩, ⟨?_, ?_, ?_⟩⟩
  · have := hc.low_le
    dsimp only
    omega
  · intro b hb
    have := hc.bit b hb
    exact ⟨this.1, this.2.1, Nat.lt_of_lt_of_le this.2.2 (by dsimp only; omega)⟩
  · dsimp only
    omega
  · rintro i (hi | hi)
    · exact .inl (by dsimp only at hi; omega)
    · exact .inr hi
  · intro hw
    have hbyte : (UInt32.ofNat (c.aligned alignment)).toNat = c.aligned alignment :=
      UInt32.toNat_ofNat_of_lt' (by omega)
    refine ⟨hw, ⟨UInt8.zero_le, .inr rfl⟩, ?_⟩
    simp only [Access.byteEnd, Access.byteLength, BitAddress.ofByte, hbyte]
    split_ifs with h₁
    · simp only [h₁, UInt32.reduceToNat] at hcount
      omega
    · omega
  · intro i hi
    simp only [Access.Covers, hindex] at hi
    exact .inl (by omega)
  · intro i hi hf
    simp only [Access.Covers, hindex] at hi
    rcases hf with hf | ⟨b, hb, -, hbyte⟩
    · dsimp only at hf
      omega
    · have := (hc.bit b hb).2.2
      omega

theorem Within.sharedBit_gives (hc : c.Within low capacity) (h : c.sharedBit? = some a) :
    Within { c with bit := some a } low capacity ∧ c.Behind { c with bit := some a } ∧
      c.Gives { c with bit := some a } capacity ⟨.localData, a, 1⟩ := by
  unfold sharedBit? at h
  split at h
  · next b hb =>
    split_ifs at h with hlt
    obtain rfl := Option.some.inj h
    obtain ⟨h7, hlow, hnext⟩ := hc.bit b hb
    have hlt' : b.bit.toNat < 7 := hlt
    have hbit : (b.bit + 1).toNat = b.bit.toNat + 1 := by
      rw [UInt8.toNat_add]
      exact Nat.mod_eq_of_lt (by have : (1 : UInt8).toNat = 1 := rfl; omega)
    have hindex : (BitAddress.mk b.byte (b.bit + 1)).index = b.index + 1 := by
      simp only [BitAddress.index, hbit]
      omega
    have hbound : b.index + 1 < 8 * (b.byte.toNat + 1) := by
      simp only [BitAddress.index]
      omega
    refine ⟨⟨hc.low_le, hc.le_capacity, ?_⟩, ⟨Nat.le_refl _, ?_⟩, ⟨?_, ?_, ?_⟩⟩
    · rintro _ ⟨⟩
      exact ⟨by change (b.bit + 1).toNat ≤ 7; omega, hlow, hnext⟩
    · rintro i (hi | ⟨_, ⟨⟩, hlt, hbyte⟩)
      · exact .inl hi
      · exact .inr ⟨b, hb, by omega, hbyte⟩
    · intro _
      have := hc.le_capacity
      refine ⟨.inl rfl, ⟨by change (b.bit + 1).toNat ≤ 7; omega, .inl rfl⟩, ?_⟩
      change b.byte.toNat + 1 ≤ capacity
      omega
    · intro i hi
      simp only [Access.Covers, hindex, UInt32.reduceToNat] at hi
      refine .inr ⟨b, hb, by omega, ?_⟩
      simp only [BitAddress.index] at hi hbound
      omega
    · intro i hi hf
      simp only [Access.Covers, hindex, UInt32.reduceToNat] at hi
      rcases hf with hf | ⟨_, ⟨⟩, hlt, -⟩
      · dsimp only at hf
        omega
      · omega
  · cases h

theorem Within.takeBit_gives (hc : c.Within low capacity) (hcap : capacity < UInt32.size)
    (h : c.takeBit capacity = .ok (a, c')) :
    c'.Within low capacity ∧ c.Behind c' ∧ c.Gives c' capacity ⟨.localData, a, 1⟩ := by
  unfold takeBit at h
  split at h
  · next b hb =>
    cases h
    exact hc.sharedBit_gives hb
  · obtain ⟨⟨b, c₁⟩, ht, he⟩ := bind_eq_ok.mp h
    cases pure_eq_ok.mp he
    obtain ⟨hw, -, hgives⟩ := hc.takeBytes_gives hcap (.inl rfl) rfl ht
    have hstart : c.next ≤ c.aligned 1 := c.le_aligned (.inl rfl)
    obtain ⟨hle, rfl, rfl⟩ := takeBytes_eq_ok ht
    have hindex := index_ofByte (c.aligned 1) (by omega)
    have hbyte : (BitAddress.ofByte (.ofNat (c.aligned 1))).byte.toNat = c.aligned 1 :=
      UInt32.toNat_ofNat_of_lt' (by omega)
    refine ⟨⟨hw.low_le, hw.le_capacity, ?_⟩, ⟨?_, ?_⟩, ⟨hgives.within, hgives.free, ?_⟩⟩
    · rintro _ ⟨⟩
      rw [hbyte]
      exact ⟨UInt8.zero_le, Nat.le_trans hc.low_le hstart, Nat.lt_succ_self _⟩
    · exact Nat.le_trans hstart (Nat.le_succ _)
    · rintro i (hi | ⟨_, ⟨⟩, hlt, -⟩)
      · exact .inl (by dsimp only at hi; omega)
      · exact .inl (by omega)
    · intro i hi hf
      simp only [Access.Covers, hindex, UInt32.reduceToNat] at hi
      rcases hf with hf | ⟨_, ⟨⟩, hlt, -⟩
      · dsimp only at hf
        omega
      · omega

/-- A slot that is handed out was free before and is not free afterwards. -/
theorem Within.allocate_gives (hc : c.Within low capacity) (hcap : capacity < UInt32.size)
    (h : c.allocate capacity width = .ok (a, c')) :
    c'.Within low capacity ∧ c.Behind c' ∧ c.Gives c' capacity ⟨.localData, a, width⟩ := by
  unfold allocate at h
  split_ifs at h with hw _
  · subst hw
    exact hc.takeBit_gives hcap h
  · exact hc.takeBytes_gives hcap (.inr rfl) rfl h
  · exact hc.takeBytes_gives hcap (.inl rfl) rfl h

end PlcMachine.Cursor
