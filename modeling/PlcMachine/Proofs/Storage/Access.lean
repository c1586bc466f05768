import Mathlib.Tactic.Common
import PlcMachine.Storage.ByteStore

/-! # Accesses that succeed

When the check of an access succeeds, which bits the access covers, and the form in which a value
comes back from a location that it was written to.
-/

namespace PlcMachine

section Outcomes

variable {ε ε' α β : Type}

theorem bind_eq_ok {x : Except ε α} {f : α → Except ε β} {b : β} :
    x >>= f = .ok b ↔ ∃ a, x = .ok a ∧ f a = .ok b := by
  cases x <;> simp [bind, Except.bind]

theorem map_eq_ok {x : Except ε α} {f : α → β} {b : β} :
    f <$> x = .ok b ↔ ∃ a, x = .ok a ∧ f a = b := by
  cases x <;> simp [Functor.map, Except.map]

theorem pure_eq_ok {a b : α} : (pure a : Except ε α) = .ok b ↔ a = b := by
  simp [pure, Except.pure]

theorem throw_ne_ok {e : ε} {a : α} : (throw e : Except ε α) ≠ .ok a := by
  simp [throw, throwThe, MonadExceptOf.throw]

theorem mapError_eq_ok {x : Except ε α} {f : ε → ε'} {a : α} : x.mapError f = .ok a ↔ x = .ok a := by
  cases x <;> simp [Except.mapError]

theorem map_eq_error {x : Except ε α} {f : α → β} {e : ε} : x.map f = .error e ↔ x = .error e := by
  cases x <;> simp [Except.map]

theorem exists_map_eq_ok {x : Except ε α} {f : α → β} :
    (∃ b, x.map f = .ok b) ↔ ∃ a, x = .ok a := by
  cases x <;> simp [Except.map]

end Outcomes

namespace BigEndian

theorem decode_lt (bytes : List UInt8) : decode bytes < Nat.pow 256 bytes.length := by
  rw [← bytes.reverse_reverse]
  induction bytes.reverse with
  | nil => decide
  | cons b r ih =>
    have hb := b.toNat_lt
    rw [List.reverse_cons, decode_append_singleton, List.length_append, List.length_singleton]
    simp only [Nat.pow_eq, Nat.pow_succ] at ih ⊢
    omega

theorem decode_encode {count n : Nat} (h : n < Nat.pow 256 count) : decode (encode count n) = n := by
  induction count generalizing n with
  | zero => simpa [decode, encode] using (Nat.lt_one_iff.mp h).symm
  | succ count ih =>
    have hdiv : n / 256 < Nat.pow 256 count := by
      simp only [Nat.pow_eq, Nat.pow_succ] at h ⊢
      omega
    rw [decode_encode_succ, ih hdiv]
    omega

end BigEndian
namespace Access

/-- The bits of the area that an access reads or writes, counted from the start of the area. -/
def Covers (a : Access) (i : Nat) : Prop := a.offset.index ≤ i ∧ i < a.offset.index + a.width.toNat

instance (a : Access) (i : Nat) : Decidable (a.Covers i) := inferInstanceAs (Decidable (_ ∧ _))

/-- The access is well shaped and ends within an area of `size` bytes. -/
structure Within (a : Access) (size : Nat) : Prop where
  width : a.ValidWidth
  aligned : a.Aligned
  fits : a.byteEnd ≤ size

theorem checkShape_eq_ok {a : Access} : a.checkShape = .ok () ↔ a.ValidWidth ∧ a.Aligned := by
  unfold checkShape
  split_ifs with hw ha <;> simp_all

theorem check_eq_ok {a : Access} {size : Nat} : a.check size = .ok () ↔ a.Within size := by
  unfold check
  rw [bind_eq_ok]
  constructor
  · rintro ⟨⟨⟩, hs, hr⟩
    obtain ⟨hw, ha⟩ := checkShape_eq_ok.mp hs
    refine ⟨hw, ha, ?_⟩
    by_contra h
    rw [if_pos (by omega)] at hr
    exact throw_ne_ok hr
  · rintro ⟨hw, ha, hf⟩
    exact ⟨(), checkShape_eq_ok.mpr ⟨hw, ha⟩, by rw [if_neg (by omega)]; rfl⟩

theorem Within.mono {a : Access} {size size' : Nat} (h : a.Within size) (hle : size ≤ size') :
    a.Within size' := ⟨h.width, h.aligned, Nat.le_trans h.fits hle⟩

theorem Within.inArea {a : Access} {size : Nat} (h : a.Within size) (area : Area) :
    Access.Within { a with area } size := ⟨h.width, h.aligned, h.fits⟩

theorem Within.width_pos {a : Access} {size : Nat} (h : a.Within size) : 0 < a.width.toNat := by
  rcases h.width with hw | ⟨hw, -⟩
  · simp [hw]
  · exact Nat.pos_of_ne_zero fun h => hw (UInt32.toNat.inj h)

theorem Within.index_eq {a : Access} {size : Nat} (h : a.Within size) (hw : a.width ≠ 1) :
    a.offset.index = 8 * a.offset.byte.toNat ∧ a.width.toNat = 8 * a.byteLength := by
  have hb : a.offset.bit = 0 := h.aligned.2.resolve_left hw
  have hv : a.width.toNat % 8 = 0 := (h.width.resolve_left hw).2
  simp only [BitAddress.index, hb, byteLength, hw, ↓reduceIte]
  constructor
  · rfl
  · omega

theorem Within.covers_lt {a : Access} {size i : Nat} (h : a.Within size) (hi : a.Covers i) :
    i < 8 * size := by
  obtain ⟨-, hi⟩ := hi
  have hf := h.fits
  unfold byteEnd at hf
  by_cases hw : a.width = 1
  · have hb : a.offset.bit.toNat ≤ 7 := h.aligned.1
    simp only [BitAddress.index, byteLength, hw, ↓reduceIte, UInt32.reduceToNat] at hi hf
    omega
  · obtain ⟨h₁, h₂⟩ := h.index_eq hw
    omega

theorem not_within_zero (a : Access) : ¬ a.Within 0 := by
  intro h
  have := h.covers_lt ⟨Nat.le_refl _, Nat.lt_add_of_pos_right h.width_pos⟩
  omega

end Access

namespace Value

/-- The form in which a value is read back: a number where the width holds one, bytes elsewhere. -/
def canonical : Value → Value
  | .scalar n => .scalar n
  | .bytes bs => .ofBytes bs

theorem canonical_ofBytes (bs : List UInt8) : (ofBytes bs).canonical = ofBytes bs := by
  unfold ofBytes
  split
  · rfl
  · next h => simp [canonical, ofBytes, h]

theorem scalar_fits_cases {n w : UInt32} (h : (scalar n).Fits w) :
    w = 1 ∧ n.toNat < 2 ∨ w = 8 ∧ n.toNat < 256 ∨ w = 16 ∧ n.toNat < 65536 ∨ w = 32 := by
  have hn : n.toNat < scalarBound w := h
  unfold scalarBound at hn
  split_ifs at hn with h₁ h₂ h₃ h₄
  · exact .inl ⟨h₁, hn⟩
  · exact .inr (.inl ⟨h₂, hn⟩)
  · exact .inr (.inr (.inl ⟨h₃, hn⟩))
  · exact .inr (.inr (.inr h₄))
  · omega

/-- The bytes that a value becomes are read back as its canonical form. -/
theorem ofBytes_toBytes {v : Value} {w : UInt32} (hv : v.Fits w) (hw : w ≠ 1) :
    ofBytes (v.toBytes (w.toNat / 8)) = v.canonical := by
  cases v with
  | bytes bs => rfl
  | scalar n =>
    have hn := n.toNat_lt
    obtain ⟨rfl, -⟩ | ⟨rfl, h⟩ | ⟨rfl, h⟩ | rfl := scalar_fits_cases hv
    · exact absurd rfl hw
    all_goals
      rw [toBytes, ofBytes, BigEndian.length_encode, if_pos (by decide),
        BigEndian.decode_encode (by first | exact h | exact hn)]
      simp [canonical]

theorem fits_ofBytes {bs : List UInt8} {w : UInt32} (h : 8 * bs.length = w.toNat) :
    (ofBytes bs).Fits w := by
  unfold ofBytes
  split_ifs with hl
  · have hlt := BigEndian.decode_lt bs
    have hle : (UInt32.ofNat (BigEndian.decode bs)).toNat ≤ BigEndian.decode bs := by
      rw [UInt32.toNat_ofNat']; exact Nat.mod_le _ _
    have hw : w = .ofNat (8 * bs.length) := by rw [h]; simp
    simp only [List.mem_cons, List.not_mem_nil, or_false] at hl
    obtain hl | hl | hl := hl <;> rw [hl] at hlt hw <;> subst hw <;>
      exact Nat.lt_of_le_of_lt hle hlt
  · exact h

theorem ofBytes_singleton (b : UInt8) : ofBytes [b] = .scalar b.toUInt32 := by
  have hdecode : BigEndian.decode [b] = b.toNat := by simp [BigEndian.decode]
  rw [ofBytes, if_pos (by simp), hdecode]
  simp

theorem ofBytes_inj {bs cs : List UInt8} (hlen : bs.length = cs.length)
    (h : ofBytes bs = ofBytes cs) : bs = cs := by
  unfold ofBytes at h
  rw [← hlen] at h
  split_ifs at h with hl
  · have hsmall : ∀ ds : List UInt8, ds.length = bs.length →
        BigEndian.decode ds < UInt32.size := by
      intro ds hds
      have hlt := BigEndian.decode_lt ds
      simp only [List.mem_cons, List.not_mem_nil, or_false] at hl
      rw [hds] at hlt
      rcases hl with hl | hl | hl <;> rw [hl] at hlt <;>
        exact Nat.lt_of_lt_of_le hlt (by decide)
    have hdecode : BigEndian.decode bs = BigEndian.decode cs := by
      have hnat := congrArg UInt32.toNat (scalar.inj h)
      rwa [UInt32.toNat_ofNat_of_lt' (hsmall bs rfl), UInt32.toNat_ofNat_of_lt' (hsmall cs hlen.symm)]
        at hnat
    rw [← BigEndian.encode_decode bs, ← BigEndian.encode_decode cs, hdecode, hlen]
  · exact bytes.inj h

end Value

end PlcMachine
