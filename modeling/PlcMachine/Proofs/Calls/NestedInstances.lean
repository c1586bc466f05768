import PlcMachine.Proofs.Calls.InstanceBase

/-! # Instances within instances

A stateful call may place its instance within its caller's, which starts where a register of 24 bits says.
However deep such calls go, the register says of the innermost instance what it would say if all offsets had
been added up first.
-/

namespace PlcMachine

open BitAddress

namespace Registers

variable {base : BitAddress} {offsets : List BitAddress}

/-- Selects the instance at an offset within the one that is selected. -/
def nest (r : Registers) (offset : BitAddress) : Registers := r.setInstanceBase (r.instanceBase + offset)

@[simp]
theorem setInstanceBase_setInstanceBase (r : Registers) (a b : BitAddress) :
    (r.setInstanceBase a).setInstanceBase b = r.setInstanceBase b := rfl

theorem setInstanceBase_congr (r : Registers) {a b : BitAddress}
    (h : a.toPointer.toNat = b.toPointer.toNat) : r.setInstanceBase a = r.setInstanceBase b := by
  simp only [setInstanceBase, Pointer.areaPointer, h]

theorem index_instanceBase (r : Registers) :
    r.instanceBase.index = r.ar2.toNat % (8 * pointerBytes) := index_ofPointer r.ar2

theorem bit_instanceBase_le (r : Registers) : r.instanceBase.bit ≤ 7 := (fits_ofPointer r.ar2).2

theorem index_instanceBase_setInstanceBase (r : Registers) (hbase : base.bit ≤ 7) :
    (r.setInstanceBase base).instanceBase.index = base.index % (8 * pointerBytes) := by
  rw [instanceBase_setInstanceBase_eq, index_ofPointer, Nat.mod_eq_of_lt base.toPointer_lt,
    toNat_toPointer_of_bit_le hbase]

theorem nest_setInstanceBase (r : Registers) (hbase : base.bit ≤ 7) (offset : BitAddress) :
    (r.setInstanceBase base).nest offset = r.setInstanceBase (base + offset) := by
  rw [nest, setInstanceBase_setInstanceBase]
  apply setInstanceBase_congr
  rw [toNat_toPointer_add, toNat_toPointer_add, index_instanceBase_setInstanceBase r hbase, Nat.mod_add_mod]

/-- Going through the register any number of times comes to setting it to the sum. -/
theorem foldl_nest (r : Registers) (hbase : base.bit ≤ 7) :
    offsets.foldl nest (r.setInstanceBase base) = r.setInstanceBase (base + total offsets) := by
  induction offsets generalizing base with
  | nil => rw [List.foldl_nil, total_nil, add_zero_eq_iff.mpr hbase]
  | cons offset offsets ih =>
    -- From here on the base is a sum, so its bit number is one of a byte again.
    rw [List.foldl_cons, nest_setInstanceBase r hbase, ih (bit_add_le base offset), total_cons,
      BitAddress.add_assoc]

theorem index_foldl_nest (r : Registers) :
    (offsets.foldl nest r).instanceBase.index =
      (r.instanceBase + total offsets).index % (8 * pointerBytes) := by
  cases offsets with
  | nil =>
    rw [List.foldl_nil, total_nil, add_zero_eq_iff.mpr r.bit_instanceBase_le, index_instanceBase, Nat.mod_mod]
  | cons offset offsets =>
    -- The register may hold any area code at first. One step sets it.
    have hnest : r.nest offset = r.setInstanceBase (r.instanceBase + offset) := rfl
    rw [List.foldl_cons, hnest, foldl_nest r (bit_add_le _ offset), total_cons, ← BitAddress.add_assoc]
    exact index_instanceBase_setInstanceBase r (bit_add_le _ _)

theorem ar2_foldl_nest_congr {r r' : Registers} (h : r.ar2 = r'.ar2) :
    (offsets.foldl nest r).ar2 = (offsets.foldl nest r').ar2 := by
  induction offsets generalizing r r' with
  | nil => exact h
  | cons offset offsets ih =>
    apply ih
    simp only [nest, setInstanceBase, instanceBase, h]

end Registers

structure CallSite.NestsAt (site : CallSite) (offset : BitAddress) : Prop where
  raw : site.raw = false
  stateful : site.callee.isStateful = true
  block : site.instanceBlock = none
  base : site.nestedBase = some offset

namespace Machine

variable {m m' : Machine} {site : CallSite} {offset : BitAddress} {offsets : List BitAddress}

/-- Calls made one inside the other, each with its instance within its caller's. Between two of them
anything may happen that leaves the register as it is. -/
inductive Nested : Machine → List BitAddress → Machine → Prop where
  | here (m : Machine) : Nested m [] m
  | within {m m' m'' : Machine} {site : CallSite} {offset : BitAddress} {offsets : List BitAddress}
      {ops : List Operation} (hsite : site.NestsAt offset) (henter : m.enter site = (.ok (), m'))
      (hkept : (m'.run ops).registers.ar2 = m'.registers.ar2) (hrest : Nested (m'.run ops) offsets m'') :
      Nested m (offset :: offsets) m''

/-- A call nests its instance by way of the register. The sum fits, since the call was not refused, so the
register holds all of it. -/
theorem enter_nested (hsite : site.NestsAt offset) (henter : m.enter site = (.ok (), m')) :
    m'.registers.ar2 = (m.registers.nest offset).ar2 ∧
      m'.registers.instanceBase = m.registers.instanceBase + offset := by
  obtain ⟨hraw, hs, hblock, hbase⟩ := hsite
  obtain ⟨d, stack, plan, written, h⟩ := enters_of_ok henter
  cases d with
  | none =>
    have hnone := isNone_of_instanceFor h.instanceData
    rw [hs] at hnone
    cases hnone
  | some d =>
    obtain ⟨_, hblock', -⟩ | ⟨offset', -, hbase', rfl⟩ := instanceFor_cases h.instanceData hraw
    · cases hblock.symm.trans hblock'
    · cases hbase.symm.trans hbase'
      constructor
      · rw [h.registers_stateful hraw]
        rfl
      · exact h.instanceBase_stateful hraw (bit_add_le _ _)

theorem Nested.ar2_eq (h : Nested m offsets m') :
    m'.registers.ar2 = (offsets.foldl .nest m.registers).ar2 := by
  induction h with
  | here m => rfl
  | within hsite henter hkept _ ih =>
    rw [ih, List.foldl_cons]
    exact Registers.ar2_foldl_nest_congr (hkept.trans (enter_nested hsite henter).1)

theorem Nested.instanceBase_eq (h : Nested m offsets m') :
    m'.registers.instanceBase = m.registers.instanceBase + total offsets := by
  induction h with
  | here m => exact (add_zero_eq_iff.mpr m.registers.bit_instanceBase_le).symm
  | @within m m' m'' site offset offsets ops hsite henter hkept _ ih =>
    have hbase : (m'.run ops).registers.instanceBase = m.registers.instanceBase + offset :=
      (congrArg ofPointer hkept).trans (enter_nested hsite henter).2
    rw [ih, hbase, total_cons, BitAddress.add_assoc]

end Machine

/-- The sum of two bit addresses has a bit number of a byte, and its bit count is the sum of theirs modulo
2^35. So sums may be formed in any order, and adding 0.0 keeps exactly the addresses whose bit number is one of
a byte. A pointer to a sum is the sum of the pointers modulo 2^24. Selecting one instance within another, by
way of the register and any number of times, therefore agrees modulo 2^24 with adding the offsets first. Calls
nest their instances in this way, and since none is entered whose sum is beyond the register, it keeps all of
the sum there. -/
theorem BitAddress.add_modular (a b c : BitAddress) :
    ((a + b).bit ≤ 7 ∧ (a + b).index = (a.index + b.index) % (8 * UInt32.size)) ∧
    (a + b = b + a ∧ a + b + c = a + (b + c)) ∧
    (a + ⟨0, 0⟩ = a ↔ a.bit ≤ 7) ∧
    (a.bit ≤ 7 → b.bit ≤ 7 →
      (a + b).toPointer.toNat = (a.toPointer.toNat + b.toPointer.toNat) % (8 * pointerBytes)) ∧
    (∀ (r : Registers) (offsets : List BitAddress),
      (offsets.foldl .nest r).instanceBase.index =
        (r.instanceBase + total offsets).index % (8 * pointerBytes) ∧
      (a.bit ≤ 7 →
        offsets.foldl .nest (r.setInstanceBase a) = r.setInstanceBase (a + total offsets))) ∧
    ∀ m offsets m', Machine.Nested m offsets m' →
      m'.registers.ar2 = (offsets.foldl .nest m.registers).ar2 ∧
      m'.registers.instanceBase = m.registers.instanceBase + total offsets := by
  refine ⟨⟨bit_add_le a b, index_add a b⟩, ⟨a.add_comm b, a.add_assoc b c⟩, add_zero_eq_iff,
    toPointer_add_of_bit_le, ?_, ?_⟩
  · intro r offsets
    exact ⟨r.index_foldl_nest, r.foldl_nest⟩
  · intro m offsets m' h
    exact ⟨h.ar2_eq, h.instanceBase_eq⟩

namespace NestedInstances

def call (offset : BitAddress) : CallSite where
  callee := ⟨.functionBlock, 1, "", 0, []⟩
  raw := false
  instanceBlock := none
  nestedBase := some offset
  bindings := []

theorem nestsAt_call (offset : BitAddress) : (call offset).NestsAt offset := ⟨rfl, rfl, rfl, rfl⟩

def caller : Machine :=
  (Machine.ofSpecs ⟨0⟩ ⟨16, 4, 4, 1, 1, 1, 1⟩).run
    [.begin ⟨.organization, 1, "", 2, []⟩, .memory (.addBlock 7 40), .setRegisters ⟨0, 7, 0⟩,
      .setInstanceBase ⟨16, 3⟩]

/-- The controllers in the two blocks of a chain of calls. The first block opens another data block before it
goes on. -/
def outer : Machine := (caller.enter (call ⟨1, 6⟩)).2
def inner : Machine := ((outer.run [.openBlock 7]).enter (call ⟨2, 7⟩)).2

theorem nested_inner : Machine.Nested caller [⟨1, 6⟩, ⟨2, 7⟩] inner := by
  have houter : caller.enter (call ⟨1, 6⟩) = (.ok (), outer) := by decide +kernel
  have hinner : (outer.run [.openBlock 7]).enter (call ⟨2, 7⟩) = (.ok (), inner) := by decide +kernel
  have hkept : (outer.run [.openBlock 7]).registers.ar2 = outer.registers.ar2 := by decide +kernel
  have hend : (inner.run []).registers.ar2 = inner.registers.ar2 := rfl
  exact .within (nestsAt_call _) houter hkept (.within (nestsAt_call _) hinner hend (.here inner))

end NestedInstances

open NestedInstances in
/-- Bits carry into bytes and out of the pointer, and from one instance into the next. -/
theorem BitAddress.add_modular_carries :
    (⟨0x1FFFFF, 7⟩ + ⟨0, 1⟩ : BitAddress).toPointer.toNat = 0 ∧
      inner.registers.instanceBase = ⟨21, 0⟩ := by
  obtain ⟨-, -, -, hpointer, -, hnested⟩ := add_modular ⟨0x1FFFFF, 7⟩ ⟨0, 1⟩ ⟨0, 0⟩
  refine ⟨hpointer (by decide) (by decide), ?_⟩
  rw [(hnested _ _ _ nested_inner).2]
  decide +kernel

end PlcMachine
