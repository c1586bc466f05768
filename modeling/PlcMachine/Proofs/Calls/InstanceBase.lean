import PlcMachine.Proofs.Machine.History
import PlcMachine.Proofs.Machine.Instance

/-! # Where an instance starts

The instance of a stateful call starts at a sum of bit addresses, and its parameters lie at further sums.
All of them are formed modulo the number of bits that a byte number of 32 bits can name, and what the
range check and the register see is the remainder.
-/

namespace PlcMachine

def CallSite.base (site : CallSite) : BitAddress := site.nestedBase.getD ⟨0, 0⟩

/-- The bit at which the instance of a call starts: in the data block that the call names, or else counted
from the caller's instance. -/
def CallSite.baseIndex (site : CallSite) (m : Machine) : Nat :=
  site.base.index + if site.instanceBlock.isSome then 0 else m.registers.instanceBase.index

namespace Machine

variable {m m' : Machine} {site : CallSite} {d : InstanceData}

theorem instanceFor_cases (h : m.instanceFor site = .ok (some d)) (hraw : site.raw = false) :
    (∃ block, site.instanceBlock = some block ∧ d = ⟨block, site.base⟩) ∨
      ∃ offset, site.instanceBlock = none ∧ site.nestedBase = some offset ∧
        d = ⟨m.registers.di, m.registers.instanceBase + offset⟩ := by
  unfold instanceFor at h
  rw [hraw] at h
  split_ifs at h with hs hraw'
  · exact hraw'.elim
  · split at h
    · cases h
    · next d' hd =>
      split_ifs at h
      cases h
      unfold CallSite.selectedInstance at hd
      split at hd
      · next hblock => exact .inl ⟨_, hblock, (Option.some.inj hd).symm⟩
      · next hblock hbase => exact .inr ⟨_, hblock, hbase, (Option.some.inj hd).symm⟩
      · cases hd
  · cases h

theorem index_of_instanceFor (h : m.instanceFor site = .ok (some d)) (hraw : site.raw = false) :
    d.base.index = site.baseIndex m % (8 * UInt32.size) := by
  have hfits := (instanceFor_eq_some h hraw).1
  obtain ⟨block, hblock, rfl⟩ | ⟨offset, hblock, hbase, rfl⟩ := instanceFor_cases h hraw
  · rw [CallSite.baseIndex, hblock]
    exact (Nat.mod_eq_of_lt hfits.index_lt).symm
  · rw [BitAddress.index_add, CallSite.baseIndex, hblock, CallSite.base, hbase, Nat.add_comm]
    rfl

theorem instanceBase_eq_baseIndex_iff (h : m.instanceFor site = .ok (some d)) (hraw : site.raw = false) :
    8 * d.base.byte.toNat + d.base.bit.toNat % 8 = site.baseIndex m ↔
      site.baseIndex m < 8 * UInt32.size ∧ (site.instanceBlock = none ∨ site.base.bit ≤ 7) := by
  have hindex := index_of_instanceFor h hraw
  have hlt := (instanceFor_eq_some h hraw).1.index_lt
  have hbit : d.base.bit ≤ 7 ↔ site.instanceBlock = none ∨ site.base.bit ≤ 7 := by
    obtain ⟨block, hblock, rfl⟩ | ⟨offset, hblock, -, rfl⟩ := instanceFor_cases h hraw
    · simp [hblock]
    · exact iff_of_true (BitAddress.bit_ofIndex_le _) (.inl hblock)
  rw [← hbit]
  simp only [UInt8.le_iff_toNat_le, UInt8.reduceToNat]
  unfold BitAddress.index at hindex hlt
  constructor
  · intro he
    have hle : site.baseIndex m < 8 * UInt32.size := by omega
    rw [Nat.mod_eq_of_lt hle] at hindex
    exact ⟨hle, by omega⟩
  · rintro ⟨hle, hbit⟩
    rw [Nat.mod_eq_of_lt hle] at hindex
    omega

/-- An instance that a call has entered starts at the remainder of a sum of bit addresses, and its parameters
are written at remainders. A remainder is the sum itself exactly if the sum is one that a byte number
of 32 bits can name; the register, moreover, takes the bit number of a given base modulo 8. -/
theorem enter_instanceBase (henter : m.enter site = (.ok (), m')) (hraw : site.raw = false)
    (hs : site.callee.isStateful = true) :
    ∃ d plan, m.instanceFor site = .ok (some d) ∧ m.plan (site.point m) site (some d) = .ok plan ∧
      (m.makeWrites plan.writes).1 = none ∧ m'.memory = (m.makeWrites plan.writes).2.memory ∧
      d.base.FitsPointer ∧ d.base.index = site.baseIndex m % (8 * UInt32.size) ∧
      m'.registers.instanceBase.index = 8 * d.base.byte.toNat + d.base.bit.toNat % 8 ∧
      (m'.registers.instanceBase.index = site.baseIndex m ↔
        site.baseIndex m < 8 * UInt32.size ∧ (site.instanceBlock = none ∨ site.base.bit ≤ 7)) ∧
      ∀ b ∈ site.bindings, b.direction.isInbound = true →
        ∃ p offset v, site.callee.parameter? b.parameter.name = some p ∧
          .instanceData d.block offset (p.supplyWidth b.direction) v ∈ plan.writes ∧
          offset.index = (site.baseIndex m + p.offset.index) % (8 * UInt32.size) ∧
          (offset.index = site.baseIndex m + p.offset.index ↔
            site.baseIndex m + p.offset.index < 8 * UInt32.size) := by
  obtain ⟨d?, stack, plan, written, h⟩ := enters_of_ok henter
  have hsome : d?.isNone = false := by rw [isNone_of_instanceFor h.instanceData, hs]; rfl
  obtain ⟨d, rfl⟩ := Option.isSome_iff_exists.mp (Option.isNone_eq_false_iff.mp hsome)
  have hbase : m'.registers.instanceBase.index = 8 * d.base.byte.toNat + d.base.bit.toNat % 8 := by
    rw [h.registers_stateful hraw, Registers.instanceBase_setInstanceBase_eq]
    exact (instanceFor_eq_some h.instanceData hraw).1.index_ofPointer_toPointer
  have hindex := index_of_instanceFor h.instanceData hraw
  refine ⟨d, plan, h.instanceData, h.planned, by rw [h.made], ?_, (instanceFor_eq_some h.instanceData hraw).1,
    hindex, hbase, ?_, ?_⟩
  · rw [h.machine, h.made, setCursor_eq]
  · rw [hbase]
    exact instanceBase_eq_baseIndex_iff h.instanceData hraw
  · intro b hb hdir
    obtain ⟨p, actual, hbinds⟩ := exists_binds h.planned hraw hb
    obtain ⟨before, ws, later, hws, hwrites, -⟩ := plan_supplies h.planned hraw hbinds
    have hoffset : (d.base + p.offset).index = (site.baseIndex m + p.offset.index) % (8 * UInt32.size) := by
      rw [BitAddress.index_add, hindex, Nat.mod_add_mod]
    cases hws with
    | nothing hout =>
      rw [show b.direction = .output from hout] at hdir
      cases hdir
    | @write v _ _ _ =>
      refine ⟨p, d.base + p.offset, v, hbinds.declared, ?_, hoffset, ?_⟩
      · rw [hwrites]
        exact List.mem_append_left _ (List.mem_append_right _ (List.mem_singleton_self _))
      · rw [hoffset]
        constructor
        · intro he
          rw [← he]
          exact Nat.mod_lt _ (by decide)
        · exact Nat.mod_eq_of_lt

namespace InstanceBase

def field : Parameter := .scalar "x" 0 ⟨1, 0⟩ 8

/-- A call whose instance is to start 4294967288 bytes into the caller's. -/
def call : CallSite where
  callee := ⟨.functionBlock, 1, "", 0, [field]⟩
  raw := false
  instanceBlock := none
  nestedBase := some ⟨4294967288, 0⟩
  bindings := [⟨field, .immediate (.scalar 5) 8 false, .input⟩]

def caller : Machine :=
  (ofSpecs ⟨0⟩ ⟨16, 4, 4, 1, 1, 1, 1⟩).run
    [.begin ⟨.organization, 1, "", 2, []⟩, .memory (.addBlock 7 10), .setRegisters ⟨0, 7, 0⟩,
      .setInstanceBase ⟨16, 0⟩]

end InstanceBase

open InstanceBase in
/-- The call enters its block with an instance at the eighth byte. -/
theorem enter_instanceBase_reduced : call.baseIndex caller = 64 + 8 * UInt32.size ∧
    ∃ d, caller.instanceFor call = .ok (some d) ∧ d.base.index = 64 ∧
      (caller.enter call).2.registers.instanceBase.index ≠ call.baseIndex caller := by
  have hsum : call.baseIndex caller = 64 + 8 * UInt32.size := by decide +kernel
  obtain ⟨d, plan, hd, -, -, -, -, hindex, -, hiff, -⟩ := enter_instanceBase
    (by decide +kernel : caller.enter call = (.ok (), (caller.enter call).2)) rfl rfl
  refine ⟨hsum, d, hd, ?_, ?_⟩
  · rw [hindex, hsum]
    decide
  · intro he
    have hlt := (hiff.mp he).1
    rw [hsum] at hlt
    exact absurd hlt (by decide)

end Machine

end PlcMachine
