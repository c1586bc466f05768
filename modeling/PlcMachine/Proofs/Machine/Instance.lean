import PlcMachine.Proofs.Machine.Entering
import PlcMachine.Proofs.Program.Pointer

/-! # Entering a stateful block

All writes of a stateful call go to the one data block that the instance is in. They leave every bit that
none of them covers, and what one of them writes is there if no later one covers it.
-/

namespace PlcMachine.Machine

section Writes

variable {m m' : Machine} {block : UInt16} {s : ByteStore} {ws : List StagedWrite}

theorem makeWrites_append {before later : List StagedWrite}
    (h : m.makeWrites (before ++ later) = (none, m')) :
    ∃ m₁, m.makeWrites before = (none, m₁) ∧ m₁.makeWrites later = (none, m') := by
  induction before generalizing m with
  | nil => exact ⟨m, rfl, h⟩
  | cons w before ih =>
    cases hmake : m.makeWrite w with
    | error _ =>
      rw [List.cons_append, makeWrites, hmake] at h
      cases h
    | ok m₁ =>
      have hcons (vs : List StagedWrite) : m.makeWrites (w :: vs) = m₁.makeWrites vs := by
        rw [makeWrites, hmake]
      rw [List.cons_append, hcons] at h
      rw [hcons]
      exact ih h

theorem setBytes_block_self (hs : m.memory.bytes? (.dataBlock block) = some s) :
    m = { m with memory := m.memory.setBlock ⟨block, s⟩ } := by
  rw [Memory.setBlock_self hs]

theorem makeWrite_supply {w : StagedWrite} (hs : m.memory.bytes? (.dataBlock block) = some s)
    (hw : w.IsSupply block) (h : m.makeWrite w = .ok m') :
    ∃ s', m' = { m with memory := m.memory.setBlock ⟨block, s'⟩ } ∧ s'.size = s.size ∧
      ∀ i, ¬ w.access.Covers i → s'.bitAt i = s.bitAt i := by
  cases w with
  | callerStack _ _ _ => exact hw.elim
  | instanceData block' offset width value =>
    obtain rfl : block' = block := hw
    obtain ⟨memory, hmemory, hr⟩ := bind_eq_ok.mp h
    cases pure_eq_ok.mp hr
    obtain ⟨s₀, s', hs₀, hwrite, rfl⟩ := Memory.write_dataBlock.mp hmemory
    obtain rfl := Option.some.inj (hs₀.symm.trans hs)
    exact ⟨s', rfl, ByteStore.size_write hwrite, fun i hi => ByteStore.bitAt_of_write hwrite hi⟩

theorem makeWrites_supplies (hs : m.memory.bytes? (.dataBlock block) = some s)
    (hws : ∀ w ∈ ws, w.IsSupply block) :
    ∃ s', (m.makeWrites ws).2 = { m with memory := m.memory.setBlock ⟨block, s'⟩ } ∧
      s'.size = s.size ∧ ∀ i, (∀ w ∈ ws, ¬ w.access.Covers i) → s'.bitAt i = s.bitAt i := by
  induction ws generalizing m s with
  | nil => exact ⟨s, setBytes_block_self hs, rfl, fun _ _ => rfl⟩
  | cons w ws ih =>
    obtain ⟨hw, hrest⟩ := List.forall_mem_cons.mp hws
    unfold makeWrites
    split
    · next m₁ hmake =>
      obtain ⟨s₁, rfl, hsize₁, hbits₁⟩ := makeWrite_supply hs hw hmake
      have hs₁ : (m.memory.setBlock ⟨block, s₁⟩).bytes? (.dataBlock block) = some s₁ := by
        simp [Memory.bytes?, Memory.block?_setBlock]
      obtain ⟨s', hmade, hsize, hbits⟩ := ih (m := { m with memory := m.memory.setBlock ⟨block, s₁⟩ }) hs₁ hrest
      refine ⟨s', ?_, hsize.trans hsize₁, ?_⟩
      · rw [hmade]
        simp only [Memory.setBlock_setBlock]
      · intro i hi
        obtain ⟨hi₀, hi⟩ := List.forall_mem_cons.mp hi
        exact (hbits i hi).trans (hbits₁ i hi₀)
    · exact ⟨s, setBytes_block_self hs, rfl, fun _ _ => rfl⟩

theorem read_of_makeWrites {before later : List StagedWrite} {offset : BitAddress} {width : UInt32}
    {value : Value}
    (h : m.makeWrites (before ++ [.instanceData block offset width value] ++ later) = (none, m'))
    (hlater : ∀ w ∈ later, w.IsSupply block ∧
      ∀ i, Access.Covers ⟨.dataBlock block, offset, width⟩ i → ¬ w.access.Covers i) :
    m'.memory.read ⟨.dataBlock block, offset, width⟩ = .ok value.canonical := by
  obtain ⟨m₂, h₂, hlast⟩ := makeWrites_append h
  obtain ⟨m₁, -, hwrite⟩ := makeWrites_append h₂
  unfold makeWrites at hwrite
  split at hwrite
  · next m₂' hmake =>
    cases hwrite
    obtain ⟨memory, hmemory, hr⟩ := bind_eq_ok.mp hmake
    cases pure_eq_ok.mp hr
    have hread := Memory.read_of_write hmemory
    obtain ⟨_, s, -, -, rfl⟩ := Memory.write_dataBlock.mp hmemory
    have hs : (m₁.memory.setBlock ⟨block, s⟩).bytes? (.dataBlock block) = some s := by
      simp [Memory.bytes?, Memory.block?_setBlock]
    obtain ⟨s', hmade, hsize, hbits⟩ := makeWrites_supplies
      (m := { m₁ with memory := m₁.memory.setBlock ⟨block, s⟩ }) hs fun w hw => (hlater w hw).1
    rw [hlast] at hmade
    dsimp only at hmade
    rw [hmade, ← hread]
    refine Memory.read_setBlock hs hsize fun _ i hi => hbits i ?_
    intro w hw
    exact (hlater w hw).2 i hi
  · cases hwrite

end Writes

variable {m m' : Machine} {site : CallSite} {d : InstanceData} {stack : LocalStack} {plan : Plan}
  {written : Machine}

theorem instanceFor_eq_some (h : m.instanceFor site = .ok (some d)) (hraw : site.raw = false) :
    d.base.FitsPointer ∧ ∃ s, m.memory.bytes? (.dataBlock d.block) = some s := by
  unfold instanceFor at h
  rw [hraw] at h
  split_ifs at h with hs hraw'
  · exact hraw'.elim
  · split at h
    · cases h
    · split_ifs at h with hfits hblock
      cases h
      obtain ⟨b, hb⟩ := Option.ne_none_iff_exists'.mp (by simpa using hblock)
      exact ⟨hfits, b.bytes, by simp [Memory.bytes?, hb]⟩
  · cases h

namespace Enters

variable (h : m.Enters site (some d) stack plan written m') (hraw : site.raw = false)
include h

theorem isSupply : ∀ w ∈ plan.writes, w.IsSupply d.block := fun _ hw =>
  (suppliesAt_of_mem_writes h.planned hw).1

include hraw

/-- The staged writes of a stateful call change the contents of the instance's data block only, where
they supply them. -/
theorem written_stateful : ∃ s s', m.memory.bytes? (.dataBlock d.block) = some s ∧
    written = { m with memory := m.memory.setBlock ⟨d.block, s'⟩ } ∧ s'.size = s.size ∧
    ∀ i, (∀ index a, site.SuppliesAt d index a → ¬ a.Covers i) → s'.bitAt i = s.bitAt i := by
  obtain ⟨-, s, hs⟩ := instanceFor_eq_some h.instanceData hraw
  obtain ⟨s', hmade, hsize, hbits⟩ := makeWrites_supplies hs h.isSupply
  rw [h.made] at hmade
  refine ⟨s, s', hs, hmade, hsize, fun i hi => hbits i fun w hw => ?_⟩
  obtain ⟨-, index, hplace⟩ := suppliesAt_of_mem_writes h.planned hw
  exact hi index _ hplace

theorem memory_stateful : ∃ s s', m.memory.bytes? (.dataBlock d.block) = some s ∧
    m'.memory = m.memory.setBlock ⟨d.block, s'⟩ ∧ s'.size = s.size ∧
    ∀ i, (∀ index a, site.SuppliesAt d index a → ¬ a.Covers i) → s'.bitAt i = s.bitAt i := by
  obtain ⟨s, s', hs, hwritten, hsize, hbits⟩ := h.written_stateful hraw
  refine ⟨s, s', hs, ?_, hsize, hbits⟩
  rw [h.machine, setCursor_eq, hwritten]

theorem frames_stateful : m'.frames = m.newFrame site (some d) plan stack :: m.frames := by
  have hcursor : plan.cursor = m.start := (plan_stateful h.planned).cursor
  obtain ⟨_, _, -, hwritten, -, -⟩ := h.written_stateful hraw
  rw [h.frames, hcursor, hwritten]
  unfold start mark
  cases m.frames <;> rfl

theorem registers_stateful : m'.registers =
    ({ m.registers with db := m.registers.di, di := d.block } : Registers).setInstanceBase d.base := by
  have hopen : plan.openBlock = none := (plan_stateful h.planned).openBlock
  rw [h.machine]
  simp [calleeRegisters, hraw, hopen, Registers.setInstanceBase]

theorem instanceBase_stateful (hbit : d.base.bit ≤ 7) : m'.registers.instanceBase = d.base := by
  rw [h.registers_stateful hraw]
  exact Registers.instanceBase_setInstanceBase _ (instanceFor_eq_some h.instanceData hraw).1 hbit

theorem instanceAccess_stateful (hbit : d.base.bit ≤ 7) (p : Parameter) (width : UInt32) :
    m'.instanceAccess p width = ⟨.dataBlock d.block, d.base + p.offset, width⟩ := by
  have hbase := h.instanceBase_stateful hraw hbit
  have hdi : m'.registers.di = d.block := by rw [h.registers_stateful hraw]; rfl
  rw [instanceAccess, hbase, hdi]

theorem read_supply {b : Binding} {p : Parameter} {actual : Operand} (hb : site.Binds m b p actual)
    (hdir : b.direction.isInbound = true)
    (hlater : ∀ index a, p.index < index → site.SuppliesAt d index a →
      ∀ i, (d.supply p b.direction).Covers i → ¬ a.Covers i) :
    ∃ v, Planning.Supplies m { b with parameter := p } actual v ∧
      m'.memory.read (d.supply p b.direction) = .ok v.canonical := by
  obtain ⟨before, ws, later, hws, hwrites, hbehind⟩ := plan_supplies h.planned hraw hb
  cases hws with
  | nothing hout =>
    rw [show b.direction = .output from hout] at hdir
    cases hdir
  | write _ hv _ =>
    have hmade := h.made
    rw [hwrites] at hmade
    refine ⟨_, hv, ?_⟩
    rw [h.machine, setCursor_eq]
    change written.memory.read _ = _
    refine read_of_makeWrites hmade fun w hw => ⟨?_, ?_⟩
    · exact h.isSupply w (hwrites ▸ List.mem_append_right _ hw)
    · obtain ⟨index, hlt, hplace⟩ := hbehind w hw
      exact hlater index _ hlt hplace

end Enters

end PlcMachine.Machine
