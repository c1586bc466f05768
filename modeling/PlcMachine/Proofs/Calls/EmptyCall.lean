import PlcMachine.Proofs.Calls.StatelessParameters

/-! # Calls that do nothing

A stateless block that is left as soon as it is entered leaves no trace. Its outputs are written back,
but each of them brings what its actual holds already.
-/

namespace PlcMachine

theorem Location.ne_localData_of_copy {l : Location} (h : l.passing = .copy) :
    l.area ≠ .localData := by
  obtain ⟨⟨area, offset, width⟩, compound⟩ := l
  cases area <;> cases compound <;> simp_all [Location.passing]

theorem Lent.rewind {fs fs' : List Frame} (h : Lent fs fs') (c : Frame → Cursor) :
    Lent fs (fs'.modifyHead fun f => f.rewind (c f)) := by
  cases h with
  | nil => exact .nil
  | cons hsize hbits => exact .cons hsize hbits

namespace Machine

variable {m m' : Machine} {site : CallSite}

section Returning

variable {d : Option InstanceData} {stack : LocalStack} {plan : Plan} {written : Machine}
  {callers : List Frame} (h : m.Enters site d stack plan written m') (hm : m.Allocates)
  (hs : site.callee.isStateful = false) (hraw : site.raw = false)
  (hf : m'.frames = m.newFrame site d plan stack :: callers)
include h hm hs hraw hf

theorem Enters.returned_stateless :
    (m'.returned (m.newFrame site d plan stack) callers).registers = m.registers ∧
      (m'.returned (m.newFrame site d plan stack) callers).memory = m.memory ∧
      callers.drop 1 = m.frames.drop 1 := by
  refine ⟨?_, h.memory_stateless hm hs, ?_⟩
  · simp [returned, newFrame, hraw]
  · obtain ⟨-, rfl⟩ := List.cons.inj (hf.symm.trans h.frames)
    rw [← h.drop_written]
    cases written.frames <;> rfl

theorem Enters.store_output {o : Outbound} (ho : o ∈ plan.outbound) :
    (({ m' with frames := callers } : Machine).readOutbound o).bind
        ((m'.returned (m.newFrame site d plan stack) callers).store o.actual) =
      .ok (m'.returned (m.newFrame site d plan stack) callers) := by
  obtain rfl := h.instanceData_eq_none hs
  obtain ⟨b, p, l, offset, v, -, hpass, -, hresolve, hw, rfl⟩ := exists_of_mem_outbound h.planned ho
  obtain ⟨hregisters, hmemory, hbelow⟩ := h.returned_stateless hm hs hraw hf
  have hread : m.readAccess l.toAccess = .ok v := (resolve_eq_ok.mp hresolve).2
  have hcopy : m'.readAccess ⟨.outerData, offset, l.width⟩ = .ok v := by
    rw [h.readAccess_copied hm hs hw, (canonical_of_readAccess hread).2]
  have hsource : ({ m' with frames := callers } : Machine).readAccess ⟨.localData, offset, l.width⟩ =
      .ok v := readAccess_local_of_outer hf rfl hcopy
  have hactual := readAccess_of_drop_eq hmemory hregisters hbelow
    (Location.ne_localData_of_copy hpass) hread
  simp only [readOutbound, hsource]
  exact writeAccess_of_readAccess hactual

end Returning

/-- A stateless block that is entered and left at once leaves everything as it was, apart from the
contents of local data that its caller had not handed out. -/
theorem leave_enter (hm : m.Reachable) (henter : m.enter site = (.ok (), m')) (hraw : site.raw = false)
    (hs : site.callee.isStateful = false) :
    ∃ x, m'.leave = (.ok (), x) ∧ x.specs = m.specs ∧ x.registers = m.registers ∧
      x.memory = m.memory ∧ x.depth = m.depth ∧
      x.frames.map Frame.blank = m.frames.map Frame.blank ∧ Lent m.frames x.frames := by
  obtain ⟨d, stack, plan, written, h⟩ := enters_of_ok henter
  have hf := h.frames
  obtain ⟨hregisters, hmemory, -⟩ := h.returned_stateless hm.allocates hs hraw hf
  have hleave := leave_of_unchanged hf fun o ho => h.store_output hm.allocates hs hraw hf ho
  obtain ⟨-, -, hblank, -⟩ := h.leave (.refl _)
  rw [hleave] at hblank
  obtain ⟨pool, hdiscard⟩ := (m'.returned (m.newFrame site d plan stack) _).discard_eq
    (m.newFrame site d plan stack)
  refine ⟨_, hleave, ?_, ?_, ?_, ?_, hblank, ?_⟩
  · rw [hdiscard, ← specs_of_blank_eq h.blank_written, h.machine, setCursor_eq]
    rfl
  · rw [hdiscard]
    exact hregisters
  · rw [hdiscard]
    exact hmemory
  · simpa [depth] using congrArg List.length hblank
  · rw [hdiscard]
    exact (h.lent hm.allocates hs).rewind _

namespace EmptyCall

def bit (area : Area) (number : UInt8) : Operand := .memory ⟨⟨area, ⟨0, number⟩, 1⟩, false⟩

def word (area : Area) : Operand := .memory ⟨⟨area, ⟨0, 0⟩, 16⟩, false⟩

def callee : Block :=
  ⟨.function, 2, "", 1, [.scalar "w" 3 ⟨0, 0⟩ 16, .scalar "b" 0 ⟨0, 0⟩ 1, .scalar "v" 2 ⟨0, 0⟩ 16,
    .scalar "c" 1 ⟨0, 0⟩ 1]⟩

/-- A call whose actuals overlap one another, in a data block and in the caller's outer data. -/
def call : CallSite :=
  ⟨callee, false, none, none, [⟨.scalar "b" 0 ⟨0, 0⟩ 1, bit .outerData 3, .output⟩,
    ⟨.scalar "c" 1 ⟨0, 0⟩ 1, bit (.dataBlock 5) 7, .inOut⟩,
    ⟨.scalar "v" 2 ⟨0, 0⟩ 16, word .outerData, .inOut⟩,
    ⟨.scalar "w" 3 ⟨0, 0⟩ 16, word (.dataBlock 5), .output⟩]⟩

def caller : Machine :=
  (ofSpecs ⟨0⟩ ⟨32, 4, 4, 1, 1, 1, 1⟩).run
    [.begin ⟨.organization, 1, "", 2, []⟩, .memory (.addBlock 5 4),
      .store (word .localData) (.scalar 0x1234), .store (word (.dataBlock 5)) (.scalar 0x5678),
      .enter (.unconditional ⟨.function, 1, "", 3, []⟩)]

end EmptyCall

open EmptyCall in
theorem leave_enter_overlapping : ∃ x, (caller.enter call).2.leave = (.ok (), x) ∧
    x.registers = caller.registers ∧ x.memory = caller.memory ∧ Lent caller.frames x.frames := by
  have hreachable : caller.Reachable := (Reachable.start _ _).run _
  have henter : caller.enter call = (.ok (), (caller.enter call).2) := by decide +kernel
  obtain ⟨x, hleave, -, hregisters, hmemory, -, -, hlent⟩ := leave_enter hreachable henter rfl rfl
  exact ⟨x, hleave, hregisters, hmemory, hlent⟩

end Machine

end PlcMachine
