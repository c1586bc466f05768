import PlcMachine.Proofs.Machine.Access
import PlcMachine.Proofs.Machine.Bindings
import PlcMachine.Proofs.Machine.Delivery

/-! # What a stateful block gets for an actual

Planning one parameter of a stateful block appends to the plan at most one write to its instance data,
which is checked at once, and at most one output.
-/

namespace PlcMachine

namespace Parameter

def supplyWidth (p : Parameter) (direction : Direction) : UInt32 :=
  if p.compound ∧ direction = .inOut then Pointer.width else p.width

theorem transfer_eq_pointer {p : Parameter} {direction : Direction} {actual : Operand}
    (h : p.transfer direction actual = .pointer) : p.compound = true ∧ direction = .inOut := by
  unfold transfer at h
  split_ifs at h with hc
  exact hc

theorem transfer_of_value {p : Parameter} {direction : Direction} (actual : Operand)
    (hp : ¬ (p.compound = true ∧ direction = .inOut)) (href : p.byReference = false) :
    p.transfer direction actual = .value := by
  simp [transfer, hp, href]

theorem transfer_of_reference {p : Parameter} {direction : Direction} (actual : Operand)
    (hp : ¬ (p.compound = true ∧ direction = .inOut)) (href : p.byReference = true) :
    p.transfer direction actual =
      if actual.isReference then .reference else .refused .byReference := by
  simp [transfer, hp, href]

theorem not_inOut_of_transfer {p : Parameter} {direction : Direction} {actual : Operand}
    (h : p.transfer direction actual = .value ∨ p.transfer direction actual = .reference) :
    ¬ (p.compound = true ∧ direction = .inOut) := by
  intro hc
  unfold transfer at h
  rw [if_pos hc] at h
  split_ifs at h <;> rcases h with h | h <;> cases h

end Parameter

def InstanceData.supply (d : InstanceData) (p : Parameter) (direction : Direction) : Access :=
  ⟨.dataBlock d.block, d.base + p.offset, p.supplyWidth direction⟩

/-- A call puts something into this place of the instance data, for the parameter of that index. -/
def CallSite.SuppliesAt (site : CallSite) (d : InstanceData) (index : UInt32) (a : Access) : Prop :=
  ∃ b ∈ site.bindings, ∃ p, site.callee.parameter? b.parameter.name = some p ∧
    b.direction.isInbound ∧ p.index = index ∧ a = d.supply p b.direction

theorem CallSite.SuppliesAt.area_eq {site : CallSite} {d : InstanceData} {index : UInt32} {a : Access}
    (h : site.SuppliesAt d index a) : a.area = .dataBlock d.block := by
  obtain ⟨_, -, _, -, -, -, rfl⟩ := h
  rfl

namespace StagedWrite

/-- The write goes to instance data and will succeed. -/
def Checked (memory : Memory) : StagedWrite → Prop
  | .instanceData block offset width value =>
    memory.checkBlock block offset width = .ok () ∧ value.Fits width
  | .callerStack _ _ _ => False

def IsSupply (block : UInt16) : StagedWrite → Prop
  | .instanceData block' _ _ _ => block' = block
  | .callerStack _ _ _ => False

end StagedWrite

namespace Planning

def supplied (d : InstanceData) (b : Binding) (value : Value) : StagedWrite :=
  .instanceData d.block (d.base + b.parameter.offset) (b.parameter.supplyWidth b.direction) value

/-- What goes into a parameter of a stateful block. -/
inductive Supplies (m : Machine) (b : Binding) (actual : Operand) : Value → Prop where
  | value {v : Value} (ht : b.parameter.transfer b.direction actual = .value)
      (hw : actual.width? = some b.parameter.width) (hv : m.resolve actual = .ok v) :
      Supplies m b actual v
  | reference (ht : b.parameter.transfer b.direction actual = .reference) :
      Supplies m b actual (.scalar actual.referenceNumber)
  | pointer {l : Location} {pointer : Pointer}
      (ht : b.parameter.transfer b.direction actual = .pointer) (ha : actual = .memory l)
      (hl : Pointer.toCallerLocation? l m.registers.di = some pointer) :
      Supplies m b actual pointer.toValue

inductive Stages (m : Machine) (d : InstanceData) (b : Binding) (actual : Operand) :
    List StagedWrite → Prop where
  | nothing (hdir : b.direction = .output) : Stages m d b actual []
  | write {v : Value} (hdir : b.direction.isInbound) (hv : Supplies m b actual v)
      (hchecked : (supplied d b v).Checked m.memory) : Stages m d b actual [supplied d b v]

inductive Queues (m : Machine) (d : InstanceData) (b : Binding) (actual : Operand) :
    List Outbound → Prop where
  | nothing (h : ¬ (b.direction.isOutbound ∧ b.parameter.transfer b.direction actual = .value)) :
      Queues m d b actual []
  | output {l : Location} (hdir : b.direction.isOutbound)
      (ht : b.parameter.transfer b.direction actual = .value) (ha : actual = .memory l)
      (hcheck : m.memory.checkBlock d.block (d.base + b.parameter.offset) b.parameter.width = .ok ()) :
      Queues m d b actual
        [⟨b.parameter, actual, .instanceData d.block (d.base + b.parameter.offset), b.parameter.width⟩]

variable {c : Planning} {b : Binding} {plan plan' : Plan} {actual : Operand} {d : InstanceData}

theorem inbound_eq_ok {staged : Option (UInt32 × Value)} (h : c.inbound b actual = .ok staged) :
    staged = none ∧ b.direction = .output ∨
      ∃ v, staged = some (b.parameter.supplyWidth b.direction, v) ∧ b.direction.isInbound ∧
        Supplies c.machine b actual v := by
  have houtput : ¬ b.direction.isInbound = true → b.direction = .output := by
    cases b.direction <;> simp [Direction.isInbound]
  unfold inbound at h
  cases ht : b.parameter.transfer b.direction actual with
  | refused reason =>
    rw [ht] at h
    cases h
  | value =>
    have hwidth : b.parameter.supplyWidth b.direction = b.parameter.width :=
      if_neg (Parameter.not_inOut_of_transfer (.inl ht))
    rw [ht] at h
    dsimp only at h
    split_ifs at h with hw hdir
    · cases h
    · obtain ⟨v, hv, h⟩ := bind_eq_ok.mp h
      cases pure_eq_ok.mp h
      exact .inr ⟨v, by rw [hwidth], hdir, .value ht (not_not.mp hw) (access_eq_ok.mp hv)⟩
    · cases h
      exact .inl ⟨rfl, houtput hdir⟩
  | reference =>
    have hwidth : b.parameter.supplyWidth b.direction = b.parameter.width :=
      if_neg (Parameter.not_inOut_of_transfer (.inr ht))
    rw [ht] at h
    dsimp only at h
    cases h
    split_ifs with hdir
    · exact .inr ⟨_, by rw [hwidth], hdir, .reference ht⟩
    · exact .inl ⟨rfl, houtput hdir⟩
  | pointer =>
    have hinOut := Parameter.transfer_eq_pointer ht
    have hwidth : b.parameter.supplyWidth b.direction = Pointer.width := if_pos hinOut
    rw [ht] at h
    dsimp only at h
    split at h
    · next pointer hl =>
      cases h
      obtain ⟨l, ha, hl⟩ := Option.bind_eq_some_iff.mp hl
      cases actual with
      | memory l' =>
        cases ha
        exact .inr ⟨_, by rw [hwidth], by rw [hinOut.2]; rfl, .pointer ht rfl hl⟩
      | immediate _ _ _ | block _ _ | slot _ => cases ha
    · cases h

theorem stageInstance_eq_ok {block : UInt16} {offset : BitAddress} {width : UInt32} {value : Value}
    (h : c.stageInstance b block offset width value plan = .ok plan') :
    StagedWrite.Checked c.machine.memory (.instanceData block offset width value) ∧
      plan' = plan.stage (.instanceData block offset width value) := by
  obtain ⟨⟨⟩, hcheck, h⟩ := bind_eq_ok.mp h
  by_cases hfit : value.Fits width
  · rw [if_neg (not_not_intro hfit)] at h
    cases pure_eq_ok.mp h
    exact ⟨⟨access_eq_ok.mp hcheck, hfit⟩, rfl⟩
  · rw [if_pos hfit] at h
    exact absurd h throw_ne_ok

/-- Binding a parameter of a stateful block stages what goes into it and queues what comes out of it. -/
theorem bindInstance_eq_ok (h : c.bindInstance d plan b = .ok plan') :
    ∃ actual ws os, c.forwarded b.actual = .ok actual ∧ Stages c.machine d b actual ws ∧
      Queues c.machine d b actual os ∧
      plan' = { plan with writes := plan.writes ++ ws, outbound := plan.outbound ++ os } := by
  obtain ⟨actual, hactual, h⟩ := bind_eq_ok.mp h
  obtain ⟨staged, hstaged, h⟩ := bind_eq_ok.mp h
  obtain ⟨ws, hws, h⟩ : ∃ ws, Stages c.machine d b actual ws ∧
      (if b.direction.isOutbound ∧ b.parameter.transfer b.direction actual = .value then
        c.queueInstance b actual d.block (d.base + b.parameter.offset)
          { plan with writes := plan.writes ++ ws }
      else pure { plan with writes := plan.writes ++ ws }) = .ok plan' := by
    obtain ⟨rfl, hdir⟩ | ⟨v, rfl, hdir, hv⟩ := inbound_eq_ok hstaged
    · obtain ⟨plan₁, hpure, h⟩ := bind_eq_ok.mp h
      cases pure_eq_ok.mp hpure
      exact ⟨[], .nothing hdir, by simpa using h⟩
    · obtain ⟨plan₁, hstage, h⟩ := bind_eq_ok.mp h
      obtain ⟨hchecked, rfl⟩ := stageInstance_eq_ok hstage
      exact ⟨_, .write hdir hv hchecked, h⟩
  split_ifs at h with hqueue
  · cases actual with
    | memory l =>
      obtain ⟨⟨⟩, hcheck, h⟩ := bind_eq_ok.mp h
      cases pure_eq_ok.mp h
      exact ⟨_, ws, _, hactual, hws, .output hqueue.1 hqueue.2 rfl (access_eq_ok.mp hcheck), rfl⟩
    | immediate _ _ _ | block _ _ | slot _ => cases h
  · cases pure_eq_ok.mp h
    exact ⟨actual, ws, [], hactual, hws, .nothing hqueue, by simp⟩

theorem Stages.checked {ws : List StagedWrite} {m : Machine} (h : Stages m d b actual ws) :
    ∀ w ∈ ws, w.Checked m.memory ∧ w.IsSupply d.block := by
  cases h with
  | nothing => simp
  | write _ _ hchecked =>
    intro w hw
    rw [List.mem_singleton.mp hw]
    exact ⟨hchecked, rfl⟩

end Planning

end PlcMachine
