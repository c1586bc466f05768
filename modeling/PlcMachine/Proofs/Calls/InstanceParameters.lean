import PlcMachine.Proofs.Calls.Bracket
import PlcMachine.Proofs.Machine.Instance

/-! # Parameters of stateful blocks

A parameter of a stateful block has in the instance data what the call put there: the value of its
actual or the number of a timer, counter or block. Entering the block changes nothing else.
-/

namespace PlcMachine

def CallSite.SuppliesApart (site : CallSite) (d : InstanceData) : Prop :=
  ∀ index index' a a', site.SuppliesAt d index a → site.SuppliesAt d index' a' → index ≠ index' →
    ∀ i, a.Covers i → ¬ a'.Covers i

namespace Machine

variable {m m' : Machine} {site : CallSite} {d : InstanceData} {stack : LocalStack} {plan : Plan}
  {written : Machine}

namespace Enters

variable (h : m.Enters site (some d) stack plan written m') (hraw : site.raw = false)
  (hbit : d.base.bit ≤ 7) (hapart : site.SuppliesApart d) {b : Binding} {p : Parameter}
  {actual : Operand} (hb : site.Binds m b p actual) (hdir : b.direction.isInbound = true)
  (hp : ¬ (p.compound = true ∧ b.direction = .inOut))
include h hraw hbit hapart hb hdir hp

theorem fetch_supplied : ∃ v, Planning.Supplies m { b with parameter := p } actual v ∧
    m'.fetchParameter p = .ok v.canonical := by
  have hwidth : p.supplyWidth b.direction = p.width := if_neg hp
  have hplace : site.SuppliesAt d p.index (d.supply p b.direction) :=
    ⟨b, hb.mem, p, hb.declared, hdir, rfl, rfl⟩
  obtain ⟨v, hv, hread⟩ := h.read_supply hraw hb hdir fun index a hlt ha =>
    hapart _ _ _ _ hplace ha (UInt32.ne_of_lt hlt)
  refine ⟨v, hv, ?_⟩
  rw [InstanceData.supply, hwidth] at hread
  rw [fetchParameter, parameterOperand, h.instanceAccess_stateful hraw hbit]
  exact hread

theorem fetch_value (href : p.byReference = false) :
    ∃ v, m.fetch b.actual = .ok v ∧ m'.fetchParameter p = .ok v.canonical := by
  obtain ⟨v, hv, hfetch⟩ := h.fetch_supplied hraw hbit hapart hb hdir hp
  have htransfer := Parameter.transfer_of_value actual hp href
  refine ⟨v, ?_, hfetch⟩
  cases hv with
  | value _ hw hv =>
    have hslot : ∀ i, actual ≠ .slot i := by
      rintro i rfl
      cases hw
    rw [fetch_of_unslot_of_ne hb.resolved hslot]
    exact (resolve_eq_ok.mp hv).2
  | reference ht | pointer ht => cases htransfer.symm.trans ht

theorem fetch_reference (href : p.byReference = true) :
    actual.isReference = true ∧ m'.fetchParameter p = .ok (.scalar actual.referenceNumber) := by
  obtain ⟨v, hv, hfetch⟩ := h.fetch_supplied hraw hbit hapart hb hdir hp
  have htransfer := Parameter.transfer_of_reference actual hp href
  split_ifs at htransfer with hactual
  · cases hv with
    | reference _ => exact ⟨hactual, hfetch⟩
    | value ht | pointer ht => cases htransfer.symm.trans ht
  · cases hv with
    | reference ht | value ht | pointer ht => cases htransfer.symm.trans ht

end Enters

namespace InstanceParameters

def number : Parameter := .scalar "n" 0 ⟨0, 0⟩ 16

def timer : Parameter := ⟨"t", 1, ⟨2, 0⟩, 16, false, true⟩

def word : Operand := .memory ⟨⟨.dataBlock 7, ⟨2, 0⟩, 16⟩, false⟩

def call : CallSite where
  callee := ⟨.functionBlock, 1, "", 0, [number, timer]⟩
  raw := false
  instanceBlock := some 7
  nestedBase := some ⟨1, 0⟩
  bindings := [⟨timer, .memory ⟨⟨.timer, ⟨3, 0⟩, 16⟩, false⟩, .input⟩, ⟨number, word, .inOut⟩]

def caller : Machine :=
  (ofSpecs ⟨0⟩ ⟨16, 4, 4, 1, 1, 4, 4⟩).run
    [.begin ⟨.organization, 1, "", 2, []⟩, .memory (.addBlock 7 8), .store word (.scalar 0x1234)]

theorem suppliesApart : call.SuppliesApart ⟨7, ⟨1, 0⟩⟩ := by
  have hplace : ∀ index a, call.SuppliesAt ⟨7, ⟨1, 0⟩⟩ index a →
      index = 0 ∧ a = ⟨.dataBlock 7, ⟨1, 0⟩, 16⟩ ∨ index = 1 ∧ a = ⟨.dataBlock 7, ⟨3, 0⟩, 16⟩ := by
    rintro index a ⟨b, hb, p, hp, -, rfl, rfl⟩
    rcases List.mem_pair.mp hb with rfl | rfl
    · cases hp
      exact .inr ⟨rfl, rfl⟩
    · cases hp
      exact .inl ⟨rfl, rfl⟩
  intro index index' a a' ha ha' hne i hi hi'
  have hfirst : BitAddress.index ⟨1, 0⟩ = 8 := rfl
  have hsecond : BitAddress.index ⟨3, 0⟩ = 24 := rfl
  obtain ⟨rfl, rfl⟩ | ⟨rfl, rfl⟩ := hplace _ _ ha <;>
    obtain ⟨rfl, rfl⟩ | ⟨rfl, rfl⟩ := hplace _ _ ha'
  · exact hne rfl
  · simp only [Access.Covers, hfirst, hsecond, UInt32.reduceToNat] at hi hi'
    omega
  · simp only [Access.Covers, hfirst, hsecond, UInt32.reduceToNat] at hi hi'
    omega
  · exact hne rfl

end InstanceParameters

end Machine

end PlcMachine
