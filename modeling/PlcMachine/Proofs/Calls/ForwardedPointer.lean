import PlcMachine.Proofs.Machine.Bits
import PlcMachine.Proofs.Machine.StackInvariant

/-! # Pointers passed on

A formal parameter that is passed on keeps its value, and a pointer in it keeps its bits. But local and
outer data are named as the holder of the pointer sees them, so the same bits lead to another frame one
call further up.
-/

namespace PlcMachine

namespace Machine

variable {m m' : Machine}

namespace Enters

variable {site : CallSite} {d : Option InstanceData} {stack : LocalStack} {plan : Plan}
  {written : Machine} (h : m.Enters site d stack plan written m')
include h

theorem di_eq (hs : site.callee.isStateful = false) : m'.registers.di = m.registers.di := by
  obtain rfl := h.instanceData_eq_none hs
  rw [h.machine]
  unfold calleeRegisters
  split_ifs <;> rfl

theorem fetch_forwarded (hm : m.Reachable) (hraw : site.raw = false)
    (hs : site.callee.isStateful = false) {b : Binding} (hb : b ∈ site.bindings) {i : UInt32}
    (hi : b.actual = .slot i) {p : Parameter}
    (hp : site.callee.parameter? b.parameter.name = some p) :
    0 < m.depth ∧ m'.fetch (.slot p.index) = m.fetch (.slot i) := by
  obtain ⟨cursor, actual, δ, hactual, hδ, hslot, hread, -⟩ := h.delivers hm.allocates hs hraw hb hp
  rw [hi] at hactual
  have hbind : actual.Bindable := hm.bindable hactual
  refine ⟨depth_pos_of_slot hactual, ?_⟩
  rw [fetch_of_unslot hactual hbind, fetch_of_unslot (unslot_of_slot hslot) hδ.bindable]
  have hmemory := h.memory_stateless hm.allocates hs
  cases actual with
  | slot _ | immediate _ _ _ => exact hbind.elim
  | block kind number =>
    cases hδ with
    | direct => rfl
    | «alias» hpass | copy hpass | pointerToCopy hpass | pointer hpass => cases hpass
  | memory l =>
    obtain ⟨hdirect, harea, hdi⟩ | ⟨hcopy, harea⟩ := Location.Bindable.passing hbind
    · have hpassing : (Operand.memory l).passing = .direct := hdirect
      cases hδ with
      | direct => exact readAccess_of_memory_eq hmemory harea hdi
      | «alias» hpass | copy hpass | pointerToCopy hpass | pointer hpass =>
        cases hpassing.symm.trans hpass
    · have hpassing : (Operand.memory l).passing = .copy := hcopy
      cases hδ with
      | direct hpass | «alias» hpass | pointerToCopy hpass | pointer hpass =>
        cases hpassing.symm.trans hpass
      | copy _ hw hv _ =>
        obtain ⟨-, hfetch⟩ := resolve_eq_ok.mp hv
        have hcanonical := (canonical_of_readAccess hfetch).2
        rw [hfetch, fetch_memory]
        have hcopied := hread _ _ _ (List.mem_singleton_self _)
        rwa [hcanonical] at hcopied

end Enters

/-- A pointer that is passed on leads to a location of the same name, which is in the same place exactly
if its area does not depend on the frame. -/
theorem follow_forwarded {site : CallSite} (hm : m.Reachable) (henter : m.enter site = (.ok (), m'))
    (hraw : site.raw = false) (hs : site.callee.isStateful = false) {b : Binding}
    (hb : b ∈ site.bindings) {i : UInt32} (hi : b.actual = .slot i) {p : Parameter}
    (hp : site.callee.parameter? b.parameter.name = some p) (width : UInt32) (compound : Bool) :
    m'.follow (.slot p.index) width compound = m.follow (.slot i) width compound ∧
      ∀ l, m.follow (.slot i) width compound = .ok l →
        (m'.home? l.area = m.home? l.area ↔ l.area.isFrameRelative = false) := by
  obtain ⟨d, stack, plan, written, henters⟩ := enters_of_ok henter
  obtain ⟨hpos, hfetch⟩ := henters.fetch_forwarded hm hraw hs hb hi hp
  constructor
  · unfold follow
    rw [hfetch]
  · intro l _
    have hdepth := henters.depth_eq
    have hdi := henters.di_eq hs
    cases l.area with
    | localData =>
      simp only [home?, hdepth, Area.isFrameRelative, Bool.true_eq_false, iff_false]
      rw [if_pos (Nat.succ_pos _), if_pos hpos, Option.some.injEq, Home.frame.injEq]
      omega
    | outerData =>
      simp only [home?, hdepth, Area.isFrameRelative, Bool.true_eq_false, iff_false]
      rw [if_pos (by omega)]
      split_ifs
      · rw [Option.some.injEq, Home.frame.injEq]
        omega
      · exact not_false
    | instanceData => simp [home?, hdi, Area.isFrameRelative]
    | input | output | flag | dataBlock _ | timer | counter | peripheralIn | peripheralOut =>
      simp [home?, Area.isFrameRelative]

namespace ForwardedPointer

def block (number : UInt16) (compound : Bool) (width : UInt32) : Block :=
  ⟨.function, number, "", 2, [⟨"p", 0, ⟨0, 0⟩, width, compound, false⟩]⟩

def call (callee : Block) (actual : Operand) : CallSite :=
  ⟨callee, false, none, none, callee.parameters.map (⟨·, actual, .input⟩)⟩

def temporary (compound : Bool) : Operand := .memory ⟨⟨.localData, ⟨0, 0⟩, 8⟩, compound⟩

/-- A controller in a block that got a pointer to its caller's first byte, with data of its own. -/
def holder : Machine :=
  (ofSpecs ⟨0⟩ ⟨16, 4, 4, 1, 1, 1, 1⟩).run
    [.begin ⟨.organization, 1, "", 8, []⟩, .store (temporary false) (.scalar 0x11),
      .enter (call (block 1 true 8) (temporary true)), .store (temporary false) (.scalar 0x22)]

def onward : CallSite := call (block 2 false 48) (.slot 0)

end ForwardedPointer

open ForwardedPointer in
/-- Both blocks name outer data, but the second finds the data of the first there. -/
theorem follow_forwarded_outer :
    (holder.enter onward).2.follow (.slot 0) 8 false = .ok ⟨⟨.outerData, ⟨0, 0⟩, 8⟩, false⟩ ∧
      (holder.enter onward).2.home? .outerData ≠ holder.home? .outerData ∧
      holder.fetch (.memory ⟨⟨.outerData, ⟨0, 0⟩, 8⟩, false⟩) = .ok (.scalar 0x11) ∧
      (holder.enter onward).2.fetch (.memory ⟨⟨.outerData, ⟨0, 0⟩, 8⟩, false⟩) = .ok (.scalar 0x22) := by
  have hreachable : holder.Reachable := (Reachable.start _ _).run _
  have henter : holder.enter onward = (.ok (), (holder.enter onward).2) := by decide +kernel
  have hpointer : holder.follow (.slot 0) 8 false = .ok ⟨⟨.outerData, ⟨0, 0⟩, 8⟩, false⟩ := by
    decide +kernel
  obtain ⟨hfollow, hhome⟩ := follow_forwarded hreachable henter rfl rfl (List.mem_singleton_self _) rfl
    (rfl : onward.callee.parameter? "p" = some ⟨"p", 0, ⟨0, 0⟩, 48, false, false⟩) 8 false
  refine ⟨hfollow.trans hpointer, ?_, by decide +kernel, by decide +kernel⟩
  intro he
  exact absurd ((hhome _ hpointer).mp he) (by decide)

end Machine

end PlcMachine
