import PlcMachine.Proofs.Calls.Bracket
import PlcMachine.Proofs.Machine.StackInvariant

/-! # Parameters of stateless blocks

A parameter of a stateless block that is not passed by pointer has the value of its actual. Entering the
block changes no global memory, and of the local data only what the caller had not handed out.
-/

namespace PlcMachine

/-- Of the frames only the first one changed: its cursor, and bits of its local data that were free. -/
inductive Lent : List Frame → List Frame → Prop where
  | nil : Lent [] []
  | cons {f : Frame} {rest : List Frame} {bytes : ByteStore} {cursor : Cursor}
      (size : bytes.size = f.stack.bytes.size)
      (bits : ∀ i, ¬ f.stack.cursor.Free i → bytes.bitAt i = f.stack.bytes.bitAt i) :
      Lent (f :: rest) ({ f with stack := ⟨bytes, cursor⟩ } :: rest)

namespace Machine

variable {m m' : Machine} {site : CallSite} {d : Option InstanceData} {stack : LocalStack} {plan : Plan}
  {written : Machine}

theorem Reachable.fetch_unslot {op actual : Operand} (hm : m.Reachable)
    (h : m.unslot op = .ok actual) : m.fetch op = m.fetch actual := by
  cases op with
  | slot i => exact fetch_of_unslot h (hm.bindable h)
  | immediate _ _ _ | memory _ | block _ _ => rw [← Except.ok.inj h]

namespace Enters

variable (h : m.Enters site d stack plan written m')
include h

theorem registers_stateless (hs : site.callee.isStateful = false) (hraw : site.raw = false) :
    m'.registers = { m.registers with db := plan.openBlock.getD m.registers.db } := by
  obtain rfl := h.instanceData_eq_none hs
  rw [h.machine]
  simp [calleeRegisters, hraw]

theorem lent (hm : m.Allocates) (hs : site.callee.isStateful = false) :
    Lent m.frames (written.frames.modifyHead (·.rewind plan.cursor)) := by
  cases hf : m.frames with
  | nil =>
    have hblank := frames_of_blank_eq h.blank_written
    rw [hf, List.map_nil, List.map_eq_nil_iff] at hblank
    rw [hblank]
    exact .nil
  | cons f rest =>
    obtain ⟨bytes, hwritten, hsize, hbits⟩ := h.bits hm hs hf
    rw [hwritten]
    refine .cons hsize fun i hi => hbits i ?_
    rwa [start, mark, hf]

theorem fetch_passed (hm : m.Allocates) (hs : site.callee.isStateful = false)
    (hraw : site.raw = false) {b : Binding} {p : Parameter} {actual : Operand} {v : Value}
    (hb : site.Binds m b p actual) (hpass : ¬ actual.IsPassedByPointer)
    (htemps : ∀ l, actual = .memory l → l.area = .localData → l.byteEnd ≤ m.reserved)
    (hv : m.fetch actual = .ok v) : m'.fetch (.slot p.index) = .ok v.canonical := by
  obtain ⟨cursor, actual', δ, hactual', hδ, hslot, hread, -⟩ := h.delivers hm hs hraw hb.mem hb.declared
  obtain rfl := Except.ok.inj (hb.resolved.symm.trans hactual')
  rw [fetch_of_unslot (unslot_of_slot hslot) hδ.bindable]
  -- Most kinds of actuals are passed in one way only.
  cases hδ with
  | direct hp =>
    cases actual with
    | slot _ => cases hp
    | immediate _ _ compound => cases compound <;> cases hp
    | block kind number =>
      cases hv
      rfl
    | memory l =>
      obtain ⟨-, hshared, hdi⟩ := Location.bindable_of_direct hp
      have hread : m.readAccess l.toAccess = .ok v := hv
      rw [fetch_memory, readAccess_of_memory_eq (h.memory_stateless hm hs) hshared hdi, hread,
        (canonical_of_readAccess hread).2]
  | «alias» hp =>
    cases actual with
    | slot _ | block _ _ => cases hp
    | immediate _ _ compound => cases compound <;> cases hp
    | memory l =>
      obtain ⟨rfl, harea, -⟩ := Location.local_of_alias hp
      have hread : m.readAccess l.toAccess = .ok v := hv
      rw [(canonical_of_readAccess hread).2]
      exact h.readAccess_reserved hm hs hread harea (htemps l rfl harea)
  | copy _ _ hvalue _ =>
    obtain rfl := Except.ok.inj ((resolve_eq_ok.mp hvalue).2.symm.trans hv)
    exact hread _ _ _ (List.mem_singleton_self _)
  | pointerToCopy hp =>
    cases actual with
    | immediate _ _ compound =>
      cases compound with
      | false => cases hp
      | true => exact absurd rfl hpass
    | memory l => exact absurd hp l.passing_ne_pointerToCopy
    | block _ _ | slot _ => cases hp
  | pointer hp =>
    cases actual with
    | memory l => exact absurd hp (Location.passing_ne_pointer hpass _)
    | immediate _ _ compound => cases compound <;> cases hp
    | block _ _ | slot _ => cases hp

end Enters

/-- What a stateless block finds when it is entered. Each parameter that is not passed by pointer has the
value of its actual; global memory and the registers stay, except that the block of the last simple
actual in a shared data block is open; and only free local data of the caller changed. -/
theorem enter_stateless (hm : m.Reachable) (henter : m.enter site = (.ok (), m'))
    (hraw : site.raw = false) (hs : site.callee.isStateful = false) :
    (∀ b ∈ site.bindings, ∃ p actual, site.Binds m b p actual) ∧
    (∀ b p actual v, site.Binds m b p actual → ¬ actual.IsPassedByPointer →
      (∀ l, actual = .memory l → l.area = .localData → l.byteEnd ≤ m.reserved) →
      m.fetch b.actual = .ok v → m'.fetch (.slot p.index) = .ok v.canonical) ∧
    m'.memory = m.memory ∧
    (∃ callee callers, m'.frames = callee :: callers ∧ Lent m.frames callers) ∧
    m'.registers.di = m.registers.di ∧ m'.registers.ar2 = m.registers.ar2 ∧
    (∀ b p actual number, site.Binds m b p actual → actual.sharedBlock? = some number →
      (∀ b' p' actual', site.Binds m b' p' actual' → actual'.sharedBlock?.isSome →
        p'.index ≤ p.index) → m'.registers.db = number) ∧
    ((∀ b p actual, site.Binds m b p actual → actual.sharedBlock? = none) →
      m'.registers.db = m.registers.db) := by
  obtain ⟨d, stack, plan, written, h⟩ := enters_of_ok henter
  obtain rfl := h.instanceData_eq_none hs
  have hregisters := h.registers_stateless hs hraw
  refine ⟨fun b hb => exists_binds h.planned hraw hb, ?_, h.memory_stateless hm.allocates hs,
    ⟨_, _, h.frames, h.lent hm.allocates hs⟩, by rw [hregisters], by rw [hregisters], ?_, ?_⟩
  · intro b p actual v hb hpass htemps hv
    rw [hm.fetch_unslot hb.resolved] at hv
    exact h.fetch_passed hm.allocates hs hraw hb hpass htemps hv
  · intro b p actual number hb hnumber hhighest
    rw [hregisters, openBlock_of_highest h.planned hraw hb hnumber hhighest]
    rfl
  · intro hnone
    rw [hregisters, openBlock_eq_none h.planned hnone]
    rfl

namespace StatelessParameters

def callee : Block :=
  ⟨.function, 1, "", 0, [.scalar "w" 3 ⟨0, 0⟩ 16, .scalar "n" 0 ⟨0, 0⟩ 8, .scalar "p" 1 ⟨0, 0⟩ 1,
    .scalar "q" 2 ⟨0, 0⟩ 1]⟩

def word : Operand := .memory ⟨⟨.dataBlock 5, ⟨0, 0⟩, 16⟩, false⟩

def bindWord : Binding := ⟨.scalar "w" 3 ⟨0, 0⟩ 16, word, .inOut⟩

/-- A call that copies two bits and a word, and passes a temporary under another name. -/
def call : CallSite :=
  ⟨callee, false, none, none, [bindWord, ⟨.scalar "p" 1 ⟨0, 0⟩ 1, .immediate (.scalar 1) 1 false, .input⟩,
    ⟨.scalar "q" 2 ⟨0, 0⟩ 1, .immediate (.scalar 0) 1 false, .input⟩,
    ⟨.scalar "n" 0 ⟨0, 0⟩ 8, Bracketed.temporary, .input⟩]⟩

def caller : Machine :=
  (ofSpecs ⟨0⟩ ⟨16, 4, 4, 1, 1, 1, 1⟩).run
    [.begin ⟨.organization, 1, "", 2, []⟩, .memory (.addBlock 5 4), .store word (.scalar 0x1234)]

end StatelessParameters

open StatelessParameters in
theorem enter_stateless_word : (caller.enter call).2.fetch (.slot 3) = .ok (.scalar 0x1234) ∧
    (caller.enter call).2.registers.db = 5 ∧ (caller.enter call).2.memory = caller.memory := by
  have hreachable : caller.Reachable := (Reachable.start _ _).run _
  obtain ⟨-, hvalue, hmemory, -, -, -, hopen, -⟩ := enter_stateless hreachable
    (by decide +kernel : caller.enter call = (.ok (), (caller.enter call).2)) rfl rfl
  have hbinds : call.Binds caller bindWord (.scalar "w" 3 ⟨0, 0⟩ 16) word :=
    ⟨List.mem_cons_self, rfl, rfl⟩
  refine ⟨?_, ?_, hmemory⟩
  · refine hvalue _ _ _ (.scalar 0x1234) hbinds (by rintro ⟨⟨⟩, -⟩) ?_ (by decide +kernel)
    rintro l ⟨⟩ ⟨⟩
  · refine hopen _ _ _ 5 hbinds rfl ?_
    intro b' p' actual' hb' _
    have hindex : ∀ q ∈ callee.parameters, q.index ≤ 3 := by decide
    exact hindex p' (List.mem_of_find?_eq_some hb'.declared)

end Machine

end PlcMachine
