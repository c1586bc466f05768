import PlcMachine.Proofs.Machine.StackInvariant

/-! # Calls that fail

Planning foresees every write that fails but one: a copy of an empty constant has a width that no slot
can have. A call that fails otherwise leaves no trace, and one that fails there leaves the copies that
were planned before.
-/

namespace PlcMachine

/-- The copies that are made before the first one of an empty constant. -/
def Plan.copied (plan : Plan) : List StagedWrite := plan.writes.takeWhile (·.access.width ≠ 0)

namespace Machine

variable {m m' : Machine} {ws : List StagedWrite} {site : CallSite}

theorem makeWrites_checked (h : ∀ w ∈ ws, w.Checked m.memory) : (m.makeWrites ws).1 = none := by
  induction ws generalizing m with
  | nil => rfl
  | cons w ws ih =>
    obtain ⟨hw, hws⟩ := List.forall_mem_cons.mp h
    cases w with
    | callerStack _ _ _ => exact hw.elim
    | instanceData block offset width value =>
      obtain ⟨hcheck, hfit⟩ := hw
      obtain ⟨s, hs, hwithin⟩ := Memory.checkBlock_eq_ok.mp hcheck
      have hwrite : m.memory.write ⟨.dataBlock block, offset, width⟩ value = .ok _ :=
        Memory.write_eq_ok.mpr (.inl ⟨s, _, hs, ByteStore.write_of_within hwithin hfit, rfl⟩)
      unfold makeWrites makeWrite
      dsimp only
      rw [hwrite]
      refine ih fun w' hw' => ?_
      have hchecked := hws w' hw'
      cases w' with
      | callerStack _ _ _ => exact hchecked
      | instanceData _ _ _ _ =>
        exact ⟨(Memory.FitsIn.of_blank_eq (Memory.blank_of_write hwrite)).checkBlock hchecked.1, hchecked.2⟩

theorem width_of_makeWrite {w : StagedWrite} (hw : w.IsCopy) (h : m.makeWrite w = .ok m') :
    w.access.width ≠ 0 := by
  cases w with
  | instanceData _ _ _ _ => exact hw.elim
  | callerStack offset width value =>
    intro h0
    obtain ⟨f, rest, bytes, -, hwrite, -⟩ := makeWrite_copy h
    have hpos := (ByteStore.write_eq_ok.mp hwrite).1.width_pos
    rw [show width = 0 from h0] at hpos
    exact Nat.lt_irrefl _ hpos

theorem exists_makeWrite {w : StagedWrite} {c c' : Cursor} (h : w.Fresh c c' m.room)
    (hw : w.access.ValidWidth) : ∃ m', m.makeWrite w = .ok m' := by
  cases w with
  | instanceData _ _ _ _ => exact h.elim
  | callerStack offset width value =>
    obtain ⟨hfit, hgives⟩ := h
    have hwithin := hgives.within hw
    cases hf : m.frames with
    | nil =>
      have hroom : m.room = 0 := by simp [room, hf]
      exact absurd (hroom ▸ hwithin) (Access.not_within_zero _)
    | cons f rest =>
      have hroom : m.room = f.stack.bytes.size := by
        simp [room, hf, LocalStack.capacity]
      have hwrite := ByteStore.write_of_within (hroom ▸ hwithin) hfit
      exact ⟨_, (writeAccess_localData hf rfl).mpr ⟨_, hwrite, rfl⟩⟩

/-- Copies in room that was handed out are made up to the first of an empty constant. -/
theorem makeWrites_fresh {c c' : Cursor} (hfresh : ∀ w ∈ ws, w.Fresh c c' m.room)
    (hwidth : ∀ w ∈ ws, w.access.ValidWidth ∨ w.access.width = 0) :
    (∀ w ∈ ws, w.access.width ≠ 0) ∧ (m.makeWrites ws).1 = none ∨
      (∃ w ∈ ws, w.access.width = 0) ∧ ∃ e, m.makeWrites ws =
        (some e, (m.makeWrites (ws.takeWhile (·.access.width ≠ 0))).2) := by
  induction ws generalizing m with
  | nil => exact .inl ⟨by simp, rfl⟩
  | cons w ws ih =>
    obtain ⟨hw, hws⟩ := List.forall_mem_cons.mp hfresh
    obtain ⟨hwidth₀, hwidths⟩ := List.forall_mem_cons.mp hwidth
    by_cases h0 : w.access.width = 0
    · right
      refine ⟨⟨w, List.mem_cons_self, h0⟩, ?_⟩
      cases hmake : m.makeWrite w with
      | ok m₁ => exact absurd h0 (width_of_makeWrite hw.isCopy hmake)
      | error e => exact ⟨e, by simp [makeWrites, hmake, h0]⟩
    · obtain ⟨m₁, hmake⟩ := exists_makeWrite hw (hwidth₀.resolve_right h0)
      have hroom := room_of_blank_eq (blank_of_makeWrite hmake)
      have hmakes : ∀ vs, m.makeWrites (w :: vs) = m₁.makeWrites vs := by
        intro vs
        rw [makeWrites, hmake]
      have htake : (w :: ws).takeWhile (·.access.width ≠ 0) =
          w :: ws.takeWhile (·.access.width ≠ 0) := by simp [h0]
      rw [htake, hmakes, hmakes]
      rcases ih (m := m₁) (hroom ▸ hws) hwidths with ⟨hall, hnone⟩ | ⟨⟨w', hw', h0'⟩, herror⟩
      · exact .inl ⟨List.forall_mem_cons.mpr ⟨h0, hall⟩, hnone⟩
      · exact .inr ⟨⟨w', List.mem_cons_of_mem _ hw', h0'⟩, herror⟩

/-- The call gets as far as its staged writes, copies an empty constant, and copies something else
before that which changes the caller's local data. -/
def LeavesCopies (m : Machine) (site : CallSite) : Prop :=
  ∃ stack plan, m.Prepares site none stack plan ∧ (∃ w ∈ plan.writes, w.access.width = 0) ∧
    (m.makeWrites plan.copied).2.frames ≠ m.frames

theorem Reachable.eq_of_unslot {op actual : Operand} {v : Value} {width : UInt32} {compound : Bool}
    (hm : m.Reachable) (h : m.unslot op = .ok actual) (ha : actual = .immediate v width compound) :
    op = actual := by
  subst ha
  cases op with
  | slot i => exact (hm.bindable h).elim
  | immediate _ _ _ | memory _ | block _ _ => exact Except.ok.inj h

theorem Reachable.widths {point : CallPoint} {plan : Plan} (hm : m.Reachable)
    (h : m.plan point site none = .ok plan) : ∀ w ∈ plan.writes, w.access.ValidWidth ∨
      w.access.width = 0 ∧ site.raw = false ∧
        ∃ b ∈ site.bindings, ∃ compound, b.actual = .immediate (.bytes []) 0 compound := by
  intro w hw
  obtain ⟨hraw, b, hb, b', start, actual, d, hactual, hd, hwd⟩ := exists_of_mem_writes h hw
  rcases hd.validWidth_or_empty hwd with hvalid | ⟨h0, compound, he⟩
  · exact .inl hvalid
  · have heq := hm.eq_of_unslot (forwarded_eq_ok.mp hactual) he
    exact .inr ⟨h0, hraw, b, hb, compound, heq.trans he⟩

theorem Reachable.exists_empty {point : CallPoint} {plan : Plan} {w : StagedWrite} (hm : m.Reachable)
    (h : m.plan point site none = .ok plan) (hw : w ∈ plan.writes) (h0 : w.access.width = 0) :
    site.raw = false ∧ ∃ b ∈ site.bindings, ∃ compound, b.actual = .immediate (.bytes []) 0 compound := by
  rcases hm.widths h w hw with hvalid | ⟨-, hempty⟩
  · rcases hvalid with h1 | ⟨hne, -⟩
    · exact absurd (h0.symm.trans h1) (by decide)
    · exact absurd h0 hne
  · exact hempty

/-- The staged writes of a call are all made, or they are made up to an empty constant. -/
theorem Prepares.makeWrites_cases {d : Option InstanceData} {stack : LocalStack} {plan : Plan}
    {e : AccessError} {written : Machine} (hm : m.Reachable) (h : m.Prepares site d stack plan)
    (hw : m.makeWrites plan.writes = (some e, written)) :
    d = none ∧ (∀ w ∈ plan.writes, w.Fresh m.start plan.cursor m.room) ∧
      (∃ w ∈ plan.writes, w.access.width = 0) ∧ written = (m.makeWrites plan.copied).2 := by
  cases d with
  | some d =>
    obtain ⟨ws, hws, hchecked⟩ := (plan_stateful h.planned).writes
    rw [Plan.empty, List.nil_append] at hws
    have hnone := makeWrites_checked (hws ▸ hchecked)
    rw [hw] at hnone
    cases hnone
  | none =>
    obtain ⟨ws, hws, -, hfresh⟩ := (plan_stateless h.planned hm.allocates).writes
    rw [Plan.empty, List.nil_append] at hws
    rw [← hws] at hfresh
    have hwidths := fun w hw => (hm.widths h.planned w hw).imp_right And.left
    rcases makeWrites_fresh hfresh hwidths with ⟨-, hnone⟩ | ⟨hzero, e', he'⟩
    · rw [hw] at hnone
      cases hnone
    · refine ⟨rfl, hfresh, hzero, ?_⟩
      exact congrArg Prod.snd (hw.symm.trans he')

theorem LeavesCopies.frames {e : CallError} (hm : m.Reachable) (hl : m.LeavesCopies site)
    (h : m.enter site = (.error e, m')) : m'.frames ≠ m.frames := by
  obtain ⟨stack, plan, hprep, ⟨w, hw, h0⟩, hne⟩ := hl
  obtain ⟨pool, henter⟩ := hprep.enter
  cases hmade : m.makeWrites plan.writes with
  | mk failure written =>
    rw [hmade] at henter
    cases failure with
    | none => cases henter.symm.trans h
    | some e' =>
      obtain ⟨-, -, -, rfl⟩ := hprep.makeWrites_cases hm hmade
      cases henter.symm.trans h
      exact hne

theorem LeavesCopies.exists_empty (hm : m.Reachable) (hl : m.LeavesCopies site) :
    site.raw = false ∧ site.callee.isStateful = false ∧
      ∃ b ∈ site.bindings, ∃ compound, b.actual = .immediate (.bytes []) 0 compound := by
  obtain ⟨stack, plan, hprep, ⟨w, hw, h0⟩, -⟩ := hl
  have hstateless : site.callee.isStateful = false := by
    simpa using isNone_of_instanceFor hprep.instanceData
  obtain ⟨hraw, hempty⟩ := hm.exists_empty hprep.planned hw h0
  exact ⟨hraw, hstateless, hempty⟩

/-- A call that fails leaves everything but the pool and the caller's free local data as it was. The
local data is as it was too, except when copies were made before one of an empty constant failed. -/
theorem enter_error {e : CallError} (hm : m.Reachable) (h : m.enter site = (.error e, m')) :
    m'.specs = m.specs ∧ m'.registers = m.registers ∧ m'.memory = m.memory ∧
      m'.frames.map Frame.blank = m.frames.map Frame.blank ∧
      m'.frames.drop 1 = m.frames.drop 1 ∧
      (∀ f ∈ m.frames.head?, ∀ f' ∈ m'.frames.head?, ∀ i, ¬ f.stack.cursor.Free i →
        f'.stack.bytes.bitAt i = f.stack.bytes.bitAt i) ∧
      (m'.frames = m.frames ↔ ¬ m.LeavesCopies site) ∧
      (m.LeavesCopies site → site.raw = false ∧ site.callee.isStateful = false ∧
        ∃ b ∈ site.bindings, ∃ compound, b.actual = .immediate (.bytes []) 0 compound) := by
  have hsite : m.LeavesCopies site → _ := LeavesCopies.exists_empty hm
  have hleaves : m'.frames = m.frames → ¬ m.LeavesCopies site := fun hf hl => hl.frames hm h hf
  obtain ⟨d, stack, plan, written, m₁, he, -⟩ | ⟨e', pool, he⟩ |
    ⟨d, stack, plan, e', written, pool, hprep, hw, he⟩ := m.enter_cases site
  · cases he.symm.trans h
  · cases he.symm.trans h
    refine ⟨rfl, rfl, rfl, rfl, rfl, ?_, ⟨hleaves, fun _ => rfl⟩, hsite⟩
    intro f hf f' hf' i _
    rw [Option.mem_unique hf' hf]
  · -- A staged write failed, and those before it stay made.
    cases he.symm.trans h
    obtain ⟨rfl, hfresh, hzero, hcopied⟩ := hprep.makeWrites_cases hm hw
    have hcopies : ∀ w ∈ plan.writes, w.IsCopy := fun w hw => (hfresh w hw).isCopy
    have hblank := m.blank_makeWrites plan.writes
    have hdrop := m.drop_makeWrites plan.writes
    have hmemory := memory_makeWrites (m := m) hcopies
    rw [hw] at hblank hdrop hmemory
    have hspecs : written.specs = m.specs := specs_of_blank_eq hblank
    have hregisters : written.registers = m.registers := registers_of_blank_eq hblank
    have hframes : written.frames.map Frame.blank = _ := frames_of_blank_eq hblank
    refine ⟨hspecs, hregisters, hmemory, hframes, hdrop, ?_, ⟨hleaves, ?_⟩, hsite⟩
    · intro f hf f' hf' i hi
      obtain ⟨rest, hcons⟩ := List.head?_eq_some_iff.mp hf
      obtain ⟨bytes, hmade, -, hbits⟩ := makeWrites_copies hcons hcopies
      rw [hw] at hmade
      subst hmade
      obtain rfl : f.setBytes bytes = f' := Option.some.inj hf'
      refine hbits i fun w hw hc => hi ?_
      have hfree := (hfresh w hw).free hc
      rwa [start, mark, hcons] at hfree
    · intro hnot
      by_contra hne
      exact hnot ⟨stack, plan, hprep, hzero, hcopied ▸ hne⟩

namespace Atomicity

def caller : Machine :=
  (ofSpecs ⟨0⟩ ⟨16, 4, 4, 1, 1, 1, 1⟩).run [.begin ⟨.organization, 1, "", 2, []⟩]

/-- A call that passes a number and, as the next parameter, an empty string. -/
def call : CallSite where
  callee := ⟨.function, 1, "", 0, [.scalar "x" 0 ⟨0, 0⟩ 8, .scalar "y" 1 ⟨0, 0⟩ 8]⟩
  raw := false
  instanceBlock := none
  nestedBase := none
  bindings := [⟨.scalar "x" 0 ⟨0, 0⟩ 8, .immediate (.scalar 5) 8 false, .input⟩,
    ⟨.scalar "y" 1 ⟨0, 0⟩ 8, .immediateBytes [], .input⟩]

end Atomicity

open Atomicity in
/-- The number stays behind in the caller's local data. -/
theorem enter_error_empty :
    (caller.enter call).2.frames ≠ caller.frames ∧ caller.LeavesCopies call := by
  have hreachable : caller.Reachable := (Reachable.start _ _).run _
  have hfails : caller.enter call =
      (.error (.access (call.point caller) none (.invalidWidth .localData 0)),
        (caller.enter call).2) := by decide +kernel
  have hne : (caller.enter call).2.frames ≠ caller.frames := by decide +kernel
  obtain ⟨-, -, -, -, -, -, hframes, -⟩ := enter_error hreachable hfails
  exact ⟨hne, not_not.mp fun hnot => hne (hframes.mpr hnot)⟩

end Machine

end PlcMachine
