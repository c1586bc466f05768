import PlcMachine.Proofs.Calls.Bracket
import PlcMachine.Proofs.Machine.Refusal
import PlcMachine.Proofs.Machine.StackInvariant

/-! # Looking up formal parameters

What a formal parameter stands for is never a formal parameter again. So one lookup is enough to read or
write any operand, and no call is refused because a parameter of the caller stands for another one.
-/

namespace PlcMachine

namespace Operand

theorem Bindable.ne_slot {op : Operand} (h : op.Bindable) (i : UInt32) : op ≠ .slot i := by
  rintro rfl
  exact h

end Operand

namespace Machine

variable {m : Machine} {α : Type}

/-- What `use` gives for an operand if formal parameters are looked up one after another until none is
left, as long as that takes no more than a number of lookups. -/
def lookUp (m : Machine) (use : Operand → Except AccessError α) :
    Nat → Operand → Option (Except AccessError α)
  | 0, .slot _ => none
  | lookups + 1, .slot index =>
    match m.slot index with
    | .ok op => m.lookUp use lookups op
    | .error e => some (.error e)
  | _, op => some (use op)

theorem lookUp_of_ne_slot (use : Operand → Except AccessError α) (lookups : Nat) {op : Operand}
    (h : ∀ i, op ≠ .slot i) : m.lookUp use lookups op = some (use op) := by
  cases op with
  | slot i => exact absurd rfl (h i)
  | immediate _ _ _ | memory _ | block _ _ => cases lookups <;> rfl

theorem fetch_eq_bind (m : Machine) (op : Operand) : m.fetch op = m.unslot op >>= fun actual =>
    match actual with
    | .immediate value _ _ => .ok value
    | .block _ number => .ok (.scalar number.toUInt32)
    | .memory l => m.readAccess l.toAccess
    | .slot index => .error (.unboundSlot index) := rfl

/-- Something that first replaces a formal parameter by what it stands for takes one lookup, if no formal
parameter of the active frame stands for another. -/
theorem lookUp_succ {use : Operand → Except AccessError α} (hslot : ∀ i j, m.slot i ≠ .ok (.slot j))
    (huse : ∃ direct, ∀ op, use op = m.unslot op >>= direct) (lookups : Nat) (op : Operand) :
    m.lookUp use (lookups + 1) op = some (use op) := by
  obtain ⟨direct, huse⟩ := huse
  cases op with
  | immediate _ _ _ | memory _ | block _ _ => rfl
  | slot i =>
    unfold lookUp
    cases hs : m.slot i with
    | error e =>
      rw [huse, unslot, hs]
      rfl
    | ok actual =>
      have hactual : ∀ j, actual ≠ .slot j := by
        rintro j rfl
        exact hslot i j hs
      have hself : m.unslot actual = .ok actual := by
        cases actual with
        | slot j => exact absurd rfl (hactual j)
        | immediate _ _ _ | memory _ | block _ _ => rfl
      dsimp only
      rw [lookUp_of_ne_slot use lookups hactual, huse, huse, hself, unslot, hs]

theorem Reachable.slot_ne (hm : m.Reachable) (i j : UInt32) : m.slot i ≠ .ok (.slot j) :=
  fun h => (hm.bindable h).ne_slot j rfl

theorem called_eq_error {r : Except CallError Unit × Machine} {e : CallError} :
    (called r).1 = .error (.call e) ↔ r.1 = .error e := by
  obtain ⟨_ | _, _⟩ := r <;> simp [called, Except.mapError, Except.map]

theorem answer_call_eq_error {reply : α → Reply} {r : Except CallError α} {e : CallError} :
    (m.answer .call reply r).1 = .error (.call e) ↔ r = .error e := by
  cases r <;> simp [answer, settle, Except.map]

theorem refusal_of_perform (hslot : ∀ i j, m.slot i ≠ .ok (.slot j)) {op : Operation} {e : CallError}
    (h : (m.perform op).1 = .error (.call e)) : e.refusal? ≠ some .slotToSlot := by
  have haccess : ∀ {β : Type} (reply : β → Reply) (r : Except AccessError β),
      (m.answer .access reply r).1 ≠ .error (.call e) := by
    rintro β reply (_ | _) ⟨⟩
  have hbecome : ∀ r : Except AccessError Machine, (m.become .access r).1 ≠ .error (.call e) := by
    rintro (_ | _) ⟨⟩
  cases op with
  | begin block =>
    obtain ⟨pool, hbegin⟩ := m.begin_eq block
    have he := called_eq_error.mp h
    rw [hbegin] at he
    exact unchained_enter (by rintro i j ⟨⟩) _ e he
  | enter site => exact unchained_enter hslot site e (called_eq_error.mp h)
  | leave =>
    have he := called_eq_error.mp h
    cases hf : m.frames with
    | nil =>
      rw [leave_of_nil hf] at he
      cases he
      rintro ⟨⟩
    | cons f rest =>
      rcases leave_reply hf with hok | ⟨block, failures, hfailed⟩
      · cases hok.symm.trans he
      · cases hfailed.symm.trans he
        rintro ⟨⟩
  | resolveSlot index =>
    exact m.unchained_resolveSlot index e (answer_call_eq_error.mp h)
  | fetch _ | resolve _ | fetchParameter _ | followParameter _ | follow _ _ _ =>
    exact absurd h (haccess _ _)
  | store _ _ | storeParameter _ _ | openBlock _ => exact absurd h (hbecome _)
  | parameterOperand _ | setRegisters _ | setInstanceBase _ | setIp _ => cases h
  | reconfigure specs =>
    change (m.become .specs (m.reconfigure specs)).1 = _ at h
    cases hr : m.reconfigure specs <;> rw [hr] at h <;> cases h
  | memory op =>
    change ((m.memory.perform op).1.map Reply.memory).mapError OperationError.access = _ at h
    cases hr : (m.memory.perform op).1 <;> rw [hr] at h <;> cases h

/-- In every reachable state, exactly the frames of stateless blocks that were called with parameters have
operands for them; each of these is a block, simple outer data or an area that every frame sees alike, and
outputs go to locations. One lookup is therefore enough to read or write any operand, and no request is
refused because a formal parameter stands for another one. -/
theorem Reachable.slots_direct (hm : m.Reachable) :
    (∀ f ∈ m.frames, (f.slots.isSome = true ↔ f.raw = false ∧ f.block.isStateful = false) ∧
      (∀ slots, f.slots = some slots → ∀ s ∈ slots, s.2.Bindable) ∧
      ∀ o ∈ f.outbound, ∃ l, o.actual = .memory l) ∧
    (∀ lookups op, m.lookUp m.fetch (lookups + 1) op = some (m.fetch op)) ∧
    (∀ lookups op v, m.lookUp (m.store · v) (lookups + 1) op = some (m.store op v)) ∧
    ∀ op point parameter actual,
      (m.perform op).1 ≠ .error (.call (.unsupportedBinding point parameter actual .slotToSlot)) := by
  refine ⟨?_, ?_, ?_, ?_⟩
  · intro f hf
    have hsound := hm.stacked.forall_sound f hf
    refine ⟨?_, hsound.bindable, hsound.outbound⟩
    rw [hsound.slots_isSome]
    simp
  · exact fun lookups op => lookUp_succ hm.slot_ne ⟨_, fetch_eq_bind m⟩ lookups op
  · exact fun lookups op v => lookUp_succ hm.slot_ne ⟨_, fun _ => rfl⟩ lookups op
  · intro op point parameter actual h
    exact refusal_of_perform hm.slot_ne h rfl

/-- A controller two calls deep, where each block passes its own parameter on to the next. -/
def passedOn : Machine :=
  Bracketed.caller.run
    [.enter (Bracketed.site Bracketed.temporary), .enter (Bracketed.site (.slot 0)),
      .enter (Bracketed.site (.slot 0))]

theorem slots_direct_passedOn :
    passedOn.lookUp passedOn.fetch 1 (.slot 0) = some (.ok (.scalar 7)) ∧
      ∀ f ∈ passedOn.frames, ∀ o ∈ f.outbound, ∃ l, o.actual = .memory l := by
  have hreachable : passedOn.Reachable := ((Reachable.start _ _).run _).run _
  obtain ⟨hframes, hfetch, -, -⟩ := hreachable.slots_direct
  refine ⟨?_, fun f hf => (hframes f hf).2.2⟩
  rw [hfetch]
  decide +kernel

end Machine

end PlcMachine
