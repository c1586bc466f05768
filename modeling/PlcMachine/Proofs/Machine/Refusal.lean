import PlcMachine.Proofs.Machine.History

/-! # Errors of calls

A call can fail before it writes anything, or at one of its staged writes. The errors that come first are
listed here. An address that planning finds at fault is that of a parameter, which the error names, and no
binding is refused because the formal parameter that it passes on stands for another one.
-/

namespace PlcMachine

def CallError.refusal? : CallError → Option Refusal
  | .unsupportedBinding _ _ _ reason => some reason
  | _ => none

/-- The errors that a call can end with before it writes anything. -/
inductive CallError.Early (point : CallPoint) : CallError → Prop where
  | depthExceeded (limit : Nat) : Early point (.depthExceeded point limit)
  | missingInstance : Early point (.missingInstance point)
  | baseOutOfReach (base : BitAddress) :
      Early point (.access point none (.invalidPointer (.baseOutOfReach base)))
  | noSuchBlock (number : UInt16) : Early point (.access point none (.noSuchBlock number))
  | outOfLocalStack (parameter : Option String) (cause : LocalStackError) :
      Early point (.outOfLocalStack point parameter cause)
  | emptyStack : Early point .emptyStack
  | unresolvedSlot (block : String) (ip : Nat) (index : UInt32) :
      Early point (.unresolvedSlot block ip index)
  | refused (parameter : String) (actual : Operand) {reason : Refusal} (h : reason ≠ .slotToSlot) :
      Early point (.unsupportedBinding point parameter actual reason)
  | access (parameter : String) (cause : AccessError) : Early point (.access point (some parameter) cause)

/-- The result is no refusal of a formal parameter that stands for another one. -/
def Unchained {α : Type} (r : Except CallError α) : Prop :=
  ∀ e, r = .error e → e.refusal? ≠ some .slotToSlot

/-- The result is no error but one of these. -/
def FailsWith {α : Type} (P : CallError → Prop) (r : Except CallError α) : Prop :=
  ∀ e, r = .error e → P e

abbrev FailsEarly {α : Type} (point : CallPoint) (r : Except CallError α) : Prop :=
  FailsWith (CallError.Early point) r

theorem CallError.Early.refusal_ne {point : CallPoint} {e : CallError} (h : e.Early point) :
    e.refusal? ≠ some .slotToSlot := by
  cases h with
  | refused _ _ hreason => exact fun he => hreason (Option.some.inj he)
  | _ => rintro ⟨⟩

namespace FailsWith

variable {α β : Type} {P Q : CallError → Prop}

theorem ok (a : α) : FailsWith P (.ok a) := by
  rintro e ⟨⟩

theorem error {e : CallError} (h : P e) : FailsWith P (.error e : Except CallError α) := by
  rintro e' ⟨⟩
  exact h

theorem mono {r : Except CallError α} (h : FailsWith P r) (hPQ : ∀ e, P e → Q e) : FailsWith Q r :=
  fun e he => hPQ e (h e he)

theorem bind {r : Except CallError α} {f : α → Except CallError β} (h : FailsWith P r)
    (hf : ∀ a, r = .ok a → FailsWith P (f a)) : FailsWith P (r >>= f) := by
  cases r with
  | ok a => exact hf a rfl
  | error e => exact error (h e rfl)

theorem foldlM {step : β → α → Except CallError β} {as : List α} (b : β)
    (h : ∀ a ∈ as, ∀ b, FailsWith P (step b a)) : FailsWith P (as.foldlM step b) := by
  induction as generalizing b with
  | nil => exact ok b
  | cons a as ih =>
    obtain ⟨ha, has⟩ := List.forall_mem_cons.mp h
    rw [List.foldlM_cons]
    exact (ha b).bind fun b' _ => ih b' has

theorem unchained {r : Except CallError α} {point : CallPoint} (h : FailsEarly point r) : Unchained r :=
  fun e he => (h e he).refusal_ne

end FailsWith

theorem Operand.eq_slot_of_forward {op : Operand} {i : UInt32} (h : op.passing = .forward i) :
    op = .slot i := by
  cases op with
  | slot j => rw [Passing.forward.inj h]
  | immediate _ _ compound => cases compound <;> cases h
  | block _ _ => cases h
  | memory l =>
    obtain ⟨⟨area, offset, width⟩, compound⟩ := l
    cases area <;> cases compound <;> cases h

theorem Operand.refused_passing {op : Operand} {reason : Refusal} (h : op.passing = .refused reason) :
    reason = .outerCompound := by
  cases op with
  | slot _ | block _ _ => cases h
  | immediate _ _ compound => cases compound <;> cases h
  | memory l =>
    obtain ⟨⟨area, offset, width⟩, compound⟩ := l
    cases area <;> cases compound <;> cases h
    rfl

theorem Parameter.refused_transfer {p : Parameter} {direction : Direction} {actual : Operand}
    {reason : Refusal} (h : p.transfer direction actual = .refused reason) :
    reason ≠ .slotToSlot := by
  unfold Parameter.transfer at h
  split_ifs at h <;> cases h <;> decide

theorem Machine.resolveSlot_failsEarly (m : Machine) (point : CallPoint) (index : UInt32) :
    FailsEarly point (m.resolveSlot index) := by
  unfold Machine.resolveSlot
  split
  · exact .error .emptyStack
  · split
    · exact .ok _
    · exact .error (.unresolvedSlot _ _ _)

theorem Machine.unchained_resolveSlot (m : Machine) (index : UInt32) :
    Unchained (m.resolveSlot index) :=
  (m.resolveSlot_failsEarly ⟨none, ""⟩ index).unchained

namespace Planning

variable (c : Planning) (b : Binding) (plan : Plan)

theorem access_failsEarly {α : Type} (r : Except AccessError α) : FailsEarly c.point (c.access b r) := by
  cases r with
  | ok a => exact .ok a
  | error e => exact .error (.access _ _)

theorem refuse_failsEarly {α : Type} (actual : Operand) {reason : Refusal} (h : reason ≠ .slotToSlot) :
    FailsEarly c.point (c.refuse b actual reason : Except CallError α) :=
  .error (.refused _ _ h)

theorem allocate_failsEarly (width : UInt32) : FailsEarly c.point (c.allocate b width plan) := by
  unfold allocate
  split
  · exact .error (.access _ _)
  · split
    · exact .ok _
    · exact .error (.outOfLocalStack _ _)

theorem copy_failsEarly (actual : Operand) : FailsEarly c.point (c.copy b actual plan) := by
  refine (c.access_failsEarly b _).bind fun value _ => ?_
  exact (c.allocate_failsEarly b plan _).bind fun _ _ => .ok _

theorem copyPointer_failsEarly (pointer : Pointer) :
    FailsEarly c.point (c.copyPointer b pointer plan) :=
  (c.allocate_failsEarly b plan _).bind fun _ _ => .ok _

theorem pass_failsEarly {actual : Operand} (h : ∀ i, actual ≠ .slot i) :
    FailsEarly c.point (c.pass b actual plan) := by
  unfold pass
  cases hp : actual.passing with
  | direct | «alias» l => exact .ok _
  | copy => exact (c.copy_failsEarly b plan actual).bind fun _ _ => .ok _
  | pointerToCopy =>
    exact (c.copy_failsEarly b plan actual).bind fun _ _ => c.copyPointer_failsEarly b _ _
  | pointer l =>
    dsimp only
    split
    · exact c.copyPointer_failsEarly b plan _
    · exact c.refuse_failsEarly b actual (by decide)
  | forward i => exact absurd (Operand.eq_slot_of_forward hp) (h i)
  | refused reason =>
    rw [Operand.refused_passing hp]
    exact c.refuse_failsEarly b actual (by decide)

theorem forwarded_failsEarly (op : Operand) : FailsEarly c.point (c.forwarded op) := by
  cases op with
  | slot i => exact c.machine.resolveSlot_failsEarly c.point i
  | immediate _ _ _ | memory _ | block _ _ => exact .ok _

theorem bindSlot_failsEarly (h : ∀ i j, c.machine.slot i ≠ .ok (.slot j)) :
    FailsEarly c.point (c.bindSlot plan b) := by
  refine (c.forwarded_failsEarly b.actual).bind fun actual hactual => ?_
  refine (c.pass_failsEarly b plan ?_).bind fun _ _ => .ok _
  rintro j rfl
  have hslot : c.machine.unslot b.actual = .ok (.slot j) := Machine.forwarded_eq_ok.mp hactual
  cases hb : b.actual with
  | slot i =>
    rw [hb] at hslot
    exact h i j hslot
  | immediate _ _ _ | memory _ | block _ _ =>
    rw [hb] at hslot
    cases hslot

theorem inbound_failsEarly (actual : Operand) : FailsEarly c.point (c.inbound b actual) := by
  unfold inbound
  cases ht : b.parameter.transfer b.direction actual with
  | refused reason => exact c.refuse_failsEarly b actual (Parameter.refused_transfer ht)
  | reference => exact .ok _
  | value =>
    dsimp only
    split_ifs
    · exact c.refuse_failsEarly b actual (by decide)
    · exact (c.access_failsEarly b _).bind fun _ _ => .ok _
    · exact .ok _
  | pointer =>
    dsimp only
    split
    · exact .ok _
    · exact c.refuse_failsEarly b actual (by decide)

theorem stageInstance_failsEarly (block : UInt16) (offset : BitAddress) (width : UInt32)
    (value : Value) : FailsEarly c.point (c.stageInstance b block offset width value plan) := by
  refine (c.access_failsEarly b _).bind fun _ _ => ?_
  by_cases hfit : value.Fits width
  · rw [if_neg (not_not_intro hfit)]
    exact .ok _
  · rw [if_pos hfit]
    exact FailsWith.bind (.error (.access _ _)) fun _ _ => .ok _

theorem queueInstance_failsEarly (actual : Operand) (block : UInt16) (offset : BitAddress) :
    FailsEarly c.point (c.queueInstance b actual block offset plan) := by
  cases actual with
  | memory l => exact (c.access_failsEarly b _).bind fun _ _ => .ok _
  | immediate _ _ _ | block _ _ | slot _ => exact c.refuse_failsEarly b _ (by decide)

theorem bindInstance_failsEarly (d : InstanceData) : FailsEarly c.point (c.bindInstance d plan b) := by
  refine (c.forwarded_failsEarly b.actual).bind fun actual _ => ?_
  refine (c.inbound_failsEarly b actual).bind fun staged _ => ?_
  have hqueue : ∀ plan, FailsEarly c.point
      (if b.direction.isOutbound ∧ b.parameter.transfer b.direction actual = .value then
        c.queueInstance b actual d.block (d.base + b.parameter.offset) plan
      else pure plan) := by
    intro plan
    split_ifs
    · exact c.queueInstance_failsEarly b plan actual _ _
    · exact .ok _
  cases staged with
  | none => exact (FailsWith.ok plan).bind fun plan _ => hqueue plan
  | some staged => exact (c.stageInstance_failsEarly b plan _ _ _ _).bind fun plan _ => hqueue plan

end Planning

/-- The errors that refuse a binding for what it names. -/
def CallError.Misnamed (point : CallPoint) (e : CallError) : Prop :=
  ∃ parameter actual reason, reason ≠ .slotToSlot ∧ e = .unsupportedBinding point parameter actual reason

theorem CallSite.orderedBindings_failsWith (site : CallSite) (point : CallPoint) :
    FailsWith (CallError.Misnamed point) (site.orderedBindings point) := by
  refine FailsWith.bind ?_ fun bs _ => ?_
  · induction site.bindings with
    | nil => exact .ok _
    | cons b bs ih =>
      rw [List.mapM_cons]
      refine FailsWith.bind ?_ fun _ _ => ih.bind fun _ _ => .ok _
      unfold CallSite.declared
      split
      · exact .ok _
      · exact .error ⟨_, _, _, by decide, rfl⟩
  · dsimp only
    split
    · exact .error ⟨_, _, _, by decide, rfl⟩
    · exact .ok _

theorem CallSite.orderedBindings_failsEarly (site : CallSite) (point : CallPoint) :
    FailsEarly point (site.orderedBindings point) := by
  refine (site.orderedBindings_failsWith point).mono ?_
  rintro _ ⟨_, _, _, hreason, rfl⟩
  exact .refused _ _ hreason

namespace Machine

variable {m : Machine}

theorem plan_failsEarly (h : ∀ i j, m.slot i ≠ .ok (.slot j)) (point : CallPoint) (site : CallSite)
    (d : Option InstanceData) : FailsEarly point (m.plan point site d) := by
  unfold Machine.plan
  split_ifs
  · exact .ok _
  · refine (site.orderedBindings_failsEarly point).bind fun bs _ => ?_
    cases d with
    | some d => exact .foldlM _ fun b _ plan => Planning.bindInstance_failsEarly ⟨m, point⟩ b plan d
    | none => exact .foldlM _ fun b _ plan => Planning.bindSlot_failsEarly ⟨m, point⟩ b plan h

theorem instanceFor_failsEarly (m : Machine) (site : CallSite) :
    FailsEarly (site.point m) (m.instanceFor site) := by
  unfold instanceFor
  split_ifs
  · exact .ok _
  · split
    · exact .error .missingInstance
    · split_ifs
      · exact .error (.noSuchBlock _)
      · exact .ok _
      · exact .error (.baseOutOfReach _)
  · exact .ok _

/-- A call that fails does so early or at one of its staged writes, as long as none of the active frame's
formal parameters stands for another. -/
theorem early_or_write_of_enter (h : ∀ i j, m.slot i ≠ .ok (.slot j)) {site : CallSite} {e : CallError}
    (he : (m.enter site).1 = .error e) : e.Early (site.point m) ∨
      ∃ d stack plan cause, m.Prepares site d stack plan ∧
        (m.makeWrites plan.writes).1 = some cause ∧ e = .access (site.point m) none cause := by
  by_cases hprep : ∃ d stack plan, m.Prepares site d stack plan
  · right
    obtain ⟨d, stack, plan, hprep⟩ := hprep
    obtain ⟨pool, henter⟩ := hprep.enter
    rw [henter] at he
    cases hw : m.makeWrites plan.writes with
    | mk failure written =>
      rw [hw] at he
      cases failure with
      | none => cases he
      | some cause =>
        cases he
        exact ⟨d, stack, plan, cause, hprep, by rw [hw], rfl⟩
  · -- One of the steps up to the plan fails, in the order in which they are made.
    left
    unfold enter at he
    split_ifs at he with hdepth
    · cases he
      exact .depthExceeded _
    · cases hinst : m.instanceFor site with
      | error e' =>
        rw [hinst] at he
        cases he
        exact m.instanceFor_failsEarly site e hinst
      | ok d =>
        rw [hinst] at he
        dsimp only at he
        unfold enterOn at he
        dsimp only at he
        cases hready : (m.pool.acquire m.id).1.reset m.specs.localBytes site.callee.tempBytes with
        | error cause =>
          rw [hready] at he
          cases he
          exact .outOfLocalStack _ _
        | ok stack =>
          rw [hready] at he
          dsimp only at he
          rw [point_pool, plan_pool] at he
          cases hplan : m.plan (site.point m) site d with
          | error e' =>
            rw [hplan] at he
            cases he
            exact plan_failsEarly h _ site d e hplan
          | ok plan => exact absurd ⟨d, stack, plan, by omega, hinst, hready, hplan⟩ hprep

theorem unchained_enter (h : ∀ i j, m.slot i ≠ .ok (.slot j)) (site : CallSite) :
    Unchained (m.enter site).1 := by
  intro e he
  obtain hearly | ⟨_, _, _, _, -, -, rfl⟩ := early_or_write_of_enter h he
  · exact hearly.refusal_ne
  · rintro ⟨⟩

end Machine

end PlcMachine
