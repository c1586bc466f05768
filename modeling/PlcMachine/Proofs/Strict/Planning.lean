import PlcMachine.Proofs.Machine.Planning
import PlcMachine.Proofs.Machine.Refusal
import PlcMachine.Proofs.Strict.Machine

/-! # Planning step by step

While a call is planned, the cursor stays within the caller's local data, and room is asked for in widths
that locations and constants can have. So planning gets stuck only where handing out room does.
-/

namespace PlcMachine

open Strict

/-- The error is one of handing out room that stands for getting stuck. -/
def CallError.isStuck (stuck : LocalStackError → Bool) : CallError → Bool
  | .outOfLocalStack _ _ e => stuck e
  | _ => false

theorem Planning.width_add_lt {m : Machine} {actual : Operand} {value : Value} {width : UInt32}
    (hv : m.resolve actual = .ok value) (hw : actual.width? = some width) :
    width.toNat + 7 < UInt32.size := by
  rcases validWidth_or_empty hv hw with hvalid | ⟨compound, rfl⟩
  · exact (hvalid .localData ⟨0, 0⟩).add_lt
  · cases hw
    decide

namespace Planning

def accessStrict {α : Type} (c : Planning) (b : Binding) (x : Strict AccessError α) : Strict CallError α :=
  x.mapError (.access c.point (some b.parameter.name))

def allocateStrict (c : Planning) (b : Binding) (width : UInt32) (plan : Plan) :
    Strict CallError (BitAddress × Plan) :=
  match c.machine.frames with
  | [] => throw (.access c.point (some b.parameter.name) .noActiveFrame)
  | caller :: _ => do
    let (offset, cursor) ← (plan.cursor.allocateStrict caller.stack.capacity width).mapError
      (.outOfLocalStack c.point (some b.parameter.name))
    return (offset, { plan with cursor })

def copyStrict (c : Planning) (b : Binding) (actual : Operand) (plan : Plan) :
    Strict CallError (Location × Plan) := do
  let value ← c.accessStrict b (c.machine.resolveStrict actual)
  let width := actual.width?.getD b.parameter.width
  let (offset, plan) ← c.allocateStrict b width plan
  let plan := plan.stage (.callerStack offset width value)
  let plan :=
    if b.direction.isOutbound ∧ ¬ actual.isImmediate then
      plan.queue ⟨b.parameter, actual, .callerStack offset, width⟩
    else plan
  let plan :=
    match actual.location?.map (·.area) with
    | some (.dataBlock number) => { plan with openBlock := some number }
    | _ => plan
  return (⟨⟨.outerData, offset, width⟩, false⟩, plan)

def copyPointerStrict (c : Planning) (b : Binding) (pointer : Pointer) (plan : Plan) :
    Strict CallError (Operand × Plan) := do
  let (offset, plan) ← c.allocateStrict b Pointer.width plan
  let plan := plan.stage (.callerStack offset Pointer.width pointer.toValue)
  return (.memory ⟨⟨.outerData, offset, Pointer.width⟩, false⟩, plan)

def passStrict (c : Planning) (b : Binding) (actual : Operand) (plan : Plan) :
    Strict CallError (Operand × Plan) :=
  match actual.passing with
  | .direct => return (actual, plan)
  | .alias l => return (.memory l, plan)
  | .copy => do
    let (l, plan) ← c.copyStrict b actual plan
    return (.memory l, plan)
  | .pointerToCopy => do
    let (l, plan) ← c.copyStrict b actual plan
    c.copyPointerStrict b ⟨0, .outerData, l.offset⟩ plan
  | .pointer l =>
    match Pointer.toCallerLocation? l c.machine.registers.di with
    | some pointer => c.copyPointerStrict b pointer plan
    | none => total (c.refuse b actual .notForwardable)
  | .forward _ => total (c.refuse b actual .slotToSlot)
  | .refused reason => total (c.refuse b actual reason)

def bindSlotStrict (c : Planning) (plan : Plan) (b : Binding) : Strict CallError Plan := do
  let (op, plan) ← c.passStrict b (← total (c.forwarded b.actual)) plan
  return plan.bindSlot b.parameter.index op

def inboundStrict (c : Planning) (b : Binding) (actual : Operand) :
    Strict CallError (Option (UInt32 × Value)) :=
  match b.parameter.transfer b.direction actual with
  | .refused reason => total (c.refuse b actual reason)
  | .value =>
    if actual.width? ≠ some b.parameter.width then total (c.refuse b actual .widthDiffers)
    else if b.direction.isInbound then do
      let value ← c.accessStrict b (c.machine.resolveStrict actual)
      return some (b.parameter.width, value)
    else return none
  | .reference =>
    return if b.direction.isInbound then some (b.parameter.width, .scalar actual.referenceNumber)
      else none
  | .pointer =>
    match actual.location?.bind (Pointer.toCallerLocation? · c.machine.registers.di) with
    | some pointer => return some (Pointer.width, pointer.toValue)
    | none => total (c.refuse b actual .notForwardable)

def stageInstanceStrict (c : Planning) (b : Binding) (block : UInt16) (offset : BitAddress)
    (width : UInt32) (value : Value) (plan : Plan) : Strict CallError Plan := do
  c.accessStrict b (c.machine.memory.checkBlockStrict block offset width)
  if ¬ value.Fits width then
    throw (.access c.point (some b.parameter.name) (.valueMismatch width))
  return plan.stage (.instanceData block offset width value)

def queueInstanceStrict (c : Planning) (b : Binding) (actual : Operand) (block : UInt16)
    (offset : BitAddress) (plan : Plan) : Strict CallError Plan :=
  match actual with
  | .memory _ => do
    c.accessStrict b (c.machine.memory.checkBlockStrict block offset b.parameter.width)
    return plan.queue ⟨b.parameter, actual, .instanceData block offset, b.parameter.width⟩
  | _ => total (c.refuse b actual .notWritable)

def bindInstanceStrict (c : Planning) (instanceData : InstanceData) (plan : Plan) (b : Binding) :
    Strict CallError Plan := do
  let actual ← total (c.forwarded b.actual)
  let offset ← step (instanceData.base.add? b.parameter.offset)
  let plan ← match ← c.inboundStrict b actual with
    | some (width, value) => c.stageInstanceStrict b instanceData.block offset width value plan
    | none => pure plan
  if b.direction.isOutbound ∧ b.parameter.transfer b.direction actual = .value then
    c.queueInstanceStrict b actual instanceData.block offset plan
  else return plan

variable {stuck : LocalStackError → Bool} {c : Planning} {plan : Plan} {low : Nat}

theorem accessStrict_eq {α : Type} (c : Planning) (b : Binding) {x : Strict AccessError α}
    {r : Except AccessError α} (h : x = total r) :
    c.accessStrict b x = upTo (CallError.isStuck stuck) (c.access b r) := by
  rw [h]
  cases r <;> rfl

theorem isStuck_resolveSlot (m : Machine) (index : UInt32) :
    isStuck (CallError.isStuck stuck) (m.resolveSlot index) = false := by
  unfold Machine.resolveSlot
  split
  · rfl
  · split <;> rfl

theorem total_forwarded (c : Planning) (op : Operand) :
    total (c.forwarded op) = upTo (CallError.isStuck stuck) (c.forwarded op) := by
  refine (upTo_of_not_isStuck ?_).symm
  cases op with
  | slot index => exact isStuck_resolveSlot c.machine index
  | immediate _ _ _ | memory _ | block _ _ => rfl

section Allocating

variable (hc : plan.cursor.Within low c.machine.room) (hsize : c.machine.room < UInt32.size)
  (hstops : Cursor.Stops stuck c.machine.room)
include hc hstops

theorem allocateStrict_eq {width : UInt32} (hwidth : width.toNat + 7 < UInt32.size) (b : Binding) :
    c.allocateStrict b width plan = upTo (CallError.isStuck stuck) (c.allocate b width plan) := by
  have hallocate := hstops.allocate (Nat.le_refl _) hc hwidth
  unfold allocateStrict allocate
  cases hf : c.machine.frames with
  | nil => rfl
  | cons f rest =>
    have hroom : c.machine.room = f.stack.capacity := by
      rw [Machine.room, hf]
      rfl
    rw [hroom] at hallocate
    dsimp only
    rw [hallocate]
    have hmap := mapError_upTo (CallError.isStuck stuck)
      (.outOfLocalStack c.point (some b.parameter.name)) (plan.cursor.allocate f.stack.capacity width)
    refine (bind_upTo (g := fun r => .ok (r.1, { plan with cursor := r.2 })) hmap fun _ _ => rfl).trans ?_
    cases plan.cursor.allocate f.stack.capacity width <;> rfl

theorem copyStrict_eq {actual : Operand} (b : Binding)
    (hp : actual.passing = .copy ∨ actual.passing = .pointerToCopy) :
    c.copyStrict b actual plan = upTo (CallError.isStuck stuck) (c.copy b actual plan) := by
  obtain ⟨width, hw⟩ := width_of_passing hp
  refine bind_upTo (c.accessStrict_eq b (c.machine.resolveStrict_eq actual)) fun value hv => ?_
  refine bind_upTo ?_ fun _ _ => rfl
  rw [hw]
  exact allocateStrict_eq hc hstops (width_add_lt (access_eq_ok.mp hv) hw) b

theorem copyPointerStrict_eq (b : Binding) (pointer : Pointer) :
    c.copyPointerStrict b pointer plan =
      upTo (CallError.isStuck stuck) (c.copyPointer b pointer plan) :=
  bind_upTo (allocateStrict_eq hc hstops (by decide) b) fun _ _ => rfl

include hsize

theorem passStrict_eq (b : Binding) (actual : Operand) :
    c.passStrict b actual plan = upTo (CallError.isStuck stuck) (c.pass b actual plan) := by
  unfold passStrict pass
  cases hp : actual.passing with
  | direct | «alias» _ | forward _ | refused _ => rfl
  | copy => exact bind_upTo (copyStrict_eq hc hstops b (.inl hp)) fun _ _ => rfl
  | pointerToCopy =>
    refine bind_upTo (copyStrict_eq hc hstops b (.inr hp)) ?_
    rintro ⟨l, plan'⟩ hcopy
    obtain ⟨width, hw⟩ := width_of_passing (.inr hp)
    obtain ⟨_, _, _, -, ha, -, rfl⟩ := copy_eq_ok hw hcopy
    exact copyPointerStrict_eq (hc.allocate_gives hsize ha).1 hstops b _
  | pointer l =>
    dsimp only
    cases Pointer.toCallerLocation? l c.machine.registers.di with
    | none => rfl
    | some pointer => exact copyPointerStrict_eq hc hstops b pointer

theorem bindSlotStrict_eq (b : Binding) :
    c.bindSlotStrict plan b = upTo (CallError.isStuck stuck) (c.bindSlot plan b) :=
  bind_upTo (c.total_forwarded b.actual) fun actual _ =>
    bind_upTo (passStrict_eq hc hsize hstops b actual) fun _ _ => rfl

end Allocating

theorem inboundStrict_eq (c : Planning) (b : Binding) (actual : Operand) :
    c.inboundStrict b actual = upTo (CallError.isStuck stuck) (c.inbound b actual) := by
  unfold inboundStrict inbound
  cases b.parameter.transfer b.direction actual with
  | refused _ | reference => rfl
  | value =>
    dsimp only
    split_ifs
    · rfl
    · exact bind_upTo (c.accessStrict_eq b (c.machine.resolveStrict_eq actual)) fun _ _ => rfl
    · rfl
  | pointer =>
    dsimp only
    cases actual.location?.bind (Pointer.toCallerLocation? · c.machine.registers.di) <;> rfl

theorem stageInstanceStrict_eq (c : Planning) (b : Binding) (block : UInt16) (offset : BitAddress)
    (width : UInt32) (value : Value) (plan : Plan) :
    c.stageInstanceStrict b block offset width value plan =
      upTo (CallError.isStuck stuck) (c.stageInstance b block offset width value plan) := by
  refine bind_upTo (c.accessStrict_eq b (c.machine.memory.checkBlockStrict_eq _ _ _)) fun _ _ => ?_
  by_cases hfit : value.Fits width
  · rw [if_neg (not_not_intro hfit), if_neg (not_not_intro hfit)]
    rfl
  · rw [if_pos hfit, if_pos hfit]
    rfl

theorem queueInstanceStrict_eq (c : Planning) (b : Binding) (actual : Operand) (block : UInt16)
    (offset : BitAddress) (plan : Plan) : c.queueInstanceStrict b actual block offset plan =
      upTo (CallError.isStuck stuck) (c.queueInstance b actual block offset plan) := by
  cases actual with
  | memory l =>
    exact bind_upTo (c.accessStrict_eq b (c.machine.memory.checkBlockStrict_eq _ _ _)) fun _ _ => rfl
  | immediate _ _ _ | block _ _ | slot _ => rfl

theorem bindInstanceStrict_eq (c : Planning) (d : InstanceData) (plan : Plan) (b : Binding) :
    c.bindInstanceStrict d plan b = upTo (CallError.isStuck stuck) (c.bindInstance d plan b) := by
  refine bind_upTo (c.total_forwarded b.actual) fun actual _ => ?_
  rw [step_bind (BitAddress.add?_eq _ _)]
  refine bind_upTo (c.inboundStrict_eq b actual) fun staged _ => ?_
  have hqueue : ∀ plan,
      (if b.direction.isOutbound ∧ b.parameter.transfer b.direction actual = .value then
        c.queueInstanceStrict b actual d.block (d.base + b.parameter.offset) plan
      else pure plan) =
        upTo (CallError.isStuck stuck) (if b.direction.isOutbound ∧ b.parameter.transfer b.direction actual = .value then
          c.queueInstance b actual d.block (d.base + b.parameter.offset) plan
        else pure plan) := by
    intro plan
    split_ifs
    · exact c.queueInstanceStrict_eq b actual _ _ plan
    · rfl
  cases staged with
  | none => exact hqueue plan
  | some staged => exact bind_upTo (c.stageInstanceStrict_eq b _ _ _ _ plan) fun plan _ => hqueue plan

end Planning

theorem CallSite.total_orderedBindings {stuck : LocalStackError → Bool} (site : CallSite)
    (point : CallPoint) : total (site.orderedBindings point) =
      upTo (CallError.isStuck stuck) (site.orderedBindings point) := by
  refine (upTo_of_not_isStuck ?_).symm
  cases h : site.orderedBindings point with
  | ok bindings => rfl
  | error e =>
    obtain ⟨_, _, _, -, rfl⟩ := site.orderedBindings_failsWith point e h
    rfl

namespace Machine

def planStrict (m : Machine) (point : CallPoint) (site : CallSite)
    (instanceData : Option InstanceData) : Strict CallError Plan :=
  let start := Plan.empty (m.mark.getD ⟨0, none⟩)
  if site.raw then return start
  else do
    let bindings ← total (site.orderedBindings point)
    match instanceData with
    | some d => bindings.foldlM (Planning.bindInstanceStrict ⟨m, point⟩ d) start
    | none => bindings.foldlM (Planning.bindSlotStrict ⟨m, point⟩) start

variable {stuck : LocalStackError → Bool} {m : Machine}

theorem planStrict_eq (hm : m.Allocates) (hstops : Cursor.Stops stuck m.room) (point : CallPoint)
    (site : CallSite) (d : Option InstanceData) :
    m.planStrict point site d = upTo (CallError.isStuck stuck) (m.plan point site d) := by
  unfold planStrict Machine.plan
  split_ifs
  · rfl
  · refine bind_upTo (site.total_orderedBindings point) fun bindings _ => ?_
    cases d with
    | some d =>
      exact foldlM_upTo (P := fun _ => True) (fun plan b _ _ => Planning.bindInstanceStrict_eq _ d plan b)
        (fun _ _ _ _ _ _ => trivial) trivial
    | none =>
      refine foldlM_upTo (P := fun plan => plan.cursor.Within m.reserved m.room) ?_ ?_ hm.within
      · intro plan b _ hc
        exact Planning.bindSlotStrict_eq hc hm.room_lt hstops b
      · intro plan b _ hc plan' h
        obtain ⟨actual, d, -, hd, rfl⟩ := Planning.bindSlot_eq_ok h
        exact (hd.extends b.parameter.index hc hm.room_lt).within

end Machine

end PlcMachine
