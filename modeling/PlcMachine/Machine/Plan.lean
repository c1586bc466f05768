import PlcMachine.Machine.State

/-! # Call plans

Before a block is entered, a plan is made of everything the call will change. Planning reads the
actuals as the caller sees them, takes room for copies in the caller's local data and stages all
writes. It changes nothing, so a call that cannot be planned leaves no trace.
-/

namespace PlcMachine

inductive StagedWrite where
  | callerStack (offset : BitAddress) (width : UInt32) (value : Value)
  | instanceData (block : UInt16) (offset : BitAddress) (width : UInt32) (value : Value)
deriving DecidableEq, Repr

structure Plan where
  writes : List StagedWrite
  outbound : List Outbound
  slots : Slots
  /-- Shared data block to open on entry. -/
  openBlock : Option UInt16
  /-- The caller's allocation cursor once all copies have their room. -/
  cursor : Cursor
deriving DecidableEq, Repr

namespace CallSite

def declared (site : CallSite) (point : CallPoint) (b : Binding) : Except CallError Binding :=
  match site.callee.parameter? b.parameter.name with
  | some parameter => .ok { b with parameter }
  | none => .error (.unsupportedBinding point b.parameter.name b.actual .notDeclared)

def insertBinding (b : Binding) : List Binding → List Binding
  | [] => [b]
  | c :: cs =>
    if b.parameter.index ≤ c.parameter.index then b :: c :: cs else c :: insertBinding b cs

/-- The second of the first two neighbours that are bound to the same declaration index. -/
def duplicate? : List Binding → Option Binding
  | a :: b :: bs => if a.parameter.index = b.parameter.index then some b else duplicate? (b :: bs)
  | _ => none

/-- The bindings in declaration order, each with the callee's own declaration. Bindings of the same
index stay in the order of the call. -/
def orderedBindings (site : CallSite) (point : CallPoint) : Except CallError (List Binding) := do
  let ordered := (← site.bindings.mapM (site.declared point)).foldr insertBinding []
  match duplicate? ordered with
  | some b => throw (.unsupportedBinding point b.parameter.name b.actual .boundTwice)
  | none => return ordered

end CallSite

namespace Plan

def empty (cursor : Cursor) : Plan := ⟨[], [], [], none, cursor⟩

def stage (plan : Plan) (write : StagedWrite) : Plan := { plan with writes := plan.writes ++ [write] }

def queue (plan : Plan) (outbound : Outbound) : Plan :=
  { plan with outbound := plan.outbound ++ [outbound] }

def bindSlot (plan : Plan) (index : UInt32) (op : Operand) : Plan :=
  { plan with slots := plan.slots ++ [(index, op)] }

end Plan

/-- A call that is being planned: the controller before the call, and the call for messages. -/
structure Planning where
  machine : Machine
  point : CallPoint

namespace Planning

def access {α : Type} (c : Planning) (b : Binding) (r : Except AccessError α) : Except CallError α :=
  r.mapError (.access c.point (some b.parameter.name))

def refuse {α : Type} (c : Planning) (b : Binding) (actual : Operand) (reason : Refusal) :
    Except CallError α :=
  .error (.unsupportedBinding c.point b.parameter.name actual reason)

def allocate (c : Planning) (b : Binding) (width : UInt32) (plan : Plan) :
    Except CallError (BitAddress × Plan) :=
  match c.machine.frames with
  | [] => .error (.access c.point (some b.parameter.name) .noActiveFrame)
  | caller :: _ =>
    match plan.cursor.allocate caller.stack.capacity width with
    | .ok (offset, cursor) => .ok (offset, { plan with cursor })
    | .error e => .error (.outOfLocalStack c.point (some b.parameter.name) e)

/-- Copies an actual into the caller's local data. An output is queued for the way back, and an
actual in a shared data block opens that block for the callee. -/
def copy (c : Planning) (b : Binding) (actual : Operand) (plan : Plan) :
    Except CallError (Location × Plan) := do
  let value ← c.access b (c.machine.resolve actual)
  let width := actual.width?.getD b.parameter.width
  let (offset, plan) ← c.allocate b width plan
  let plan := plan.stage (.callerStack offset width value)
  let plan :=
    if b.direction.isOutbound ∧ ¬ actual.isImmediate then
      plan.queue ⟨b.parameter, actual, .callerStack offset, width⟩
    else plan
  let plan :=
    match actual.location?.map (·.area) with
    | some (.dataBlock number) => { plan with openBlock := some number }
    | _ => plan
  return (⟨⟨.outerData, offset, width⟩, false⟩, plan)

def copyPointer (c : Planning) (b : Binding) (pointer : Pointer) (plan : Plan) :
    Except CallError (Operand × Plan) := do
  let (offset, plan) ← c.allocate b Pointer.width plan
  let plan := plan.stage (.callerStack offset Pointer.width pointer.toValue)
  return (.memory ⟨⟨.outerData, offset, Pointer.width⟩, false⟩, plan)

def pass (c : Planning) (b : Binding) (actual : Operand) (plan : Plan) :
    Except CallError (Operand × Plan) :=
  match actual.passing with
  | .direct => .ok (actual, plan)
  | .alias l => .ok (.memory l, plan)
  | .copy => do
    let (l, plan) ← c.copy b actual plan
    return (.memory l, plan)
  | .pointerToCopy => do
    let (l, plan) ← c.copy b actual plan
    c.copyPointer b ⟨0, .outerData, l.offset⟩ plan
  | .pointer l =>
    match Pointer.toCallerLocation? l c.machine.registers.di with
    | some pointer => c.copyPointer b pointer plan
    | none => c.refuse b actual .notForwardable
  | .forward _ => c.refuse b actual .slotToSlot
  | .refused reason => c.refuse b actual reason

/-- What a binding passes on. A formal parameter of the caller is replaced by what it stands for. -/
def forwarded (c : Planning) (actual : Operand) : Except CallError Operand :=
  match actual with
  | .slot index => c.machine.resolveSlot index
  | _ => .ok actual

def bindSlot (c : Planning) (plan : Plan) (b : Binding) : Except CallError Plan := do
  let (op, plan) ← c.pass b (← c.forwarded b.actual) plan
  return plan.bindSlot b.parameter.index op

/-- What goes into a parameter of a stateful callee, with its width, if anything does. -/
def inbound (c : Planning) (b : Binding) (actual : Operand) :
    Except CallError (Option (UInt32 × Value)) :=
  match b.parameter.transfer b.direction actual with
  | .refused reason => c.refuse b actual reason
  | .value =>
    if actual.width? ≠ some b.parameter.width then c.refuse b actual .widthDiffers
    else if b.direction.isInbound then do
      let value ← c.access b (c.machine.resolve actual)
      return some (b.parameter.width, value)
    else .ok none
  | .reference =>
    .ok (if b.direction.isInbound then some (b.parameter.width, .scalar actual.referenceNumber)
      else none)
  | .pointer =>
    match actual.location?.bind (Pointer.toCallerLocation? · c.machine.registers.di) with
    | some pointer => .ok (some (Pointer.width, pointer.toValue))
    | none => c.refuse b actual .notForwardable

/-- Stages a write to the callee's instance data after checking that it will succeed. -/
def stageInstance (c : Planning) (b : Binding) (block : UInt16) (offset : BitAddress)
    (width : UInt32) (value : Value) (plan : Plan) : Except CallError Plan := do
  c.access b (c.machine.memory.checkBlock block offset width)
  if ¬ value.Fits width then
    throw (.access c.point (some b.parameter.name) (.valueMismatch width))
  return plan.stage (.instanceData block offset width value)

def queueInstance (c : Planning) (b : Binding) (actual : Operand) (block : UInt16)
    (offset : BitAddress) (plan : Plan) : Except CallError Plan :=
  match actual with
  | .memory _ => do
    c.access b (c.machine.memory.checkBlock block offset b.parameter.width)
    return plan.queue ⟨b.parameter, actual, .instanceData block offset, b.parameter.width⟩
  | _ => c.refuse b actual .notWritable

def bindInstance (c : Planning) (instanceData : InstanceData) (plan : Plan) (b : Binding) :
    Except CallError Plan := do
  let actual ← c.forwarded b.actual
  let offset := instanceData.base + b.parameter.offset
  let plan ← match ← c.inbound b actual with
    | some (width, value) => c.stageInstance b instanceData.block offset width value plan
    | none => pure plan
  if b.direction.isOutbound ∧ b.parameter.transfer b.direction actual = .value then
    c.queueInstance b actual instanceData.block offset plan
  else return plan

end Planning

namespace Machine

def mark (m : Machine) : Option Cursor := m.frames.head?.map (·.stack.cursor)

/-- Plans a call with the given instance data. An unconditional call has nothing to plan. -/
def plan (m : Machine) (point : CallPoint) (site : CallSite) (instanceData : Option InstanceData) :
    Except CallError Plan :=
  let start := Plan.empty (m.mark.getD ⟨0, none⟩)
  if site.raw then .ok start
  else do
    let bindings ← site.orderedBindings point
    match instanceData with
    | some d => bindings.foldlM (Planning.bindInstance ⟨m, point⟩ d) start
    | none => bindings.foldlM (Planning.bindSlot ⟨m, point⟩) start

end Machine

end PlcMachine
