import PlcMachine.Machine.Plan

/-! # Entering and leaving blocks

Entering a block takes a local stack from the pool, plans the call, makes the staged writes and puts
a frame on top. Leaving it reads all outputs, restores the caller's registers and only then writes
the outputs back. Both answer with the state they leave behind, also when they fail.
-/

namespace PlcMachine

namespace CallSite

def point (site : CallSite) (m : Machine) : CallPoint where
  caller := m.frames.head?.map fun f => (f.block.label, f.ip)
  callee := site.callee.label

def selectedInstance (site : CallSite) (m : Machine) : Option InstanceData :=
  match site.instanceBlock, site.nestedBase with
  | some block, base => some ⟨block, base.getD ⟨0, 0⟩⟩
  | none, some offset => some ⟨m.registers.di, m.registers.instanceBase + offset⟩
  | none, none => none

end CallSite

namespace Machine

/-- The instance data of a call. Stateless blocks have none, and an unconditional call stays with the
instance that the registers select. -/
def instanceFor (m : Machine) (site : CallSite) : Except CallError (Option InstanceData) :=
  if ¬ site.callee.isStateful then .ok none
  else if site.raw then .ok (some ⟨m.registers.di, m.registers.instanceBase⟩)
  else
    match site.selectedInstance m with
    | none => .error (.missingInstance (site.point m))
    | some d =>
      if ¬ d.base.FitsPointer then
        .error (.access (site.point m) none (.invalidPointer (.baseOutOfReach d.base)))
      else if (m.memory.block? d.block).isNone then
        .error (.access (site.point m) none (.noSuchBlock d.block))
      else .ok (some d)

def release (m : Machine) (s : LocalStack) : Machine := { m with pool := m.pool.release m.id s }

def makeWrite (m : Machine) : StagedWrite → Except AccessError Machine
  | .callerStack offset width value => m.writeAccess ⟨.localData, offset, width⟩ value
  | .instanceData block offset width value => do
    return { m with memory := ← m.memory.write ⟨.dataBlock block, offset, width⟩ value }

/-- Makes staged writes up to the first that fails, and answers with that failure. -/
def makeWrites (m : Machine) : List StagedWrite → Option AccessError × Machine
  | [] => (none, m)
  | w :: ws =>
    match m.makeWrite w with
    | .ok m => m.makeWrites ws
    | .error e => (some e, m)

def calleeRegisters (m : Machine) (site : CallSite) (instanceData : Option InstanceData)
    (plan : Plan) : Registers :=
  if site.raw then m.registers
  else
    let r := match instanceData with
      | some d => { m.registers with db := m.registers.di, di := d.block }.setInstanceBase d.base
      | none => m.registers
    { r with db := plan.openBlock.getD r.db }

def newFrame (m : Machine) (site : CallSite) (instanceData : Option InstanceData) (plan : Plan)
    (stack : LocalStack) : Frame where
  block := site.callee
  ip := 0
  raw := site.raw
  saved := m.registers
  instanceData := instanceData
  stack := stack
  outbound := plan.outbound
  slots := if ¬ site.raw ∧ instanceData.isNone then some plan.slots else none
  callerMark := m.mark
  state := .active

def setCursor (m : Machine) (c : Cursor) : Machine :=
  match m.frames with
  | [] => m
  | f :: rest => { m with frames := f.rewind c :: rest }

def commit (m : Machine) (site : CallSite) (instanceData : Option InstanceData) (plan : Plan)
    (stack : LocalStack) : Except CallError Unit × Machine :=
  match m.makeWrites plan.writes with
  | (some e, m') => (.error (.access (site.point m) none e), m'.release stack)
  | (none, m') =>
    let caller := m'.setCursor plan.cursor
    (.ok (), { caller with
      registers := m.calleeRegisters site instanceData plan
      frames := m.newFrame site instanceData plan stack :: caller.frames })

def enterOn (m : Machine) (site : CallSite) (instanceData : Option InstanceData)
    (stack : LocalStack) : Except CallError Unit × Machine :=
  match stack.reset m.specs.localBytes site.callee.tempBytes with
  | .error e => (.error (.outOfLocalStack (site.point m) none e), m.release stack)
  | .ok stack =>
    match m.plan (site.point m) site instanceData with
    | .error e => (.error e, m.release stack)
    | .ok plan => m.commit site instanceData plan stack

/-- Enters the block that a call names. A call that fails leaves the registers and the number of
frames as they were, but staged writes made before one that fails stay made. -/
def enter (m : Machine) (site : CallSite) : Except CallError Unit × Machine :=
  if m.specs.maxCallDepth.toNat ≤ m.depth then
    (.error (.depthExceeded (site.point m) m.specs.maxCallDepth.toNat), m)
  else
    match m.instanceFor site with
    | .error e => (.error e, m)
    | .ok instanceData =>
      let (stack, pool) := m.pool.acquire m.id
      { m with pool }.enterOn site instanceData stack

/-- The value that an output has when its frame is left, where the machine is the caller's. -/
def readOutbound (m : Machine) (o : Outbound) : Except AccessError Value :=
  match o.source with
  | .instanceData block offset => m.memory.read ⟨.dataBlock block, offset, o.width⟩
  | .callerStack offset => m.readAccess ⟨.localData, offset, o.width⟩

def writeBack (m : Machine) :
    List (Outbound × Except AccessError Value) → List WriteBackFailure × Machine
  | [] => ([], m)
  | (o, r) :: rest =>
    match r.bind (m.store o.actual) with
    | .ok m => m.writeBack rest
    | .error e =>
      let (failures, m) := m.writeBack rest
      (⟨o.parameter.name, o.actual, e⟩ :: failures, m)

def returnOutputs (m : Machine) (f : Frame) : List WriteBackFailure × Machine :=
  if f.raw then ([], m)
  else
    let values := f.outbound.map fun o => (o, m.readOutbound o)
    { m with registers := f.saved }.writeBack values

def discard (m : Machine) (f : Frame) : Machine :=
  (match f.callerMark with
    | some mark => m.setCursor mark
    | none => m).release f.stack

/-- Leaves the active frame. An output that cannot be written back does not keep it from being left. -/
def leave (m : Machine) : Except CallError Unit × Machine :=
  match m.frames with
  | [] => (.error .emptyStack, m)
  | f :: rest =>
    let (failures, m) := { m with frames := rest }.returnOutputs f.beginExit
    (if failures = [] then .ok () else .error (.writeBackFailed f.block.label failures), m.discard f)

/-- Starts a scan cycle: drops all frames, clears the registers and enters a block. -/
def begin (m : Machine) (block : Block) : Except CallError Unit × Machine :=
  let cleared := m.frames.foldl (fun m f => m.release f.stack) { m with frames := [] }
  { cleared with registers := .zero }.enter (.unconditional block)

end Machine

end PlcMachine
