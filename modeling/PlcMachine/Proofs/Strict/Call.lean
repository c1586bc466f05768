import PlcMachine.Proofs.Machine.StackInvariant
import PlcMachine.Proofs.Strict.Planning

/-! # Entering and leaving step by step

A frame has to be active when it is left, and on its way out when its local stack is taken from it. All frames
on the stack are active, so leaving never gets stuck, and entering does where the plan is made.
-/

namespace PlcMachine

open Strict

namespace Frame

def beginExit? (f : Frame) : Option Frame := if f.state = .active then some f.beginExit else none

def destroy? (f : Frame) : Option LocalStack := if f.state = .exiting then some f.stack else none

theorem beginExit?_eq {f : Frame} (h : f.state = .active) : f.beginExit? = some f.beginExit := if_pos h

theorem destroy?_beginExit (f : Frame) : f.beginExit.destroy? = some f.stack := if_pos rfl

end Frame

namespace CallSite

def selectedInstanceStrict (site : CallSite) (m : Machine) : Strict CallError (Option InstanceData) :=
  match site.instanceBlock, site.nestedBase with
  | some block, base => return some ⟨block, base.getD ⟨0, 0⟩⟩
  | none, some offset => do
    return some ⟨m.registers.di, ← step (m.registers.instanceBase.add? offset)⟩
  | none, none => return none

theorem selectedInstanceStrict_eq (site : CallSite) (m : Machine) :
    site.selectedInstanceStrict m = total (.ok (site.selectedInstance m)) := by
  unfold selectedInstanceStrict selectedInstance
  cases site.instanceBlock with
  | some block => rfl
  | none =>
    cases site.nestedBase with
    | none => rfl
    | some offset => exact step_bind (BitAddress.add?_eq _ _) _

end CallSite

namespace Machine

def instanceForStrict (m : Machine) (site : CallSite) : Strict CallError (Option InstanceData) :=
  if ¬ site.callee.isStateful then return none
  else if site.raw then return some ⟨m.registers.di, m.registers.instanceBase⟩
  else do
    match ← site.selectedInstanceStrict m with
    | none => throw (.missingInstance (site.point m))
    | some d =>
      if ¬ d.base.FitsPointer then
        throw (.access (site.point m) none (.invalidPointer (.baseOutOfReach d.base)))
      else if (m.memory.block? d.block).isNone then
        throw (.access (site.point m) none (.noSuchBlock d.block))
      else return some d

def makeWriteStrict (m : Machine) : StagedWrite → Strict AccessError Machine
  | .callerStack offset width value => m.writeAccessStrict ⟨.localData, offset, width⟩ value
  | .instanceData block offset width value => do
    return { m with memory := ← m.memory.writeStrict ⟨.dataBlock block, offset, width⟩ value }

def makeWritesStrict (m : Machine) : List StagedWrite → Option (Option AccessError × Machine)
  | [] => some (none, m)
  | w :: ws => do
    match ← (m.makeWriteStrict w).run with
    | .ok m => m.makeWritesStrict ws
    | .error e => some (some e, m)

def commitStrict (m : Machine) (site : CallSite) (instanceData : Option InstanceData) (plan : Plan)
    (stack : LocalStack) : Option (Except CallError Unit × Machine) := do
  match ← m.makeWritesStrict plan.writes with
  | (some e, m') => return (.error (.access (site.point m) none e), m'.release stack)
  | (none, m') =>
    let caller := m'.setCursor plan.cursor
    return (.ok (), { caller with
      registers := m.calleeRegisters site instanceData plan
      frames := m.newFrame site instanceData plan stack :: caller.frames })

def enterOnStrict (m : Machine) (site : CallSite) (instanceData : Option InstanceData)
    (stack : LocalStack) : Option (Except CallError Unit × Machine) :=
  match stack.reset m.specs.localBytes site.callee.tempBytes with
  | .error e => some (.error (.outOfLocalStack (site.point m) none e), m.release stack)
  | .ok stack => do
    match ← (m.planStrict (site.point m) site instanceData).run with
    | .error e => return (.error e, m.release stack)
    | .ok plan => m.commitStrict site instanceData plan stack

def enterStrict (m : Machine) (site : CallSite) : Option (Except CallError Unit × Machine) :=
  if m.specs.maxCallDepth.toNat ≤ m.depth then
    some (.error (.depthExceeded (site.point m) m.specs.maxCallDepth.toNat), m)
  else do
    match ← (m.instanceForStrict site).run with
    | .error e => return (.error e, m)
    | .ok instanceData =>
      let (stack, pool) := m.pool.acquire m.id
      { m with pool }.enterOnStrict site instanceData stack

def readOutboundStrict (m : Machine) (o : Outbound) : Strict AccessError Value :=
  match o.source with
  | .instanceData block offset => m.memory.readStrict ⟨.dataBlock block, offset, o.width⟩
  | .callerStack offset => m.readAccessStrict ⟨.localData, offset, o.width⟩

def writeBackStrict (m : Machine) :
    List (Outbound × Except AccessError Value) → Option (List WriteBackFailure × Machine)
  | [] => some ([], m)
  | (o, r) :: rest => do
    match ← (total r >>= m.storeStrict o.actual).run with
    | .ok m => m.writeBackStrict rest
    | .error e =>
      let (failures, m) ← m.writeBackStrict rest
      return (⟨o.parameter.name, o.actual, e⟩ :: failures, m)

def returnOutputsStrict (m : Machine) (f : Frame) : Option (List WriteBackFailure × Machine) :=
  if f.raw then some ([], m)
  else do
    let values ← f.outbound.mapM fun o => do return (o, ← (m.readOutboundStrict o).run)
    { m with registers := f.saved }.writeBackStrict values

def leaveStrict (m : Machine) : Option (Except CallError Unit × Machine) :=
  match m.frames with
  | [] => some (.error .emptyStack, m)
  | f :: rest => do
    let exiting ← f.beginExit?
    let (failures, m) ← { m with frames := rest }.returnOutputsStrict exiting
    let stack ← exiting.destroy?
    return (if failures = [] then .ok () else .error (.writeBackFailed f.block.label failures),
      m.discard { f with stack })

def dropFrame? (m : Machine) (f : Frame) : Option Machine := do
  let exiting ← f.beginExit?
  let stack ← exiting.destroy?
  return m.release stack

def beginStrict (m : Machine) (block : Block) : Option (Except CallError Unit × Machine) := do
  let cleared ← m.frames.foldlM dropFrame? { m with frames := [] }
  { cleared with registers := .zero }.enterStrict (.unconditional block)

theorem instanceForStrict_eq (m : Machine) (site : CallSite) :
    m.instanceForStrict site = total (m.instanceFor site) := by
  unfold instanceForStrict instanceFor
  rw [CallSite.selectedInstanceStrict_eq, total_ok_bind]
  split_ifs
  · rfl
  · cases site.selectedInstance m with
    | none => rfl
    | some d =>
      dsimp only
      split_ifs <;> rfl
  · rfl

theorem makeWriteStrict_eq (m : Machine) (w : StagedWrite) :
    m.makeWriteStrict w = total (m.makeWrite w) := by
  cases w with
  | callerStack offset width value => exact m.writeAccessStrict_eq ⟨.localData, offset, width⟩ value
  | instanceData block offset width value => exact bind_total (m.memory.writeStrict_eq _ _) fun _ _ => rfl

theorem makeWritesStrict_eq (m : Machine) (ws : List StagedWrite) :
    m.makeWritesStrict ws = some (m.makeWrites ws) := by
  induction ws generalizing m with
  | nil => rfl
  | cons w ws ih =>
    unfold makeWritesStrict makeWrites
    rw [makeWriteStrict_eq, run_total_bind]
    cases m.makeWrite w with
    | ok m => exact ih m
    | error e => rfl

theorem commitStrict_eq (m : Machine) (site : CallSite) (d : Option InstanceData) (plan : Plan)
    (stack : LocalStack) : m.commitStrict site d plan stack = some (m.commit site d plan stack) := by
  unfold commitStrict commit
  rw [makeWritesStrict_eq, some_bind]
  obtain ⟨failure, written⟩ := m.makeWrites plan.writes
  cases failure <;> rfl

variable {stuck : LocalStackError → Bool} {m : Machine}

theorem isStuck_commit (m : Machine) (site : CallSite) (d : Option InstanceData) (plan : Plan)
    (stack : LocalStack) : isStuck (CallError.isStuck stuck) (m.commit site d plan stack).1 = false := by
  unfold commit
  split <;> rfl

theorem isStuck_instanceFor (m : Machine) (site : CallSite) :
    isStuck (CallError.isStuck stuck) (m.instanceFor site) = false := by
  unfold instanceFor
  split_ifs
  · rfl
  · split
    · rfl
    · split_ifs <;> rfl
  · rfl

theorem enterOnStrict_eq (hm : m.Allocates) (hstops : Cursor.Stops stuck m.room) (site : CallSite)
    (d : Option InstanceData) (stack : LocalStack) :
    m.enterOnStrict site d stack =
      unlessStuck (CallError.isStuck stuck) (m.enterOn site d stack) := by
  unfold enterOnStrict enterOn
  cases hreset : stack.reset m.specs.localBytes site.callee.tempBytes with
  | error e =>
    unfold LocalStack.reset at hreset
    split_ifs at hreset
    cases hreset
    refine (unlessStuck_of_not_isStuck ?_).symm
    exact hstops.reserve _ _
  | ok stack =>
    dsimp only
    rw [planStrict_eq hm hstops, run_upTo_bind]
    cases m.plan (site.point m) site d with
    | error e => rfl
    | ok plan =>
      exact (m.commitStrict_eq site d plan stack).trans
        (unlessStuck_of_not_isStuck (m.isStuck_commit site d plan stack)).symm

theorem enterStrict_eq (hm : m.Allocates) (hstops : Cursor.Stops stuck m.room) (site : CallSite) :
    m.enterStrict site = unlessStuck (CallError.isStuck stuck) (m.enter site) := by
  unfold enterStrict enter
  split_ifs
  · rfl
  · rw [instanceForStrict_eq, run_total_bind]
    cases hinstance : m.instanceFor site with
    | error e =>
      have herror : isStuck (CallError.isStuck stuck) (m.instanceFor site) = false :=
        m.isStuck_instanceFor site
      rw [hinstance] at herror
      refine (unlessStuck_of_not_isStuck ?_).symm
      exact herror
    | ok d =>
      -- The pool is no concern of planning.
      have hpool : ({ m with pool := (m.pool.acquire m.id).2 } : Machine).Allocates :=
        ⟨hm.within, hm.room_lt⟩
      exact enterOnStrict_eq hpool hstops site d _

theorem readOutboundStrict_eq (m : Machine) (o : Outbound) :
    m.readOutboundStrict o = total (m.readOutbound o) := by
  unfold readOutboundStrict readOutbound
  cases o.source with
  | instanceData block offset => exact m.memory.readStrict_eq _
  | callerStack offset => exact m.readAccessStrict_eq _

theorem writeBackStrict_eq (m : Machine) (values : List (Outbound × Except AccessError Value)) :
    m.writeBackStrict values = some (m.writeBack values) := by
  induction values generalizing m with
  | nil => rfl
  | cons value rest ih =>
    obtain ⟨o, r⟩ := value
    have hstore : total r >>= m.storeStrict o.actual = total (r.bind (m.store o.actual)) :=
      bind_total rfl fun v _ => m.storeStrict_eq o.actual v
    unfold writeBackStrict writeBack
    rw [hstore, run_total_bind]
    cases r.bind (m.store o.actual) with
    | ok m => exact ih m
    | error e =>
      dsimp only
      rw [ih m]
      rfl

theorem returnOutputsStrict_eq (m : Machine) (f : Frame) :
    m.returnOutputsStrict f = some (m.returnOutputs f) := by
  unfold returnOutputsStrict returnOutputs
  split_ifs
  · rfl
  · have hvalues : (f.outbound.mapM fun o => do return (o, ← (m.readOutboundStrict o).run)) =
        some (f.outbound.map fun o => (o, m.readOutbound o)) := by
      simp only [readOutboundStrict_eq, run_total_bind]
      exact List.mapM_pure
    rw [hvalues, some_bind]
    exact writeBackStrict_eq _ _

theorem leaveStrict_eq (hm : Stacked m.frames) : m.leaveStrict = some m.leave := by
  unfold leaveStrict leave
  cases hf : m.frames with
  | nil => rfl
  | cons f rest =>
    rw [hf] at hm
    dsimp only
    rw [Frame.beginExit?_eq hm.sound.active, some_bind, returnOutputsStrict_eq, some_bind,
      Frame.destroy?_beginExit]
    rfl

theorem foldlM_dropFrame? {frames : List Frame} (h : ∀ f ∈ frames, f.Sound) (m : Machine) :
    frames.foldlM dropFrame? m = some (frames.foldl (fun m f => m.release f.stack) m) := by
  induction frames generalizing m with
  | nil => rfl
  | cons f frames ih =>
    obtain ⟨hf, hframes⟩ := List.forall_mem_cons.mp h
    have hdrop : m.dropFrame? f = some (m.release f.stack) := by
      unfold dropFrame?
      rw [Frame.beginExit?_eq hf.active, some_bind, Frame.destroy?_beginExit]
      rfl
    rw [List.foldlM_cons, hdrop, some_bind]
    exact ih hframes _

theorem beginStrict_eq (hm : Stacked m.frames) (hstops : Cursor.Stops stuck m.room) (block : Block) :
    m.beginStrict block = unlessStuck (CallError.isStuck stuck) (m.begin block) := by
  unfold beginStrict Machine.begin
  rw [foldlM_dropFrame? hm.forall_sound, some_bind, foldl_release_eq]
  exact enterStrict_eq (allocates_of_stacked .nil) (hstops.mono (Nat.zero_le _)) _

end Machine

end PlcMachine
