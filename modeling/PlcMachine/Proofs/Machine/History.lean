import PlcMachine.Machine.Operation
import PlcMachine.Proofs.LocalStack.Pool
import PlcMachine.Proofs.Machine.Entering
import PlcMachine.Proofs.Machine.Leaving

/-! # Histories

The states that a controller can get into, and the few ways in which one request acts on its frames.
-/

namespace PlcMachine.Machine

/-- The controller after a request, whether it succeeded or failed. -/
def after (m : Machine) (op : Operation) : Machine := (m.perform op).2

def run (m : Machine) (ops : List Operation) : Machine := ops.foldl after m

/-- The states that requests lead to, starting from zeroed memory and no frames. -/
inductive Reachable : Machine → Prop where
  | start (id : MachineId) (specs : Specs) : Reachable (.ofSpecs id specs)
  | step {m : Machine} (h : Reachable m) (op : Operation) : Reachable (m.after op)

theorem Reachable.run {m : Machine} (h : m.Reachable) (ops : List Operation) :
    (m.run ops).Reachable := by
  induction ops generalizing m with
  | nil => exact h
  | cons op ops ih => exact ih (h.step op)

theorem Reachable.enter {m m' : Machine} {site : CallSite} (hm : m.Reachable)
    (h : m.enter site = (.ok (), m')) : m'.Reachable := by
  have hafter : m.after (.enter site) = m' := (congrArg Prod.snd h :)
  exact hafter ▸ hm.step (.enter site)

/-- What one request does to the frames. -/
inductive Acts (m : Machine) : Operation → Machine → Prop where
  | keep {op : Operation} {m' : Machine} (h : m'.frames = m.frames) : Acts m op m'
  | write {op : Operation} {a : Access} {v : Value} {m' : Machine}
      (h : m.writeAccess a v = .ok m') : Acts m op m'
  | setIp (ip : Nat) : Acts m (.setIp ip) (m.setIp ip)
  | enter (site : CallSite) : Acts m (.enter site) (m.enter site).2
  | leave : Acts m .leave m.leave.2
  | begin (block : Block) : Acts m (.begin block) (m.begin block).2

theorem acts_answer {ε α : Type} (m : Machine) (op : Operation) (wrap : ε → OperationError)
    (reply : α → Reply) (r : Except ε α) : m.Acts op (m.answer wrap reply r).2 := by
  cases r with
  | ok a => exact .keep rfl
  | error e => exact .keep rfl

theorem acts_store (m : Machine) (op : Operation) (wrap : AccessError → OperationError)
    (actual : Operand) (v : Value) : m.Acts op (m.become wrap (m.store actual v)).2 := by
  cases h : m.store actual v with
  | ok m' =>
    obtain ⟨a, hw⟩ := store_cases h
    exact .write hw
  | error e => exact .keep rfl

theorem acts (m : Machine) (op : Operation) : m.Acts op (m.after op) := by
  cases op with
  | begin block => exact .begin block
  | enter site => exact .enter site
  | leave => exact .leave
  | setIp ip => exact .setIp ip
  | fetch op => exact acts_answer ..
  | resolve op => exact acts_answer ..
  | resolveSlot index => exact acts_answer ..
  | fetchParameter p => exact acts_answer ..
  | followParameter p => exact acts_answer ..
  | follow pointer width compound => exact acts_answer ..
  | store actual v => exact acts_store ..
  | storeParameter p v => exact acts_store ..
  | parameterOperand p => exact .keep rfl
  | setRegisters registers => exact .keep rfl
  | setInstanceBase base => exact .keep rfl
  | memory op => exact .keep rfl
  | openBlock number =>
    refine .keep ?_
    change (m.become .access (m.openBlock number)).2.frames = m.frames
    unfold openBlock
    cases m.memory.block number <;> rfl
  | reconfigure specs =>
    refine .keep ?_
    change (m.become .specs (m.reconfigure specs)).2.frames = m.frames
    unfold reconfigure
    cases specs.validate <;> rfl

theorem id_release (m : Machine) (s : LocalStack) : (m.release s).id = m.id :=
  m.pool.owner_release m.id s

theorem foldl_release_eq (frames : List Frame) (m : Machine) :
    frames.foldl (fun m f => m.release f.stack) m =
      { m with pool := (frames.map (·.stack)).foldl (·.release m.id) m.pool } := by
  induction frames generalizing m with
  | nil => rfl
  | cons f frames ih =>
    rw [List.foldl_cons, ih, id_release]
    rfl

theorem foldl_release (frames : List Frame) (m : Machine) : ∃ pool : Pool, pool.owner = m.id ∧
    frames.foldl (fun m f => m.release f.stack) m = { m with pool } :=
  ⟨_, Pool.owner_foldl_release _ _ _, foldl_release_eq frames m⟩

/-- The controller at the start of a scan cycle, with the local stacks of all frames taken back. -/
def cleared (m : Machine) : Machine :=
  { m with
    frames := []
    registers := .zero
    pool := (m.frames.map (·.stack)).foldl (·.release m.id) m.pool }

theorem begin_eq_enter (m : Machine) (block : Block) :
    m.begin block = m.cleared.enter (.unconditional block) := by
  unfold Machine.begin
  rw [foldl_release_eq]
  rfl

theorem begin_eq (m : Machine) (block : Block) : ∃ pool, m.begin block =
    ({ m with frames := [], registers := .zero, pool } : Machine).enter (.unconditional block) :=
  ⟨_, m.begin_eq_enter block⟩

end PlcMachine.Machine
