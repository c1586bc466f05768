import PlcMachine.Proofs.Machine.Dimensions
import PlcMachine.Proofs.Strict.Call

/-! # Requests step by step

Step by step, requests are answered as they are answered at once, and get stuck only where handing out room
stops. This takes that every frame on the stack is active, which holds in every state that requests lead to.
-/

namespace PlcMachine

open Strict

namespace Memory

def performStrict (m : Memory) (op : MemoryOperation) :
    Option (Except AccessError MemoryReply × Memory) := do
  match ← (m.performStrict? op).run with
  | .ok (reply, m') => return (.ok reply, m')
  | .error e => return (.error e, m)

theorem performStrict_eq (m : Memory) (op : MemoryOperation) :
    m.performStrict op = some (m.perform op) := by
  unfold performStrict perform
  rw [performStrict?_eq, run_total_bind]
  cases m.perform? op <;> rfl

end Memory

/-- The error is one of handing out room that stands for getting stuck. -/
def OperationError.isStuck (stuck : LocalStackError → Bool) : OperationError → Bool
  | .call e => e.isStuck stuck
  | _ => false

namespace Machine

def answerStrict {ε α : Type} (m : Machine) (wrap : ε → OperationError) (reply : α → Reply)
    (x : Strict ε α) : Option (Except OperationError Reply × Machine) := x.run.map (m.answer wrap reply)

def becomeStrict {ε : Type} (m : Machine) (wrap : ε → OperationError) (x : Strict ε Machine) :
    Option (Except OperationError Reply × Machine) := x.run.map (m.become wrap)

/-- The answer to a request, unless one of the steps that it takes has no result. -/
def performStrict (m : Machine) :
    Operation → Option (Except OperationError Reply × Machine)
  | .begin block => (m.beginStrict block).map called
  | .enter site => (m.enterStrict site).map called
  | .leave => m.leaveStrict.map called
  | .fetch op => m.answerStrict .access .value (m.fetchStrict op)
  | .resolve op => m.answerStrict .access .value (m.resolveStrict op)
  | .store op v => m.becomeStrict .access (m.storeStrict op v)
  | .parameterOperand p => m.answerStrict .access .operand (m.parameterOperandStrict p)
  | .fetchParameter p => m.answerStrict .access .value (m.fetchParameterStrict p)
  | .storeParameter p v => m.becomeStrict .access (m.storeParameterStrict p v)
  | .followParameter p => m.answerStrict .access (.operand ∘ .memory) (m.followParameterStrict p)
  | .follow pointer width compound =>
    m.answerStrict .access (.operand ∘ .memory) (m.followStrict pointer width compound)
  | .memory op =>
    (m.memory.performStrict op).map fun (r, memory) =>
      ((r.map .memory).mapError .access, { m with memory })
  | op => some (m.perform op)

theorem answerStrict_eq {ε α : Type} {m : Machine} {wrap : ε → OperationError} {reply : α → Reply}
    {x : Strict ε α} {r : Except ε α} (h : x = total r) :
    m.answerStrict wrap reply x = some (m.answer wrap reply r) := by
  rw [h]
  rfl

theorem becomeStrict_eq {ε : Type} {m : Machine} {wrap : ε → OperationError} {x : Strict ε Machine}
    {r : Except ε Machine} (h : x = total r) : m.becomeStrict wrap x = some (m.become wrap r) := by
  rw [h]
  rfl

variable {stuck : LocalStackError → Bool} {m : Machine}

theorem isStuck_called (x : Except CallError Unit × Machine) :
    isStuck (OperationError.isStuck stuck) (called x).1 = isStuck (CallError.isStuck stuck) x.1 := by
  obtain ⟨r, m⟩ := x
  cases r <;> rfl

theorem map_called_unlessStuck (x : Except CallError Unit × Machine) :
    (unlessStuck (CallError.isStuck stuck) x).map called =
      unlessStuck (OperationError.isStuck stuck) (called x) := by
  unfold unlessStuck
  rw [isStuck_called]
  split_ifs <;> rfl

theorem isStuck_answer {ε α : Type} (m : Machine) (wrap : ε → OperationError) (reply : α → Reply)
    (r : Except ε α) : isStuck (OperationError.isStuck stuck) (m.answer wrap reply r).1 =
      isStuck (fun e => OperationError.isStuck stuck (wrap e)) r := by
  cases r <;> rfl

theorem isStuck_become {ε : Type} (m : Machine) (wrap : ε → OperationError) (r : Except ε Machine) :
    isStuck (OperationError.isStuck stuck) (m.become wrap r).1 =
      isStuck (fun e => OperationError.isStuck stuck (wrap e)) r := by
  cases r <;> rfl

theorem isStuck_leave (m : Machine) : isStuck (CallError.isStuck stuck) m.leave.1 = false := by
  unfold leave
  split
  · rfl
  · dsimp only
    split_ifs <;> rfl

theorem isStuck_perform {op : Operation} (hbegin : ∀ block, op ≠ .begin block)
    (henter : ∀ site, op ≠ .enter site) :
    isStuck (OperationError.isStuck stuck) (m.perform op).1 = false := by
  cases op with
  | begin block => exact absurd rfl (hbegin block)
  | enter site => exact absurd rfl (henter site)
  | leave => exact (isStuck_called m.leave).trans m.isStuck_leave
  | resolveSlot index =>
    exact (m.isStuck_answer .call .operand _).trans (Planning.isStuck_resolveSlot m index)
  | memory op =>
    change isStuck _ (((m.memory.perform op).1.map _).mapError _) = false
    cases (m.memory.perform op).1 <;> rfl
  | fetch _ | resolve _ | fetchParameter _ | followParameter _ | follow _ _ _ =>
    exact (m.isStuck_answer .access _ _).trans (isStuck_of_forall (fun _ => rfl) _)
  | store _ _ | storeParameter _ _ | openBlock _ =>
    exact (m.isStuck_become .access _).trans (isStuck_of_forall (fun _ => rfl) _)
  | reconfigure specs =>
    exact (m.isStuck_become .specs _).trans (isStuck_of_forall (fun _ => rfl) _)
  | parameterOperand _ | setRegisters _ | setInstanceBase _ | setIp _ => rfl

theorem performStrict_of_other (hm : Stacked m.frames) {op : Operation}
    (hbegin : ∀ block, op ≠ .begin block) (henter : ∀ site, op ≠ .enter site) :
    m.performStrict op = some (m.perform op) := by
  cases op with
  | begin block => exact absurd rfl (hbegin block)
  | enter site => exact absurd rfl (henter site)
  | leave => exact congrArg (Option.map called) (leaveStrict_eq hm)
  | fetch op => exact answerStrict_eq (m.fetchStrict_eq op)
  | resolve op => exact answerStrict_eq (m.resolveStrict_eq op)
  | store op v => exact becomeStrict_eq (m.storeStrict_eq op v)
  | parameterOperand p => exact answerStrict_eq (m.parameterOperandStrict_eq p)
  | fetchParameter p => exact answerStrict_eq (m.fetchParameterStrict_eq p)
  | storeParameter p v => exact becomeStrict_eq (m.storeParameterStrict_eq p v)
  | followParameter p => exact answerStrict_eq (m.followParameterStrict_eq p)
  | follow pointer width compound => exact answerStrict_eq (m.followStrict_eq pointer width compound)
  | memory op => exact congrArg (Option.map _) (m.memory.performStrict_eq op)
  | _ => rfl

theorem performStrict_eq (hm : Stacked m.frames) (hstops : Cursor.Stops stuck m.room) (op : Operation) :
    m.performStrict op = unlessStuck (OperationError.isStuck stuck) (m.perform op) := by
  cases op with
  | begin block =>
    exact (congrArg (Option.map called) (beginStrict_eq hm hstops block)).trans
      (map_called_unlessStuck _)
  | enter site =>
    exact (congrArg (Option.map called) (enterStrict_eq (allocates_of_stacked hm) hstops site)).trans
      (map_called_unlessStuck _)
  | _ =>
    rw [performStrict_of_other hm (by simp) (by simp),
      unlessStuck_of_not_isStuck (isStuck_perform (by simp) (by simp))]

theorem isStuck_isOverflow_iff {α : Type} {r : Except OperationError α} :
    isStuck (OperationError.isStuck LocalStackError.isOverflow) r ↔
      ∃ point parameter, r = .error (.call (.outOfLocalStack point parameter .overflow)) := by
  constructor
  · intro h
    match r, h with
    | .error (.call (.outOfLocalStack point parameter .overflow)), _ => exact ⟨point, parameter, rfl⟩
  · rintro ⟨point, parameter, rfl⟩
    rfl

/-- In every state that a controller gets into, a request gets stuck if and only if handing out local data
stops with an overflow, and else is answered as it is at once. No request gets stuck if the local data is
configured with less than 2³² - 2 bytes. -/
theorem performStrict_run (id : MachineId) (specs : Specs) (ops : List Operation) (op : Operation) :
    let m := (ofSpecs id specs).run ops
    (m.performStrict op = none ↔ ∃ point parameter,
      (m.perform op).1 = .error (.call (.outOfLocalStack point parameter .overflow))) ∧
    (∀ answer, m.performStrict op = some answer → answer = m.perform op) ∧
    (specs.localBytes.toNat < UInt32.size - 2 → m.performStrict op = some (m.perform op)) := by
  intro m
  have hm : Stacked m.frames := ((Reachable.start id specs).run ops).stacked
  have hoverflow := performStrict_eq hm (Cursor.stops_isOverflow (allocates_of_stacked hm).room_lt) op
  refine ⟨?_, ?_, ?_⟩
  · rw [hoverflow, ← isStuck_isOverflow_iff, unlessStuck]
    split_ifs with h <;> simp [h]
  · intro answer h
    rw [hoverflow, unlessStuck] at h
    split_ifs at h
    exact (Option.some.inj h).symm
  · -- Dimensions that are adopted later are valid, so only the first ones can give more than 65536 bytes.
    intro hlocal
    have hwithin : m.LocalWithin (max specs.localBytes.toNat 65536) :=
      localWithin_run (Nat.le_max_left _ _) (Nat.le_max_right _ _) ops
    have hroom : m.room + 2 < UInt32.size := by
      have hle := hwithin.room_le
      have hsize : UInt32.size = 4294967296 := rfl
      omega
    rw [performStrict_eq hm (Cursor.stops_nowhere hroom) op]
    refine unlessStuck_of_not_isStuck (isStuck_of_forall ?_ _)
    rintro (e | _ | _)
    · cases e <;> rfl
    · rfl
    · rfl

namespace Full

/-- Local data of so many bytes, all of which the block that is entered first takes. -/
def usedUp (localBytes : UInt32) : Machine :=
  (ofSpecs ⟨0⟩ ⟨localBytes, 4, 1, 1, 1, 1, 1⟩).run [.begin ⟨.organization, 1, "", localBytes, []⟩]

def call : Operation :=
  .enter ⟨⟨.function, 1, "", 0, [.scalar "x" 0 ⟨0, 0⟩ 16]⟩, false, none, none,
    [⟨.scalar "x" 0 ⟨0, 0⟩ 16, .immediate (.scalar 7) 16 false, .input⟩]⟩

end Full

open Full in
/-- The call is refused where local data is used up, and gets stuck if that is 2³² - 2 bytes. -/
theorem performStrict_run_full :
    (usedUp 4294967294).performStrict call = none ∧
      (usedUp 8).performStrict call = some ((usedUp 8).perform call) ∧
        ((usedUp 8).perform call).1 = .error (.call (.outOfLocalStack ⟨some ("OB 1", 0), "FC 1"⟩ (some "x")
          (.exhausted 16 8 8))) := by
  obtain ⟨hfull, -, -⟩ := performStrict_run ⟨0⟩ ⟨4294967294, 4, 1, 1, 1, 1, 1⟩
    [.begin ⟨.organization, 1, "", 4294967294, []⟩] call
  obtain ⟨-, -, hsmall⟩ := performStrict_run ⟨0⟩ ⟨8, 4, 1, 1, 1, 1, 1⟩
    [.begin ⟨.organization, 1, "", 8, []⟩] call
  refine ⟨hfull.mpr ⟨⟨some ("OB 1", 0), "FC 1"⟩, some "x", ?_⟩, hsmall (by decide), ?_⟩
  · decide +kernel
  · decide +kernel

end Machine

end PlcMachine
