import PlcMachine.Proofs.Machine.StackInvariant

/-! # Dimensions and sizes of local stacks

Only an accepted reconfiguration changes the dimensions. A frame gets a local stack of the size that is
in force when it is entered and keeps it, so that sizes stay within the bounds of the dimensions.
-/

namespace PlcMachine

namespace Machine

variable {m m' : Machine} {site : CallSite} {d : Option InstanceData} {stack : LocalStack} {plan : Plan}
  {written : Machine}

theorem capacities_rewind (fs : List Frame) (c : Frame → Cursor) :
    (fs.modifyHead fun f => f.rewind (c f)).map (·.stack.capacity) = fs.map (·.stack.capacity) := by
  cases fs <;> rfl

theorem Enters.specs_eq (h : m.Enters site d stack plan written m') : m'.specs = m.specs := by
  have hspecs : written.specs = m.specs := specs_of_blank_eq h.blank_written
  rw [h.machine, setCursor_eq]
  exact hspecs

theorem Enters.capacities_eq (h : m.Enters site d stack plan written m') :
    m'.capacities = m.specs.localBytes.toNat :: m.capacities := by
  have hready := h.ready
  unfold LocalStack.reset at hready
  split_ifs at hready
  cases hready
  have hcallers := capacities_rewind written.frames fun _ => plan.cursor
  rw [← capacities_of_blank_eq h.blank_written, capacities, capacities, h.frames, List.map_cons, hcallers]
  exact congrArg (· :: _) (ByteStore.size_resize _ _)

theorem enter_keeps (m : Machine) (site : CallSite) : (m.enter site).2.specs = m.specs ∧
    ∀ c ∈ (m.enter site).2.capacities, c = m.specs.localBytes.toNat ∨ c ∈ m.capacities := by
  obtain ⟨d, stack, plan, written, m', he, henters⟩ | ⟨e, pool, he⟩ |
    ⟨d, stack, plan, e, written, pool, -, hw, he⟩ := m.enter_cases site
  · rw [he]
    refine ⟨henters.specs_eq, ?_⟩
    rw [henters.capacities_eq]
    exact fun c hc => List.mem_cons.mp hc
  · rw [he]
    exact ⟨rfl, fun c hc => .inr hc⟩
  · have hblank : written.blank = m.blank := blank_of_makeWrites hw
    have hspecs : written.specs = m.specs := specs_of_blank_eq hblank
    have hcapacities : written.capacities = m.capacities := capacities_of_blank_eq hblank
    rw [he]
    exact ⟨hspecs, fun c hc => .inr (hcapacities ▸ hc)⟩

theorem leave_keeps (m : Machine) :
    m.leave.2.specs = m.specs ∧ m.leave.2.capacities = m.capacities.tail := by
  cases hf : m.frames with
  | nil =>
    rw [leave_of_nil hf]
    refine ⟨rfl, ?_⟩
    rw [capacities, hf]
    rfl
  | cons f rest =>
    obtain ⟨failures, written, hblank, -, hleave⟩ := leave_eq hf
    obtain ⟨pool, hdiscard⟩ := written.discard_eq f
    have hcapacities : written.capacities = (m.returned f rest).capacities :=
      capacities_of_blank_eq hblank
    refine ⟨specs_leave hf, ?_⟩
    rw [hleave, hdiscard, capacities, capacities_rewind, ← capacities, hcapacities, capacities, capacities, hf]
    rfl

theorem begin_keeps (m : Machine) (block : Block) : (m.begin block).2.specs = m.specs ∧
    ∀ c ∈ (m.begin block).2.capacities, c = m.specs.localBytes.toNat := by
  obtain ⟨pool, h⟩ := m.begin_eq block
  obtain ⟨hspecs, hcapacities⟩ :=
    ({ m with frames := [], registers := .zero, pool } : Machine).enter_keeps (.unconditional block)
  rw [h]
  refine ⟨hspecs, fun c hc => (hcapacities c hc).resolve_right ?_⟩
  exact List.not_mem_nil

theorem answer_eq {ε α : Type} (m : Machine) (wrap : ε → OperationError) (reply : α → Reply)
    (r : Except ε α) : (m.answer wrap reply r).2 = m := by
  cases r <;> rfl

theorem capacities_setIp (m : Machine) (ip : Nat) : (m.setIp ip).capacities = m.capacities := by
  unfold setIp capacities
  split
  · rfl
  · next hf =>
    rw [hf]
    rfl

/-- The dimensions that a request brings into force: those of a reconfiguration that is accepted. -/
def accepted? : Operation → Option Specs
  | .reconfigure specs => (specs.validate.map fun _ => specs).toOption
  | _ => none

/-- What one request does to the dimensions, to the local stacks of the frames and to the pool. -/
inductive Manages (m : Machine) : Operation → Machine → Prop where
  | keep {op : Operation} {m' : Machine} (h : accepted? op = none) (hspecs : m'.specs = m.specs)
      (hpool : m'.pool = m.pool) (hcapacities : m'.capacities = m.capacities) : Manages m op m'
  | enter (site : CallSite) : Manages m (.enter site) (m.enter site).2
  | leave : Manages m .leave m.leave.2
  | begin (block : Block) : Manages m (.begin block) (m.begin block).2
  | reconfigure {specs : Specs} {m' : Machine} (h : specs.validate = .ok ())
      (hm : m' = { m with
        specs, memory := m.memory.resize specs, pool := m.pool.reconfigure specs.localBytes }) :
      Manages m (.reconfigure specs) m'

section

variable {op : Operation} (h : accepted? op = none)
include h

theorem manages_answer {ε α : Type} (m : Machine) (wrap : ε → OperationError) (reply : α → Reply)
    (r : Except ε α) : m.Manages op (m.answer wrap reply r).2 := by
  rw [answer_eq]
  exact .keep h rfl rfl rfl

theorem manages_store (m : Machine) (wrap : AccessError → OperationError) (actual : Operand)
    (v : Value) : m.Manages op (m.become wrap (m.store actual v)).2 := by
  cases hstore : m.store actual v with
  | error e => exact .keep h rfl rfl rfl
  | ok m' =>
    have hblank := blank_of_store hstore
    exact .keep h (specs_of_blank_eq hblank) (pool_of_blank_eq hblank) (capacities_of_blank_eq hblank)

end

theorem manages (m : Machine) (op : Operation) : m.Manages op (m.after op) := by
  cases op with
  | enter site => exact .enter site
  | leave => exact .leave
  | begin block => exact .begin block
  | fetch _ | resolve _ | resolveSlot _ | fetchParameter _ | followParameter _ | follow _ _ _ =>
    exact manages_answer rfl ..
  | store _ _ | storeParameter _ _ => exact manages_store rfl ..
  | parameterOperand _ | setRegisters _ | setInstanceBase _ | memory _ => exact .keep rfl rfl rfl rfl
  | openBlock number =>
    change m.Manages _ (m.become .access (m.openBlock number)).2
    unfold openBlock
    cases m.memory.block number <;> exact .keep rfl rfl rfl rfl
  | setIp ip =>
    have hcapacities : (m.setIp ip).capacities = m.capacities := m.capacities_setIp ip
    refine .keep rfl ?_ ?_ hcapacities
    · change (m.setIp ip).specs = m.specs
      unfold setIp
      cases m.frames <;> rfl
    · change (m.setIp ip).pool = m.pool
      unfold setIp
      cases m.frames <;> rfl
  | reconfigure specs =>
    change m.Manages _ (m.become .specs (m.reconfigure specs)).2
    cases hvalid : specs.validate with
    | error e =>
      rw [reconfigure, hvalid]
      refine .keep ?_ rfl rfl rfl
      rw [accepted?, hvalid]
      rfl
    | ok =>
      rw [reconfigure, hvalid]
      exact .reconfigure hvalid rfl

theorem specs_after_eq (m : Machine) (op : Operation) :
    (m.after op).specs = (accepted? op).getD m.specs := by
  cases m.manages op with
  | keep h hspecs _ _ =>
    rw [h]
    exact hspecs
  | enter site => exact (m.enter_keeps site).1
  | leave => exact m.leave_keeps.1
  | begin block => exact (m.begin_keeps block).1
  | reconfigure h hm =>
    rw [hm, accepted?, h]
    rfl

theorem validate_of_accepted {op : Operation} {specs : Specs} (h : accepted? op = some specs) :
    specs.validate = .ok () := by
  cases op with
  | reconfigure specs' =>
    rw [accepted?] at h
    cases hvalid : specs'.validate with
    | error e =>
      rw [hvalid] at h
      cases h
    | ok =>
      rw [hvalid] at h
      cases h
      exact hvalid
  | _ => cases h

theorem specs_after (m : Machine) (op : Operation) :
    (m.after op).specs = m.specs ∨ (m.after op).specs.validate = .ok () := by
  rw [specs_after_eq]
  cases h : accepted? op with
  | none => exact .inl rfl
  | some specs => exact .inr (validate_of_accepted h)

theorem localBytes_le_of_validate {specs : Specs} (h : specs.validate = .ok ()) :
    specs.localBytes ≤ 65536 := by
  unfold Specs.validate at h
  split_ifs at h with hlocal
  exact hlocal.2

/-- The local data that is configured, and that of each frame, is at most `n` bytes. -/
structure LocalWithin (m : Machine) (n : Nat) : Prop where
  specs : m.specs.localBytes.toNat ≤ n
  frames : ∀ c ∈ m.capacities, c ≤ n

section LocalWithin

variable {n : Nat}

theorem LocalWithin.after (h : m.LocalWithin n) (hn : 65536 ≤ n) (op : Operation) :
    (m.after op).LocalWithin n := by
  constructor
  · rcases m.specs_after op with hspecs | hvalid
    · rw [hspecs]
      exact h.specs
    · exact Nat.le_trans (localBytes_le_of_validate hvalid) hn
  · cases m.acts op with
    | keep hf =>
      unfold capacities
      rw [hf]
      exact h.frames
    | write hw =>
      rw [capacities_of_blank_eq (blank_of_writeAccess hw)]
      exact h.frames
    | setIp ip => exact m.capacities_setIp ip ▸ h.frames
    | enter site =>
      intro c hc
      rcases (m.enter_keeps site).2 c hc with rfl | hc
      · exact h.specs
      · exact h.frames c hc
    | leave => exact fun c hc => h.frames c (List.mem_of_mem_tail (m.leave_keeps.2 ▸ hc))
    | begin block =>
      intro c hc
      rw [(m.begin_keeps block).2 c hc]
      exact h.specs

theorem LocalWithin.room_le (h : m.LocalWithin n) : m.room ≤ n := by
  unfold room
  cases hf : m.frames with
  | nil => exact Nat.zero_le _
  | cons f rest =>
    refine h.frames _ ?_
    rw [capacities, hf]
    exact List.mem_cons_self

/-- Requests bring in no more local data than the controller is created with or may be configured. -/
theorem localWithin_run {id : MachineId} {specs : Specs} (h : specs.localBytes.toNat ≤ n)
    (hn : 65536 ≤ n) (ops : List Operation) : ((ofSpecs id specs).run ops).LocalWithin n := by
  have hstart : (ofSpecs id specs).LocalWithin n := ⟨h, fun _ hc => (List.not_mem_nil hc).elim⟩
  generalize ofSpecs id specs = m at hstart ⊢
  induction ops generalizing m with
  | nil => exact hstart
  | cons op ops ih => exact ih _ (hstart.after hn op)

end LocalWithin

end Machine

end PlcMachine
