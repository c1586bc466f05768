import PlcMachine.Proofs.Machine.Agree

/-! # Plans of controllers that agree

Planning depends on contents only through the actuals that it reads. If these have been stored, controllers
that agree plan a call alike, or refuse it alike.
-/

namespace PlcMachine

namespace Agree

variable {stored : List (List Access)} {p q : Machine}

theorem point_eq (h : Agree stored p q) (site : CallSite) : site.point p = site.point q := by
  unfold CallSite.point
  rw [h.head_eq (fun f => (f.block.label, f.ip)) fun _ => rfl]

theorem mark_eq (h : Agree stored p q) : p.mark = q.mark := h.head_eq _ fun _ => rfl

theorem start_eq (h : Agree stored p q) : p.start = q.start := by
  unfold Machine.start
  rw [h.mark_eq]

theorem resolveSlot_eq (h : Agree stored p q) (i : UInt32) : p.resolveSlot i = q.resolveSlot i := by
  unfold Machine.resolveSlot
  obtain ⟨rfl, hp, hq⟩ | ⟨as, rest, f, fs, g, gs, rfl, hp, hq, head, -⟩ := h.frames.eq_nil_or_cons
  · rw [hp, hq]
  · have hslot : f.slot? i = g.slot? i := (congrArg (·.slot? i) head.blank :)
    have hlabel : f.block.label = g.block.label := (congrArg (·.block.label) head.blank :)
    have hip : f.ip = g.ip := (congrArg Frame.ip head.blank :)
    rw [hp, hq]
    dsimp only
    rw [hslot, hlabel, hip]

theorem instanceFor_eq (h : Agree stored p q) (site : CallSite) :
    p.instanceFor site = q.instanceFor site := by
  unfold Machine.instanceFor CallSite.selectedInstance
  rw [h.point_eq, h.registers, h.memory]

section Bindings

variable (h : Agree stored p q) (point : CallPoint) (b : Binding) (plan : Plan)
include h

theorem forwarded_eq (op : Operand) :
    Planning.forwarded ⟨p, point⟩ op = Planning.forwarded ⟨q, point⟩ op := by
  cases op with
  | slot i => exact h.resolveSlot_eq i
  | immediate _ _ _ | memory _ | block _ _ => rfl

theorem allocate_eq (width : UInt32) :
    Planning.allocate ⟨p, point⟩ b width plan = Planning.allocate ⟨q, point⟩ b width plan := by
  unfold Planning.allocate
  obtain ⟨rfl, hp, hq⟩ | ⟨as, rest, f, fs, g, gs, rfl, hp, hq, head, -⟩ := h.frames.eq_nil_or_cons
  · dsimp only
    rw [hp, hq]
  · have hcapacity : f.stack.capacity = g.stack.capacity := head.size_eq
    dsimp only
    rw [hp, hq]
    dsimp only
    rw [hcapacity]

theorem copy_eq {actual : Operand} (hread : p.resolve actual = q.resolve actual) :
    Planning.copy ⟨p, point⟩ b actual plan = Planning.copy ⟨q, point⟩ b actual plan := by
  unfold Planning.copy
  dsimp only [Planning.access]
  rw [hread]
  simp only [h.allocate_eq]

theorem copyPointer_eq (pointer : Pointer) :
    Planning.copyPointer ⟨p, point⟩ b pointer plan = Planning.copyPointer ⟨q, point⟩ b pointer plan := by
  unfold Planning.copyPointer
  rw [h.allocate_eq]

theorem pass_eq (actual : Operand)
    (hknown : actual.passing = .copy → ∀ a ∈ p.readsOf actual, Known stored a) :
    Planning.pass ⟨p, point⟩ b actual plan = Planning.pass ⟨q, point⟩ b actual plan := by
  unfold Planning.pass
  cases hpass : actual.passing with
  | direct | «alias» _ | refused _ | forward _ => rfl
  | copy =>
    dsimp only
    rw [h.copy_eq point b plan (h.resolve_eq (hknown hpass))]
  | pointerToCopy =>
    have hread : p.resolve actual = q.resolve actual := by
      refine h.resolve_eq ?_
      cases actual with
      | immediate _ _ _ => simp [Machine.readsOf, Machine.unslot]
      | memory l => exact absurd hpass l.passing_ne_pointerToCopy
      | block _ _ | slot _ => cases hpass
    dsimp only
    rw [h.copy_eq point b plan hread]
    simp only [h.copyPointer_eq]
  | pointer l =>
    dsimp only
    rw [h.registers]
    simp only [h.copyPointer_eq]
    rfl

theorem bindSlot_eq (hknown : ∀ a ∈ p.readsOfBinding none b, Known stored a) :
    Planning.bindSlot ⟨p, point⟩ plan b = Planning.bindSlot ⟨q, point⟩ plan b := by
  unfold Planning.bindSlot
  rw [← h.forwarded_eq]
  cases hforwarded : Planning.forwarded ⟨p, point⟩ b.actual with
  | error e => rfl
  | ok actual =>
    have hactual : p.unslot b.actual = .ok actual := Machine.forwarded_eq_ok.mp hforwarded
    have hpass := h.pass_eq point b plan actual ?_
    · simp only [bind, Except.bind, hpass]
    · intro hcopy a ha
      cases actual with
      | memory l =>
        refine hknown a ?_
        have hpassing : l.passing = .copy := hcopy
        simpa [Machine.readsOfBinding, hactual, hpassing] using ha
      | immediate _ _ _ => simp [Machine.readsOf, Machine.unslot] at ha
      | block _ _ | slot _ => cases hcopy

theorem inbound_eq (actual : Operand)
    (hread : b.parameter.transfer b.direction actual = .value → actual.width? = some b.parameter.width →
      b.direction.isInbound = true → p.resolve actual = q.resolve actual) :
    Planning.inbound ⟨p, point⟩ b actual = Planning.inbound ⟨q, point⟩ b actual := by
  unfold Planning.inbound
  cases ht : b.parameter.transfer b.direction actual with
  | refused _ | reference => rfl
  | value =>
    dsimp only
    split_ifs with hwidth hdir
    · rfl
    · dsimp only [Planning.access]
      rw [hread ht (not_not.mp hwidth) hdir]
    · rfl
  | pointer =>
    dsimp only
    rw [h.registers]
    rfl

theorem stageInstance_eq (block : UInt16) (offset : BitAddress) (width : UInt32) (value : Value) :
    Planning.stageInstance ⟨p, point⟩ b block offset width value plan =
      Planning.stageInstance ⟨q, point⟩ b block offset width value plan := by
  unfold Planning.stageInstance
  dsimp only
  rw [h.memory]
  rfl

theorem queueInstance_eq (actual : Operand) (block : UInt16) (offset : BitAddress) :
    Planning.queueInstance ⟨p, point⟩ b actual block offset plan =
      Planning.queueInstance ⟨q, point⟩ b actual block offset plan := by
  unfold Planning.queueInstance
  dsimp only
  rw [h.memory]
  rfl

theorem bindInstance_eq (d : InstanceData) (hknown : ∀ a ∈ p.readsOfBinding (some d) b, Known stored a) :
    Planning.bindInstance ⟨p, point⟩ d plan b = Planning.bindInstance ⟨q, point⟩ d plan b := by
  unfold Planning.bindInstance
  rw [← h.forwarded_eq]
  cases hforwarded : Planning.forwarded ⟨p, point⟩ b.actual with
  | error e => rfl
  | ok actual =>
    have hactual : p.unslot b.actual = .ok actual := Machine.forwarded_eq_ok.mp hforwarded
    have hinbound := h.inbound_eq point b actual ?_
    · simp only [bind, Except.bind, hinbound, h.stageInstance_eq, h.queueInstance_eq]
    · intro ht hwidth hdir
      refine h.resolve_eq fun a ha => ?_
      cases actual with
      | memory l =>
        refine hknown a ?_
        have hw : l.width = b.parameter.width := Option.some.inj hwidth
        simpa [Machine.readsOfBinding, hactual, ht, hw, hdir] using ha
      | immediate _ _ _ | block _ _ => simp [Machine.readsOf, Machine.unslot] at ha
      | slot _ => cases hwidth

theorem bindStep_eq (d : Option InstanceData) (hknown : ∀ a ∈ p.readsOfBinding d b, Known stored a) :
    p.bindStep point d plan b = q.bindStep point d plan b := by
  cases d with
  | none => exact h.bindSlot_eq point b plan hknown
  | some d => exact h.bindInstance_eq point b plan d hknown

end Bindings

/-- Bindings are planned alike, one after another, up to the first that is refused. -/
theorem foldlM_bindStep_eq (h : Agree stored p q) (point : CallPoint) (d : Option InstanceData)
    (bs : List Binding) (plan : Plan)
    (hknown : ∀ a ∈ p.readsOfBindings point d bs plan, Known stored a) :
    bs.foldlM (p.bindStep point d) plan = bs.foldlM (q.bindStep point d) plan := by
  induction bs generalizing plan with
  | nil => rfl
  | cons b bs ih =>
    unfold Machine.readsOfBindings at hknown
    obtain ⟨hb, hbs⟩ := List.forall_mem_append.mp hknown
    rw [List.foldlM_cons, List.foldlM_cons, ← h.bindStep_eq point b plan d hb]
    cases hstep : p.bindStep point d plan b with
    | error e => rfl
    | ok plan' =>
      rw [hstep] at hbs
      exact ih plan' hbs

theorem plan_eq (h : Agree stored p q) {site : CallSite} {d : Option InstanceData}
    (hdepth : p.depth < p.specs.maxCallDepth.toNat)
    (htemps : ¬ p.specs.localBytes < site.callee.tempBytes) (hd : p.instanceFor site = .ok d)
    (hknown : ∀ a ∈ p.readsOfEnter site, Known stored a) :
    p.plan (site.point p) site d = q.plan (site.point q) site d := by
  have hfold : ∀ m : Machine, ∀ point, m.plan point site d =
      if site.raw then .ok (.empty m.start)
      else site.orderedBindings point >>= fun bs => bs.foldlM (m.bindStep point d) (.empty m.start) := by
    intro m point
    unfold Machine.plan
    cases d <;> rfl
  rw [hfold, hfold, ← h.point_eq, ← h.start_eq]
  split_ifs with hraw
  · rfl
  · cases hbs : site.orderedBindings (site.point p) with
    | error e => rfl
    | ok bs =>
      refine h.foldlM_bindStep_eq (site.point p) d bs _ ?_
      simpa [Machine.readsOfEnter, Nat.not_le.mpr hdepth, htemps, hraw, hd, hbs] using hknown

end Agree

end PlcMachine
