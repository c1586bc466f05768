import PlcMachine.Proofs.Machine.Supply

/-! # Plans of whole calls

The plan of a stateless call is what its bindings deliver one after another. The plan of a stateful
call consists of writes to its instance data that were checked, and takes no room.
-/

namespace PlcMachine

namespace Planning

section Folds

variable {c : Planning} {bs : List Binding} {plan plan' : Plan} {low : Nat}

theorem extends_of_foldlM (h : bs.foldlM c.bindSlot plan = .ok plan')
    (hc : plan.cursor.Within low c.machine.room) (hroom : c.machine.room < UInt32.size) :
    plan.Extends low c.machine.room plan' := by
  induction bs generalizing plan with
  | nil =>
    cases pure_eq_ok.mp h
    exact .refl hc
  | cons b bs ih =>
    rw [List.foldlM_cons] at h
    obtain ⟨plan₁, hb, h⟩ := bind_eq_ok.mp h
    obtain ⟨actual, d, -, hd, rfl⟩ := bindSlot_eq_ok hb
    have hext := hd.extends b.parameter.index hc hroom
    exact hext.trans (ih h hext.within)

theorem exists_step_of_foldlM {step : Plan → Binding → Except CallError Plan} {b : Binding}
    (h : bs.foldlM step plan = .ok plan') (hb : b ∈ bs) : ∃ before after, step before b = .ok after := by
  obtain ⟨bs₁, bs₂, rfl⟩ := List.append_of_mem hb
  rw [List.foldlM_append] at h
  obtain ⟨before, -, h⟩ := bind_eq_ok.mp h
  rw [List.foldlM_cons] at h
  obtain ⟨after, hstep, -⟩ := bind_eq_ok.mp h
  exact ⟨before, after, hstep⟩

theorem keys_of_foldlM (h : bs.foldlM c.bindSlot plan = .ok plan') :
    plan'.slots.map Prod.fst = plan.slots.map Prod.fst ++ bs.map (·.parameter.index) := by
  induction bs generalizing plan with
  | nil =>
    cases pure_eq_ok.mp h
    simp
  | cons b bs ih =>
    rw [List.foldlM_cons] at h
    obtain ⟨plan₁, hb, h⟩ := bind_eq_ok.mp h
    obtain ⟨actual, d, -, -, rfl⟩ := bindSlot_eq_ok hb
    rw [ih h]
    simp [Plan.deliver]

theorem outbound_of_inputs (h : bs.foldlM c.bindSlot plan = .ok plan')
    (hbs : ∀ b ∈ bs, b.direction = .input) : plan'.outbound = plan.outbound := by
  induction bs generalizing plan with
  | nil =>
    cases pure_eq_ok.mp h
    rfl
  | cons b bs ih =>
    obtain ⟨hdir, hdirs⟩ := List.forall_mem_cons.mp hbs
    rw [List.foldlM_cons] at h
    obtain ⟨plan₁, hb, h⟩ := bind_eq_ok.mp h
    obtain ⟨actual, d, -, hd, rfl⟩ := bindSlot_eq_ok hb
    rw [ih h hdirs, Plan.deliver, hd.outbound_of_input hdir, List.append_nil]

theorem deliveries_of_foldlM (h : bs.foldlM c.bindSlot plan = .ok plan') :
    ∃ ds : List Delivery, plan'.writes = plan.writes ++ ds.flatMap (·.writes) ∧
      plan'.outbound = plan.outbound ++ ds.flatMap (·.outbound) ∧
      ∀ d ∈ ds, ∃ b ∈ bs, ∃ start actual,
        c.forwarded b.actual = .ok actual ∧ Delivers c.machine b start actual d := by
  induction bs generalizing plan with
  | nil =>
    cases pure_eq_ok.mp h
    exact ⟨[], by simp⟩
  | cons b bs ih =>
    rw [List.foldlM_cons] at h
    obtain ⟨plan₁, hb, h⟩ := bind_eq_ok.mp h
    obtain ⟨actual, d, hactual, hd, rfl⟩ := bindSlot_eq_ok hb
    obtain ⟨ds, hwrites, hout, hdelivers⟩ := ih h
    refine ⟨d :: ds, ?_, ?_, ?_⟩
    · simp [hwrites, Plan.deliver]
    · simp [hout, Plan.deliver]
    · intro d' hd'
      rcases List.mem_cons.mp hd' with rfl | hd'
      · exact ⟨b, List.mem_cons_self, _, actual, hactual, hd⟩
      · obtain ⟨b', hb', hdelivered⟩ := hdelivers d' hd'
        exact ⟨b', List.mem_cons_of_mem _ hb', hdelivered⟩

theorem openBlock_of_foldlM (h : bs.foldlM c.bindSlot plan = .ok plan')
    (hbs : ∀ b ∈ bs, ∀ actual, c.forwarded b.actual = .ok actual → actual.sharedBlock? = none) :
    plan'.openBlock = plan.openBlock := by
  induction bs generalizing plan with
  | nil =>
    cases pure_eq_ok.mp h
    rfl
  | cons b bs ih =>
    obtain ⟨hnone, hnones⟩ := List.forall_mem_cons.mp hbs
    rw [List.foldlM_cons] at h
    obtain ⟨plan₁, hb, h⟩ := bind_eq_ok.mp h
    obtain ⟨actual, d, hactual, hd, rfl⟩ := bindSlot_eq_ok hb
    rw [ih h hnones, Plan.deliver, hd.openBlock_eq, hnone actual hactual, Option.none_or]

theorem openBlock_of_last {b : Binding} {actual : Operand} {number : UInt16}
    (h : bs.foldlM c.bindSlot plan = .ok plan') (hb : b ∈ bs)
    (hsorted : bs.Pairwise (·.parameter.index < ·.parameter.index))
    (hactual : c.forwarded b.actual = .ok actual) (hnumber : actual.sharedBlock? = some number)
    (hlast : ∀ b' ∈ bs, b.parameter.index < b'.parameter.index →
      ∀ actual', c.forwarded b'.actual = .ok actual' → actual'.sharedBlock? = none) :
    plan'.openBlock = some number := by
  obtain ⟨bs₁, bs₂, rfl⟩ := List.append_of_mem hb
  rw [List.foldlM_append] at h
  obtain ⟨before, -, h⟩ := bind_eq_ok.mp h
  rw [List.foldlM_cons] at h
  obtain ⟨after, hbind, h₂⟩ := bind_eq_ok.mp h
  obtain ⟨actual', d, hactual', hd, rfl⟩ := bindSlot_eq_ok hbind
  obtain rfl := Except.ok.inj (hactual.symm.trans hactual')
  obtain ⟨-, hsorted₂, -⟩ := List.pairwise_append.mp hsorted
  have habove := (List.pairwise_cons.mp hsorted₂).1
  have hrest := openBlock_of_foldlM h₂ fun b' hb' =>
    hlast b' (List.mem_append_right _ (List.mem_cons_of_mem _ hb')) (habove b' hb')
  rw [hrest, Plan.deliver, hd.openBlock_eq, hnumber, Option.some_or]

/-- In the plan of a whole call, each binding has had its turn: it was delivered from a plan that the
bindings before it made, and the bindings behind it left its operand and its copies alone. If all others
are inputs, its outputs are all there are. -/
theorem exists_delivery {b : Binding} {start : Cursor}
    (h : bs.foldlM c.bindSlot (.empty start) = .ok plan) (hb : b ∈ bs)
    (hsorted : bs.Pairwise (·.parameter.index < ·.parameter.index))
    (hc : start.Within low c.machine.room) (hroom : c.machine.room < UInt32.size) :
    ∃ before actual d, (Plan.empty start).Extends low c.machine.room before ∧
      c.forwarded b.actual = .ok actual ∧ Delivers c.machine b before.cursor actual d ∧
      (before.deliver b.parameter.index d).Extends low c.machine.room plan ∧
      plan.slots.lookup b.parameter.index = some d.operand ∧
      ((∀ b' ∈ bs, b' ≠ b → b'.direction = .input) → plan.outbound = d.outbound) := by
  -- The binding cuts the fold: what stands before it has led to `before`.
  obtain ⟨bs₁, bs₂, rfl⟩ := List.append_of_mem hb
  rw [List.foldlM_append] at h
  obtain ⟨before, h₁, h⟩ := bind_eq_ok.mp h
  rw [List.foldlM_cons] at h
  obtain ⟨after, hbind, h₂⟩ := bind_eq_ok.mp h
  obtain ⟨actual, d, hactual, hd, rfl⟩ := bindSlot_eq_ok hbind
  have hext₁ : (Plan.empty start).Extends low c.machine.room before := extends_of_foldlM h₁ hc hroom
  have hext := hd.extends b.parameter.index hext₁.within hroom
  have hext₂ := extends_of_foldlM h₂ hext.within hroom
  obtain ⟨-, hsorted₂, hcross⟩ := List.pairwise_append.mp hsorted
  have hbelow : ∀ b' ∈ bs₁, b'.parameter.index ≠ b.parameter.index := fun b' hb' =>
    UInt32.ne_of_lt (hcross b' hb' b List.mem_cons_self)
  have habove : ∀ b' ∈ bs₂, b'.parameter.index ≠ b.parameter.index := fun b' hb' =>
    (UInt32.ne_of_lt ((List.pairwise_cons.mp hsorted₂).1 b' hb')).symm
  refine ⟨before, actual, d, hext₁, hactual, hd, hext₂, ?_, ?_⟩
  · obtain ⟨ss, hss, -⟩ := hext₂.slots
    have hnone : before.slots.lookup b.parameter.index = none := by
      refine List.lookup_eq_none_iff.mpr fun s hs => bne_iff_ne.mpr ?_
      have hmem : s.1 ∈ bs₁.map (·.parameter.index) := by
        have hkeys := keys_of_foldlM h₁
        rw [Plan.empty, List.map_nil, List.nil_append] at hkeys
        exact hkeys ▸ List.mem_map_of_mem hs
      obtain ⟨b', hb', he⟩ := List.mem_map.mp hmem
      exact he ▸ (hbelow b' hb').symm
    rw [hss]
    change ((before.slots ++ [(b.parameter.index, d.operand)]) ++ ss).lookup _ = _
    rw [List.append_assoc, List.lookup_append, hnone, Option.none_or, List.singleton_append,
      List.lookup_cons_self]
  · intro hinputs
    have hinputs₁ : ∀ b' ∈ bs₁, b'.direction = .input := fun b' hb' =>
      hinputs b' (List.mem_append_left _ hb') fun he => hbelow b' hb' (he ▸ rfl)
    have hinputs₂ : ∀ b' ∈ bs₂, b'.direction = .input := fun b' hb' =>
      hinputs b' (List.mem_append_right _ (List.mem_cons_of_mem _ hb'))
        fun he => habove b' hb' (he ▸ rfl)
    rw [outbound_of_inputs h₂ hinputs₂, Plan.deliver, outbound_of_inputs h₁ hinputs₁, Plan.empty,
      List.nil_append]

end Folds

end Planning

def Outbound.FromInstance (o : Outbound) : Prop :=
  (∃ l, o.actual = .memory l) ∧ ∃ block offset, o.source = .instanceData block offset

/-- The plan is continued by writes to and outputs of instance data. -/
structure Plan.Fills (memory : Memory) (plan plan' : Plan) : Prop where
  slots : plan'.slots = plan.slots
  openBlock : plan'.openBlock = plan.openBlock
  cursor : plan'.cursor = plan.cursor
  writes : ∃ ws, plan'.writes = plan.writes ++ ws ∧ ∀ w ∈ ws, w.Checked memory
  outbound : ∃ os, plan'.outbound = plan.outbound ++ os ∧ ∀ o ∈ os, o.FromInstance

theorem Plan.Fills.refl (memory : Memory) (plan : Plan) : plan.Fills memory plan :=
  ⟨rfl, rfl, rfl, ⟨[], by simp⟩, ⟨[], by simp⟩⟩

theorem Plan.Fills.trans {memory : Memory} {plan plan' plan'' : Plan} (h : plan.Fills memory plan')
    (h' : plan'.Fills memory plan'') : plan.Fills memory plan'' := by
  obtain ⟨ws, hws, hchecked⟩ := h.writes
  obtain ⟨ws', hws', hchecked'⟩ := h'.writes
  obtain ⟨os, hos, hfrom⟩ := h.outbound
  obtain ⟨os', hos', hfrom'⟩ := h'.outbound
  refine ⟨h'.slots.trans h.slots, h'.openBlock.trans h.openBlock, h'.cursor.trans h.cursor,
    ⟨ws ++ ws', by rw [hws', hws, List.append_assoc], ?_⟩,
    ⟨os ++ os', by rw [hos', hos, List.append_assoc], ?_⟩⟩
  · intro w hw
    exact (List.mem_append.mp hw).elim (hchecked w) (hchecked' w)
  · intro o ho
    exact (List.mem_append.mp ho).elim (hfrom o) (hfrom' o)

namespace Planning

variable {c : Planning} {b : Binding} {bs : List Binding} {plan plan' : Plan} {actual : Operand}
  {d : InstanceData}

theorem Queues.fromInstance {m : Machine} {os : List Outbound} (h : Queues m d b actual os) :
    ∀ o ∈ os, o.FromInstance := by
  cases h with
  | nothing => simp
  | output _ _ ha _ =>
    intro o ho
    rw [List.mem_singleton.mp ho]
    exact ⟨⟨_, ha⟩, _, _, rfl⟩

theorem bindInstance_fills (h : c.bindInstance d plan b = .ok plan') :
    plan.Fills c.machine.memory plan' := by
  obtain ⟨actual, ws, os, -, hws, hos, rfl⟩ := bindInstance_eq_ok h
  exact ⟨rfl, rfl, rfl, ⟨ws, rfl, fun w hw => (hws.checked w hw).1⟩, ⟨os, rfl, hos.fromInstance⟩⟩

theorem fills_of_foldlM (h : bs.foldlM (c.bindInstance d) plan = .ok plan') : plan.Fills c.machine.memory plan' := by
  induction bs generalizing plan with
  | nil =>
    cases pure_eq_ok.mp h
    exact .refl _ _
  | cons b bs ih =>
    rw [List.foldlM_cons] at h
    obtain ⟨plan₁, hb, h⟩ := bind_eq_ok.mp h
    exact (bindInstance_fills hb).trans (ih h)

theorem supplies_of_foldlM (h : bs.foldlM (c.bindInstance d) plan = .ok plan') :
    ∃ ws, plan'.writes = plan.writes ++ ws ∧ ∀ w ∈ ws, w.IsSupply d.block ∧
      ∃ b ∈ bs, b.direction.isInbound ∧ w.access = d.supply b.parameter b.direction := by
  induction bs generalizing plan with
  | nil =>
    cases pure_eq_ok.mp h
    exact ⟨[], by simp⟩
  | cons b bs ih =>
    rw [List.foldlM_cons] at h
    obtain ⟨plan₁, hb, h⟩ := bind_eq_ok.mp h
    obtain ⟨actual, ws, os, -, hws, -, rfl⟩ := bindInstance_eq_ok hb
    obtain ⟨ws', hws', hsupplies⟩ := ih h
    refine ⟨ws ++ ws', by rw [hws', List.append_assoc], ?_⟩
    intro w hw
    rcases List.mem_append.mp hw with hw | hw
    · refine ⟨(hws.checked w hw).2, b, List.mem_cons_self, ?_⟩
      cases hws with
      | nothing => cases hw
      | write hdir _ _ =>
        rw [List.mem_singleton.mp hw]
        exact ⟨hdir, rfl⟩
    · obtain ⟨hsupply, b', hb', hplace⟩ := hsupplies w hw
      exact ⟨hsupply, b', List.mem_cons_of_mem _ hb', hplace⟩

theorem outputs_of_foldlM {o : Outbound} (h : bs.foldlM (c.bindInstance d) plan = .ok plan')
    (ho : o ∈ plan'.outbound) : o ∈ plan.outbound ∨ ∃ b ∈ bs, ∃ actual ws os,
      c.forwarded b.actual = .ok actual ∧ Stages c.machine d b actual ws ∧
      Queues c.machine d b actual os ∧ o ∈ os := by
  induction bs generalizing plan with
  | nil =>
    cases pure_eq_ok.mp h
    exact .inl ho
  | cons b bs ih =>
    rw [List.foldlM_cons] at h
    obtain ⟨plan₁, hb, h⟩ := bind_eq_ok.mp h
    obtain ⟨actual, ws, os, hactual, hws, hos, rfl⟩ := bindInstance_eq_ok hb
    rcases ih h with ho | ⟨b', hb', hqueued⟩
    · rcases List.mem_append.mp ho with ho | ho
      · exact .inl ho
      · exact .inr ⟨b, List.mem_cons_self, actual, ws, os, hactual, hws, hos, ho⟩
    · exact .inr ⟨b', List.mem_cons_of_mem _ hb', hqueued⟩

theorem exists_supply {start : Cursor} (h : bs.foldlM (c.bindInstance d) (.empty start) = .ok plan)
    (hb : b ∈ bs) (hsorted : bs.Pairwise (·.parameter.index < ·.parameter.index)) :
    ∃ actual before ws later, c.forwarded b.actual = .ok actual ∧ Stages c.machine d b actual ws ∧
      plan.writes = before ++ ws ++ later ∧
      ∀ w ∈ later, ∃ b' ∈ bs, b.parameter.index < b'.parameter.index ∧ b'.direction.isInbound ∧
        w.access = d.supply b'.parameter b'.direction := by
  obtain ⟨bs₁, bs₂, rfl⟩ := List.append_of_mem hb
  rw [List.foldlM_append] at h
  obtain ⟨before, h₁, h⟩ := bind_eq_ok.mp h
  rw [List.foldlM_cons] at h
  obtain ⟨after, hbind, h₂⟩ := bind_eq_ok.mp h
  obtain ⟨actual, ws, os, hactual, hws, -, rfl⟩ := bindInstance_eq_ok hbind
  obtain ⟨later, hlater, hsupplies⟩ := supplies_of_foldlM h₂
  obtain ⟨-, hsorted₂, -⟩ := List.pairwise_append.mp hsorted
  refine ⟨actual, before.writes, ws, later, hactual, hws, hlater, ?_⟩
  intro w hw
  obtain ⟨-, b', hb', hplace⟩ := hsupplies w hw
  exact ⟨b', List.mem_append_right _ (List.mem_cons_of_mem _ hb'),
    (List.pairwise_cons.mp hsorted₂).1 b' hb', hplace⟩

end Planning

namespace Machine

variable {m : Machine} {point : CallPoint} {site : CallSite} {plan : Plan}

theorem forwarded_eq_ok {point : CallPoint} {op actual : Operand} :
    Planning.forwarded ⟨m, point⟩ op = .ok actual ↔ m.unslot op = .ok actual := by
  cases op with
  | slot i =>
    change m.resolveSlot i = .ok actual ↔ m.slot i = .ok actual
    unfold resolveSlot slot
    cases m.frames with
    | nil => simp
    | cons f rest =>
      cases hf : f.slot? i <;> simp [hf]
  | immediate _ _ _ | memory _ | block _ _ => simp [Planning.forwarded, unslot]

/-- The local data of the active frame is handed out from above the temporaries and is small enough
to be addressed. -/
structure Allocates (m : Machine) : Prop where
  within : m.start.Within m.reserved m.room
  room_lt : m.room < UInt32.size

theorem plan_stateful {d : InstanceData} (h : m.plan point site (some d) = .ok plan) :
    (Plan.empty m.start).Fills m.memory plan := by
  unfold Machine.plan at h
  split_ifs at h
  · cases h
    exact .refl _ _
  · obtain ⟨bs, -, h⟩ := bind_eq_ok.mp h
    exact Planning.fills_of_foldlM h

theorem plan_stateless (h : m.plan point site none = .ok plan) (hm : m.Allocates) :
    (Plan.empty m.start).Extends m.reserved m.room plan := by
  unfold Machine.plan at h
  split_ifs at h
  · cases h
    exact .refl hm.within
  · obtain ⟨bs, -, h⟩ := bind_eq_ok.mp h
    exact Planning.extends_of_foldlM h hm.within hm.room_lt

theorem exists_ordered {d : Option InstanceData} (h : m.plan point site d = .ok plan)
    (hraw : site.raw = false) : ∃ bs, site.orderedBindings point = .ok bs ∧
      bs.Pairwise (·.parameter.index < ·.parameter.index) ∧
      (match d with
        | some d => bs.foldlM (Planning.bindInstance ⟨m, point⟩ d) (.empty m.start)
        | none => bs.foldlM (Planning.bindSlot ⟨m, point⟩) (.empty m.start)) = .ok plan := by
  unfold Machine.plan at h
  rw [if_neg (by simp [hraw])] at h
  obtain ⟨bs, hbs, h⟩ := bind_eq_ok.mp h
  obtain ⟨-, -, -, hsorted⟩ := CallSite.orderedBindings_eq_ok hbs
  exact ⟨bs, hbs, hsorted, h⟩

/-- Each binding of a stateless call is delivered as the callee declares it. -/
theorem plan_delivers {b : Binding} {p : Parameter} (h : m.plan point site none = .ok plan)
    (hm : m.Allocates) (hraw : site.raw = false) (hb : b ∈ site.bindings)
    (hp : site.callee.parameter? b.parameter.name = some p) :
    ∃ before actual d, (Plan.empty m.start).Extends m.reserved m.room before ∧
      Planning.forwarded ⟨m, point⟩ b.actual = .ok actual ∧
      Planning.Delivers m { b with parameter := p } before.cursor actual d ∧
      (before.deliver p.index d).Extends m.reserved m.room plan ∧
      plan.slots.lookup p.index = some d.operand ∧
      ((∀ b' ∈ site.bindings, b' ≠ b → b'.direction = .input) → plan.outbound = d.outbound) := by
  obtain ⟨bs, hbs, hsorted, h⟩ := exists_ordered h hraw
  have hmem := (CallSite.mem_orderedBindings hbs).mpr ⟨b, hb, p, hp, rfl⟩
  obtain ⟨before, actual, d, hstart, hactual, hd, hext, hlookup, hout⟩ :=
    Planning.exists_delivery h hmem hsorted hm.within hm.room_lt
  refine ⟨before, actual, d, hstart, hactual, hd, hext, hlookup, fun hinputs => hout ?_⟩
  intro c' hc' hne
  obtain ⟨c, hc, q, hq, rfl⟩ := (CallSite.mem_orderedBindings hbs).mp hc'
  refine hinputs c hc fun he => hne ?_
  subst he
  rw [Option.some.inj (hq.symm.trans hp)]

theorem exists_binds {d : Option InstanceData} {b : Binding} (h : m.plan point site d = .ok plan)
    (hraw : site.raw = false) (hb : b ∈ site.bindings) : ∃ p actual, site.Binds m b p actual := by
  obtain ⟨bs, hbs, -, h⟩ := exists_ordered h hraw
  obtain ⟨declared, hdecl, -, -⟩ := CallSite.orderedBindings_eq_ok hbs
  obtain ⟨b', -, p, hp, rfl⟩ := CallSite.exists_declared hdecl hb
  have hmem := (CallSite.mem_orderedBindings hbs).mpr ⟨b, hb, p, hp, rfl⟩
  obtain ⟨actual, hactual⟩ :
      ∃ actual, Planning.forwarded ⟨m, point⟩ b.actual = .ok actual := by
    cases d with
    | none =>
      obtain ⟨_, _, hstep⟩ := Planning.exists_step_of_foldlM h hmem
      obtain ⟨actual, hactual, -⟩ := bind_eq_ok.mp hstep
      exact ⟨actual, hactual⟩
    | some d =>
      obtain ⟨_, _, hstep⟩ := Planning.exists_step_of_foldlM h hmem
      obtain ⟨actual, hactual, -⟩ := bind_eq_ok.mp hstep
      exact ⟨actual, hactual⟩
  exact ⟨p, actual, hb, hp, forwarded_eq_ok.mp hactual⟩

theorem openBlock_eq_none (h : m.plan point site none = .ok plan)
    (hnone : ∀ b p actual, site.Binds m b p actual → actual.sharedBlock? = none) :
    plan.openBlock = none := by
  unfold Machine.plan at h
  split_ifs at h
  · cases h
    rfl
  · obtain ⟨bs, hbs, h⟩ := bind_eq_ok.mp h
    refine Planning.openBlock_of_foldlM h ?_
    intro b' hb' actual hactual
    obtain ⟨b, hb, p, hp, rfl⟩ := (CallSite.mem_orderedBindings hbs).mp hb'
    exact hnone b p actual ⟨hb, hp, forwarded_eq_ok.mp hactual⟩

theorem openBlock_of_highest {b : Binding} {p : Parameter} {actual : Operand} {number : UInt16}
    (h : m.plan point site none = .ok plan) (hraw : site.raw = false)
    (hb : site.Binds m b p actual) (hnumber : actual.sharedBlock? = some number)
    (hhighest : ∀ b' p' actual', site.Binds m b' p' actual' → actual'.sharedBlock?.isSome →
      p'.index ≤ p.index) : plan.openBlock = some number := by
  obtain ⟨bs, hbs, hsorted, h⟩ := exists_ordered h hraw
  have hmem := (CallSite.mem_orderedBindings hbs).mpr ⟨b, hb.mem, p, hb.declared, rfl⟩
  refine Planning.openBlock_of_last h hmem hsorted (forwarded_eq_ok.mpr hb.resolved) hnumber ?_
  intro b' hb' hlt actual' hactual'
  obtain ⟨c, hc, q, hq, rfl⟩ := (CallSite.mem_orderedBindings hbs).mp hb'
  by_contra hsome
  have hle := hhighest c q actual' ⟨hc, hq, forwarded_eq_ok.mp hactual'⟩
    (Option.isSome_iff_ne_none.mpr hsome)
  exact UInt32.not_lt.mpr hle hlt

theorem exists_deliveries (h : m.plan point site none = .ok plan) :
    ∃ ds : List Delivery, plan.writes = ds.flatMap (·.writes) ∧
      plan.outbound = ds.flatMap (·.outbound) ∧
      ∀ δ ∈ ds, site.raw = false ∧ ∃ b p actual start, site.Binds m b p actual ∧
        Planning.Delivers m { b with parameter := p } start actual δ := by
  unfold Machine.plan at h
  split_ifs at h with hraw
  · cases h
    exact ⟨[], rfl, rfl, fun _ hδ => (List.not_mem_nil hδ).elim⟩
  · obtain ⟨bs, hbs, h⟩ := bind_eq_ok.mp h
    obtain ⟨ds, hwrites, hout, hdelivers⟩ := Planning.deliveries_of_foldlM h
    refine ⟨ds, hwrites, hout, ?_⟩
    intro δ hδ
    obtain ⟨b', hb', start, actual, hactual, hdelivered⟩ := hdelivers δ hδ
    obtain ⟨b, hb, p, hp, rfl⟩ := (CallSite.mem_orderedBindings hbs).mp hb'
    exact ⟨by simpa using hraw, b, p, actual, start, ⟨hb, hp, forwarded_eq_ok.mp hactual⟩, hdelivered⟩

theorem exists_of_mem_writes {w : StagedWrite} (h : m.plan point site none = .ok plan)
    (hw : w ∈ plan.writes) : site.raw = false ∧ ∃ b ∈ site.bindings, ∃ b' start actual d,
      Planning.forwarded ⟨m, point⟩ b.actual = .ok actual ∧
      Planning.Delivers m b' start actual d ∧ w ∈ d.writes := by
  obtain ⟨ds, hwrites, -, hdelivers⟩ := exists_deliveries h
  obtain ⟨δ, hδ, hwδ⟩ := List.mem_flatMap.mp (hwrites ▸ hw)
  obtain ⟨hraw, b, p, actual, start, hb, hdelivered⟩ := hdelivers δ hδ
  exact ⟨hraw, b, hb.mem, _, start, actual, δ, forwarded_eq_ok.mpr hb.resolved, hdelivered, hwδ⟩

theorem exists_of_mem_outbound {o : Outbound} (h : m.plan point site none = .ok plan)
    (ho : o ∈ plan.outbound) : ∃ b p l offset v, site.Binds m b p (.memory l) ∧
      l.passing = .copy ∧ b.direction.isOutbound = true ∧ m.resolve (.memory l) = .ok v ∧
      .callerStack offset l.width v ∈ plan.writes ∧
      o = ⟨p, .memory l, .callerStack offset, l.width⟩ := by
  obtain ⟨ds, hwrites, hout, hdelivers⟩ := exists_deliveries h
  obtain ⟨δ, hδ, hoδ⟩ := List.mem_flatMap.mp (hout ▸ ho)
  obtain ⟨-, b, p, actual, start, hb, hdelivered⟩ := hdelivers δ hδ
  obtain ⟨l, offset, v, rfl, hpass, hdir, hv, hw, rfl⟩ := hdelivered.of_mem_outbound hoδ
  exact ⟨b, p, l, offset, v, hb, hpass, hdir, hv, hwrites ▸ List.mem_flatMap.mpr ⟨δ, hδ, hw⟩, rfl⟩

section Supply

variable {d : InstanceData} (h : m.plan point site (some d) = .ok plan)
include h

theorem suppliesAt_of_mem_writes {w : StagedWrite} (hw : w ∈ plan.writes) :
    w.IsSupply d.block ∧ ∃ index, site.SuppliesAt d index w.access := by
  unfold Machine.plan at h
  split_ifs at h
  · cases h
    cases hw
  · obtain ⟨bs, hbs, h⟩ := bind_eq_ok.mp h
    obtain ⟨ws, hws, hsupplies⟩ := Planning.supplies_of_foldlM h
    rw [Plan.empty, List.nil_append] at hws
    obtain ⟨hsupply, b', hb', hdir, hplace⟩ := hsupplies w (hws ▸ hw)
    obtain ⟨b, hb, p, hp, rfl⟩ := (CallSite.mem_orderedBindings hbs).mp hb'
    exact ⟨hsupply, p.index, b, hb, p, hp, hdir, rfl, hplace⟩

/-- Each binding of a stateful call is supplied as the callee declares it, and what is written after it
belongs to parameters of higher indices. -/
theorem plan_supplies {b : Binding} {p : Parameter} {actual : Operand} (hraw : site.raw = false)
    (hb : site.Binds m b p actual) :
    ∃ before ws later, Planning.Stages m d { b with parameter := p } actual ws ∧
      plan.writes = before ++ ws ++ later ∧
      ∀ w ∈ later, ∃ index, p.index < index ∧ site.SuppliesAt d index w.access := by
  obtain ⟨bs, hbs, hsorted, h⟩ := exists_ordered h hraw
  have hmem := (CallSite.mem_orderedBindings hbs).mpr ⟨b, hb.mem, p, hb.declared, rfl⟩
  obtain ⟨actual', before, ws, later, hactual, hws, hwrites, hlater⟩ :=
    Planning.exists_supply h hmem hsorted
  obtain rfl := Except.ok.inj (hb.resolved.symm.trans (forwarded_eq_ok.mp hactual))
  refine ⟨before, ws, later, hws, hwrites, ?_⟩
  intro w hw
  obtain ⟨b', hb', hlt, hdir, hplace⟩ := hlater w hw
  obtain ⟨c, hc, q, hq, rfl⟩ := (CallSite.mem_orderedBindings hbs).mp hb'
  exact ⟨q.index, hlt, c, hc, q, hq, hdir, rfl, hplace⟩

theorem exists_of_mem_outbound_stateful {o : Outbound} (ho : o ∈ plan.outbound) :
    ∃ b p l, site.Binds m b p (.memory l) ∧ b.direction.isOutbound = true ∧
      o = ⟨p, .memory l, .instanceData d.block (d.base + p.offset), p.width⟩ ∧
      m.memory.checkBlock d.block (d.base + p.offset) p.width = .ok () ∧
      (b.direction = .inOut → p.width = l.width ∧ ∃ v, m.resolve (.memory l) = .ok v) := by
  unfold Machine.plan at h
  split_ifs at h
  · cases h
    cases ho
  · obtain ⟨bs, hbs, h⟩ := bind_eq_ok.mp h
    rcases Planning.outputs_of_foldlM h ho with ho | ⟨b', hb', actual, ws, os, hactual, hws, hos, ho⟩
    · cases ho
    · obtain ⟨b, hb, p, hp, rfl⟩ := (CallSite.mem_orderedBindings hbs).mp hb'
      cases hos with
      | nothing => cases ho
      | @output l hdir ht hl hcheck =>
        subst hl
        obtain rfl := List.mem_singleton.mp ho
        refine ⟨b, p, l, ⟨hb, hp, forwarded_eq_ok.mp hactual⟩, hdir, rfl, hcheck, ?_⟩
        intro hinOut
        cases hws with
        | nothing hout => cases hinOut.symm.trans hout
        | write _ hv _ =>
          cases hv with
          | value _ hw hv => exact ⟨(Option.some.inj hw).symm, _, hv⟩
          | reference ht' | pointer ht' => cases ht.symm.trans ht'

end Supply

end Machine

end PlcMachine
