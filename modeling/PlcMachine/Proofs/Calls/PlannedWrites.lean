import PlcMachine.Proofs.Calls.Atomicity
import PlcMachine.Proofs.Calls.SlotLookup

/-! # Planned writes are made

Planning checks every write that it stages, with one exception. The writes of a planned call are therefore
all made, unless a stateless block is given an empty constant: its copy has a width that no slot can have, and
this is the only way in which a call fails for that width.
-/

namespace PlcMachine

/-- The call binds a parameter of a stateless block to a constant of no bits. -/
def CallSite.GivesEmpty (site : CallSite) : Prop :=
  site.callee.isStateful = false ∧
    ∃ b ∈ site.bindings, b.actual.isImmediate = true ∧ b.actual.width? = some 0

instance (site : CallSite) : Decidable site.GivesEmpty := inferInstanceAs (Decidable (_ ∧ _))

theorem ByteStore.write_of_width_zero (s : ByteStore) (area : Area) (offset : BitAddress) (v : Value) :
    s.write ⟨area, offset, 0⟩ v = .error (.invalidWidth area 0) := by
  have hshape : Access.checkShape ⟨area, offset, 0⟩ = .error (.invalidWidth area 0) := by
    simp [Access.checkShape, Access.ValidWidth]
  simp [write, Access.check, hshape, bind, Except.bind]

namespace Planning

variable {c : Planning} {b : Binding} {bs : List Binding} {plan plan' : Plan}

section NoFrame

variable (hf : c.machine.frames = [])
include hf

theorem allocate_ne_ok (width : UInt32) (r : BitAddress × Plan) : c.allocate b width plan ≠ .ok r := by
  simp [allocate, hf]

theorem copy_ne_ok (actual : Operand) (r : Location × Plan) : c.copy b actual plan ≠ .ok r := by
  intro h
  obtain ⟨_, -, h⟩ := bind_eq_ok.mp h
  obtain ⟨_, ha, -⟩ := bind_eq_ok.mp h
  exact allocate_ne_ok hf _ _ ha

theorem copyPointer_ne_ok (pointer : Pointer) (r : Operand × Plan) :
    c.copyPointer b pointer plan ≠ .ok r := by
  intro h
  obtain ⟨_, ha, -⟩ := bind_eq_ok.mp h
  exact allocate_ne_ok hf _ _ ha

theorem writes_of_bindSlot (h : c.bindSlot plan b = .ok plan') : plan'.writes = plan.writes := by
  obtain ⟨actual, -, h⟩ := bind_eq_ok.mp h
  obtain ⟨⟨op, plan₁⟩, hpass, h⟩ := bind_eq_ok.mp h
  cases pure_eq_ok.mp h
  unfold pass at hpass
  cases hp : actual.passing with
  | direct | «alias» l =>
    rw [hp] at hpass
    cases hpass
    rfl
  | copy | pointerToCopy =>
    rw [hp] at hpass
    obtain ⟨_, hcopy, -⟩ := bind_eq_ok.mp hpass
    exact absurd hcopy (copy_ne_ok hf _ _)
  | pointer l =>
    rw [hp] at hpass
    dsimp only at hpass
    split at hpass
    · exact absurd hpass (copyPointer_ne_ok hf _ _)
    · cases hpass
  | forward _ | refused _ =>
    rw [hp] at hpass
    cases hpass

theorem writes_of_foldlM (h : bs.foldlM c.bindSlot plan = .ok plan') : plan'.writes = plan.writes := by
  induction bs generalizing plan with
  | nil =>
    cases pure_eq_ok.mp h
    rfl
  | cons b bs ih =>
    rw [List.foldlM_cons] at h
    obtain ⟨plan₁, hb, h⟩ := bind_eq_ok.mp h
    exact (ih h).trans (writes_of_bindSlot hf hb)

end NoFrame

theorem Delivers.exists_empty {m : Machine} {start : Cursor} {actual : Operand} {d : Delivery}
    (h : Delivers m b start actual d) (himm : actual.isImmediate = true)
    (hwidth : actual.width? = some 0) : ∃ w ∈ d.writes, w.access.width = 0 := by
  cases actual with
  | memory _ | block _ _ | slot _ => cases himm
  | immediate v width compound =>
    obtain rfl : width = 0 := Option.some.inj hwidth
    cases h with
    | direct hp | «alias» hp | pointer hp => cases compound <;> cases hp
    | copy _ hw | pointerToCopy _ hw =>
      cases hw
      exact ⟨_, List.mem_cons_self, rfl⟩

end Planning

namespace Machine

variable {m : Machine} {ws : List StagedWrite} {site : CallSite} {plan : Plan} {point : CallPoint}

theorem makeWrite_of_failure {e : AccessError} (h : (m.makeWrites ws).1 = some e) :
    ∃ w ∈ ws, ∃ m₁ : Machine, m₁.blank = m.blank ∧ m₁.makeWrite w = .error e := by
  induction ws generalizing m with
  | nil => cases h
  | cons w ws ih =>
    unfold makeWrites at h
    split at h
    · next m₁ hmake =>
      obtain ⟨w', hw', m₂, hblank, herror⟩ := ih h
      exact ⟨w', List.mem_cons_of_mem _ hw', m₂, hblank.trans (blank_of_makeWrite hmake), herror⟩
    · next e' hmake =>
      cases h
      exact ⟨w, List.mem_cons_self, m, rfl, hmake⟩

theorem makeWrite_of_width_zero {w : StagedWrite} (hw : w.IsCopy) (h0 : w.access.width = 0)
    (hf : m.frames ≠ []) : m.makeWrite w = .error (.invalidWidth .localData 0) := by
  cases w with
  | instanceData _ _ _ _ => exact hw.elim
  | callerStack offset width value =>
    obtain rfl : width = 0 := h0
    obtain ⟨f, rest, hcons⟩ := List.exists_cons_of_ne_nil hf
    simp [makeWrite, writeAccess, hcons, LocalStack.write, ByteStore.write_of_width_zero, bind,
      Except.bind]

theorem frames_ne_nil_of_mem_writes {w : StagedWrite} (h : m.plan point site none = .ok plan)
    (hw : w ∈ plan.writes) : m.frames ≠ [] := by
  intro hf
  have hnil : plan.writes = [] := by
    unfold Machine.plan at h
    split_ifs at h
    · cases h
      rfl
    · obtain ⟨bs, -, h⟩ := bind_eq_ok.mp h
      exact Planning.writes_of_foldlM hf h
  rw [hnil] at hw
  cases hw

section Stateless

variable (hm : m.Reachable) (hraw : site.raw = false) (hs : site.callee.isStateful = false)
  (h : m.plan point site none = .ok plan)
include hm hraw hs h

/-- A planned call copies an empty constant if and only if it is given one. -/
theorem exists_empty_iff : (∃ w ∈ plan.writes, w.access.width = 0) ↔ site.GivesEmpty := by
  constructor
  · rintro ⟨w, hw, h0⟩
    obtain ⟨-, b, hb, compound, hactual⟩ := hm.exists_empty h hw h0
    exact ⟨hs, b, hb, by rw [hactual]; rfl, by rw [hactual]; rfl⟩
  · rintro ⟨-, b, hb, himm, hwidth⟩
    obtain ⟨p, actual, hbinds⟩ := exists_binds h hraw hb
    obtain ⟨before, actual', d, -, hactual, hd, hext, -⟩ :=
      plan_delivers h hm.allocates hraw hb hbinds.declared
    have hself : actual' = b.actual := by
      cases hb' : b.actual with
      | immediate _ _ _ =>
        rw [hb'] at hactual
        exact (Except.ok.inj hactual).symm
      | memory _ | block _ _ | slot _ =>
        rw [hb'] at himm
        cases himm
    subst hself
    obtain ⟨w, hw, h0⟩ := hd.exists_empty himm hwidth
    obtain ⟨ws, hws, -⟩ := hext.writes
    exact ⟨w, hws ▸ List.mem_append_left _ (List.mem_append_right _ hw), h0⟩

theorem makeWrites_stateless : (m.makeWrites plan.writes).1 =
    if site.GivesEmpty then some (.invalidWidth .localData 0) else none := by
  have hempty := exists_empty_iff hm hraw hs h
  obtain ⟨ws, hws, -, hfresh⟩ := (plan_stateless h hm.allocates).writes
  rw [Plan.empty, List.nil_append] at hws
  rw [← hws] at hfresh
  have hwidths := fun w hw => (hm.widths h w hw).imp_right And.left
  rcases makeWrites_fresh hfresh hwidths with ⟨hne, hnone⟩ | ⟨hzero, e, he⟩
  · rw [if_neg]
    · exact hnone
    · intro hgives
      obtain ⟨w, hw, h0⟩ := hempty.mpr hgives
      exact hne w hw h0
  · rw [if_pos (hempty.mp hzero), he]
    -- The write that fails is a copy of no valid width, since it would have been made otherwise.
    obtain ⟨w, hw, m₁, hblank, herror⟩ := makeWrite_of_failure (congrArg Prod.fst he)
    have hframes : m₁.frames ≠ [] := by
      intro hnil
      have hmap := frames_of_blank_eq hblank
      rw [hnil, List.map_nil] at hmap
      exact frames_ne_nil_of_mem_writes h hw (List.map_eq_nil_iff.mp hmap.symm)
    rcases hwidths w hw with hvalid | h0
    · obtain ⟨m₂, hmade⟩ := exists_makeWrite (room_of_blank_eq hblank ▸ hfresh w hw) hvalid
      cases herror.symm.trans hmade
    · cases herror.symm.trans (makeWrite_of_width_zero (hfresh w hw).isCopy h0 hframes)
      rfl

end Stateless

variable {d : Option InstanceData} {stack : LocalStack}

/-- Writes to instance data are all made, copies up to the first of an empty constant. -/
theorem makeWrites_of_plan (hm : m.Reachable) (hraw : site.raw = false)
    (hd : d.isNone = !site.callee.isStateful) (h : m.plan point site d = .ok plan) :
    (m.makeWrites plan.writes).1 =
      if site.GivesEmpty then some (.invalidWidth .localData 0) else none := by
  cases d with
  | none => exact makeWrites_stateless hm hraw (by simpa using hd) h
  | some d =>
    have hs : site.callee.isStateful = true := by simpa using hd
    have hnot : ¬ site.GivesEmpty := by
      rintro ⟨hstateless, -⟩
      cases hs.symm.trans hstateless
    obtain ⟨ws, hws, hchecked⟩ := (plan_stateful h).writes
    rw [Plan.empty, List.nil_append] at hws
    rw [if_neg hnot]
    exact makeWrites_checked (hws ▸ hchecked)

theorem Prepares.enter_eq (hm : m.Reachable) (hraw : site.raw = false)
    (h : m.Prepares site d stack plan) : (m.enter site).1 =
      if site.GivesEmpty then .error (.access (site.point m) none (.invalidWidth .localData 0))
      else .ok () := by
  have hmade := makeWrites_of_plan hm hraw (isNone_of_instanceFor h.instanceData) h.planned
  obtain ⟨pool, henter⟩ := h.enter
  rw [henter]
  cases hw : m.makeWrites plan.writes with
  | mk failure written =>
    rw [hw] at hmade
    obtain rfl : failure = _ := hmade
    split_ifs <;> rfl

/-- The writes of a call that is planned are all made, one after another, unless the call gives a stateless
block an empty constant. A call that gets as far as that then enters its block, and otherwise fails because no
bits can be written to local data. It fails in this way for no other reason. -/
theorem makeWrites_planned (hm : m.Reachable) (hraw : site.raw = false) :
    (∀ point d plan, d.isNone = !site.callee.isStateful → m.plan point site d = .ok plan →
      (m.makeWrites plan.writes).1 =
        if site.GivesEmpty then some (.invalidWidth .localData 0) else none) ∧
    (∀ d stack plan, m.Prepares site d stack plan → (m.enter site).1 =
      if site.GivesEmpty then .error (.access (site.point m) none (.invalidWidth .localData 0))
      else .ok ()) ∧
    ((m.enter site).1 = .error (.access (site.point m) none (.invalidWidth .localData 0)) ↔
      site.GivesEmpty ∧ ∃ stack plan, m.Prepares site none stack plan) := by
  refine ⟨fun _ _ _ hd h => makeWrites_of_plan hm hraw hd h,
    fun _ _ _ h => h.enter_eq hm hraw, ?_, ?_⟩
  · intro he
    rcases early_or_write_of_enter hm.slot_ne he with hearly | ⟨d, stack, plan, cause, h, -, -⟩
    · cases hearly
    · have hgives : site.GivesEmpty := by
        by_contra hnot
        have henter := h.enter_eq hm hraw
        rw [if_neg hnot, he] at henter
        cases henter
      have hnone : d = none := by
        simpa [hgives.1] using isNone_of_instanceFor h.instanceData
      exact ⟨hgives, stack, plan, hnone ▸ h⟩
  · rintro ⟨hgives, stack, plan, h⟩
    rw [h.enter_eq hm hraw, if_pos hgives]

open Atomicity in
/-- A call that gives a function an empty string is planned and fails. Without the string it enters the
function. -/
theorem makeWrites_planned_empty :
    (∃ stack plan, caller.Prepares call none stack plan ∧
      (caller.makeWrites plan.writes).1 = some (.invalidWidth .localData 0)) ∧
    ¬ CallSite.GivesEmpty { call with bindings := call.bindings.take 1 } ∧
      (caller.enter { call with bindings := call.bindings.take 1 }).1 = .ok () := by
  have hreachable : caller.Reachable := (Reachable.start _ _).run _
  obtain ⟨hplanned, -, hfails⟩ := makeWrites_planned hreachable (rfl : call.raw = false)
  obtain ⟨hgives, stack, plan, h⟩ := hfails.mp (by decide +kernel)
  refine ⟨⟨stack, plan, h, ?_⟩, by decide, by decide +kernel⟩
  rw [hplanned _ none plan rfl h.planned, if_pos hgives]

end Machine

end PlcMachine
