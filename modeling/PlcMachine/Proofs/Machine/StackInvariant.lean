import PlcMachine.Proofs.Machine.History

/-! # The invariant of the frames

Every frame is sound by itself, and what it took of its caller's local data lies between the mark it
remembers and the caller's cursor. Every request preserves this, so it holds in every reachable state.
-/

namespace PlcMachine

namespace Frame

/-- What holds of a frame on the stack, whatever else is on it. -/
structure Sound (f : Frame) : Prop where
  active : f.state = .active
  room_lt : f.stack.capacity < UInt32.size
  within : f.stack.cursor.Within f.block.tempBytes.toNat f.stack.capacity
  slots_isSome : f.slots.isSome = (!f.raw && !f.block.isStateful)
  bindable : ∀ slots, f.slots = some slots → ∀ s ∈ slots, s.2.Bindable
  outbound : ∀ o ∈ f.outbound, ∃ l, o.actual = .memory l

/-- The frame was entered from `g`: its mark is an earlier cursor of `g`, and the outputs that it finds
in the local data of `g` were handed out since. -/
def CalledBy (f g : Frame) : Prop :=
  ∃ mark, f.callerMark = some mark ∧ mark.Within g.block.tempBytes.toNat g.stack.capacity ∧
    mark.Behind g.stack.cursor ∧
    ∀ o ∈ f.outbound, ∀ offset, o.source = .callerStack offset →
      Access.Within ⟨.localData, offset, o.width⟩ g.stack.capacity ∧
        mark.Gives g.stack.cursor g.stack.capacity ⟨.localData, offset, o.width⟩

def Outermost (f : Frame) : Prop :=
  f.callerMark = none ∧ ∀ o ∈ f.outbound, ∀ offset, o.source ≠ .callerStack offset

theorem sound_blank {f : Frame} : f.blank.Sound ↔ f.Sound := by
  have hcap : f.blank.stack.capacity = f.stack.capacity := ByteStore.size_blank _
  constructor
  · rintro ⟨h₁, h₂, h₃, h₄, h₅, h₆⟩
    rw [hcap] at h₂ h₃
    exact ⟨h₁, h₂, h₃, h₄, h₅, h₆⟩
  · rintro ⟨h₁, h₂, h₃, h₄, h₅, h₆⟩
    rw [← hcap] at h₂ h₃
    exact ⟨h₁, h₂, h₃, h₄, h₅, h₆⟩

theorem calledBy_blank {f g : Frame} : f.blank.CalledBy g.blank ↔ f.CalledBy g := by
  have hcap : g.blank.stack.capacity = g.stack.capacity := ByteStore.size_blank _
  unfold CalledBy
  rw [hcap]
  exact Iff.rfl

theorem Sound.rewind {f : Frame} {c : Cursor} (h : f.Sound)
    (hc : c.Within f.block.tempBytes.toNat f.stack.capacity) : (f.rewind c).Sound :=
  ⟨h.active, h.room_lt, hc, h.slots_isSome, h.bindable, h.outbound⟩

end Frame

/-- The frames of a stack, each sound and linked to its caller. -/
inductive Stacked : List Frame → Prop where
  | nil : Stacked []
  | outermost {f : Frame} (h : f.Sound) (ho : f.Outermost) : Stacked [f]
  | call {f g : Frame} {rest : List Frame} (h : f.Sound) (hc : f.CalledBy g)
      (hrest : Stacked (g :: rest)) : Stacked (f :: g :: rest)

namespace Stacked

variable {f f' : Frame} {fs fs' rest : List Frame}

theorem sound (h : Stacked (f :: rest)) : f.Sound := by
  cases h with
  | outermost h _ => exact h
  | call h _ _ => exact h

theorem forall_sound (h : Stacked fs) : ∀ f ∈ fs, f.Sound := by
  induction h with
  | nil =>
    intro f hf
    cases hf
  | outermost h _ => exact fun _ hf => List.mem_singleton.mp hf ▸ h
  | call h _ _ ih => exact List.forall_mem_cons.mpr ⟨h, ih⟩

theorem replace (h : Stacked (f :: rest)) (hs : f'.Sound) (hmark : f'.callerMark = f.callerMark)
    (hout : f'.outbound = f.outbound) : Stacked (f' :: rest) := by
  cases h with
  | outermost _ ho =>
    refine .outermost hs ?_
    unfold Frame.Outermost at ho ⊢
    rwa [hmark, hout]
  | call _ hc hrest =>
    refine .call hs ?_ hrest
    unfold Frame.CalledBy at hc ⊢
    rwa [hmark, hout]

theorem of_blank (h : Stacked fs) (hb : fs'.map Frame.blank = fs.map Frame.blank) : Stacked fs' := by
  induction h generalizing fs' with
  | nil =>
    rw [List.map_nil, List.map_eq_nil_iff] at hb
    subst hb
    exact .nil
  | outermost h ho =>
    obtain ⟨f', rest', rfl, hf, hrest⟩ := Frame.cons_of_blank_eq hb rfl
    obtain rfl := List.map_eq_nil_iff.mp hrest
    exact .outermost (Frame.sound_blank.mp (hf ▸ Frame.sound_blank.mpr h))
      (show f'.blank.Outermost from hf ▸ ho)
  | call h hc _ ih =>
    obtain ⟨f', rest', rfl, hf, hrest⟩ := Frame.cons_of_blank_eq hb rfl
    obtain ⟨g', tail', rfl, hg, -⟩ := Frame.cons_of_blank_eq hrest rfl
    refine .call (Frame.sound_blank.mp (hf ▸ Frame.sound_blank.mpr h)) ?_ (ih hrest)
    exact Frame.calledBy_blank.mp (hf ▸ hg ▸ Frame.calledBy_blank.mpr hc)

theorem rewind {c : Cursor} (h : Stacked (f :: rest))
    (hc : c.Within f.block.tempBytes.toNat f.stack.capacity) : Stacked (f.rewind c :: rest) :=
  h.replace (h.sound.rewind hc) rfl rfl

end Stacked

namespace Machine

variable {m m' : Machine}

theorem allocates_of_stacked (h : Stacked m.frames) : m.Allocates := by
  obtain ⟨specs, registers, frames, memory, pool⟩ := m
  cases frames with
  | nil => exact ⟨Cursor.within_reserved (Nat.le_refl _), (by decide : 0 < UInt32.size)⟩
  | cons f rest => exact ⟨h.sound.within, h.sound.room_lt⟩

theorem Enters.plan_sound {site : CallSite} {d : Option InstanceData} {stack : LocalStack}
    {plan : Plan} {written : Machine} (h : m.Enters site d stack plan written m') (hm : m.Allocates) :
    plan.cursor.Within m.reserved m.room ∧ m.start.Behind plan.cursor ∧
      (∀ s ∈ plan.slots, s.2.Bindable) ∧
      ∀ o ∈ plan.outbound, (∃ l, o.actual = .memory l) ∧
        ∀ offset, o.source = .callerStack offset →
          Access.Within ⟨.localData, offset, o.width⟩ m.room ∧
            m.start.Gives plan.cursor m.room ⟨.localData, offset, o.width⟩ := by
  cases d with
  | none =>
    have hext := plan_stateless h.planned hm
    obtain ⟨ss, hss, hbind⟩ := hext.slots
    obtain ⟨os, hos, hfresh⟩ := hext.outbound
    rw [Plan.empty, List.nil_append] at hss hos
    refine ⟨hext.within, hext.behind, hss ▸ hbind, ?_⟩
    intro o ho
    obtain ⟨hl, offset, hs, hw, hg⟩ := hfresh o (hos ▸ ho)
    refine ⟨hl, ?_⟩
    intro offset' hs'
    obtain rfl := WriteBackSource.callerStack.inj (hs.symm.trans hs')
    exact ⟨hw, hg⟩
  | some d =>
    have hfills := plan_stateful h.planned
    have hcursor : plan.cursor = m.start := hfills.cursor
    obtain ⟨os, hos, hfrom⟩ := hfills.outbound
    rw [Plan.empty, List.nil_append] at hos
    refine ⟨hcursor ▸ hm.within, hcursor ▸ .refl _, ?_, ?_⟩
    · rw [hfills.slots]
      intro s hs
      cases hs
    · intro o ho
      obtain ⟨hl, block, offset, hs⟩ := hfrom o (hos ▸ ho)
      refine ⟨hl, ?_⟩
      intro offset' hs'
      cases hs.symm.trans hs'

theorem Enters.newFrame_sound {site : CallSite} {d : Option InstanceData} {stack : LocalStack}
    {plan : Plan} {written : Machine} (h : m.Enters site d stack plan written m') (hm : m.Allocates) :
    (m.newFrame site d plan stack).Sound := by
  obtain ⟨-, -, hbind, hout⟩ := h.plan_sound hm
  have hready := h.ready
  unfold LocalStack.reset at hready
  split_ifs at hready with hle
  cases hready
  have hcap : (m.newFrame site d plan ⟨(m.pool.acquire m.id).1.bytes.resize m.specs.localBytes.toNat,
      ⟨site.callee.tempBytes.toNat, none⟩⟩).stack.capacity = m.specs.localBytes.toNat :=
    ByteStore.size_resize _ _
  have hnone := isNone_of_instanceFor h.instanceData
  refine ⟨rfl, ?_, Cursor.within_reserved ?_, ?_, ?_, fun o ho => (hout o ho).1⟩
  · rw [hcap]
    exact UInt32.toNat_lt _
  · rw [hcap]
    exact UInt32.not_lt.mp hle
  · simp only [newFrame, hnone]
    cases site.raw <;> cases site.callee.isStateful <;> rfl
  · intro slots hslots
    simp only [newFrame] at hslots
    split_ifs at hslots
    cases hslots
    exact hbind

theorem Enters.stacked {site : CallSite} {d : Option InstanceData} {stack : LocalStack}
    {plan : Plan} {written : Machine} (h : m.Enters site d stack plan written m')
    (hm : Stacked m.frames) : Stacked m'.frames := by
  have halloc := allocates_of_stacked hm
  obtain ⟨hcursor, hbehind, -, hout⟩ := h.plan_sound halloc
  have hsound := h.newFrame_sound halloc
  have hblank := frames_of_blank_eq h.blank_written
  rw [h.frames]
  cases hf : m.frames with
  | nil =>
    rw [hf, List.map_nil, List.map_eq_nil_iff] at hblank
    rw [hblank]
    refine .outermost hsound ⟨by simp [newFrame, mark, hf], ?_⟩
    intro o ho offset hs
    -- No output comes back through a copy, since there is no room for one.
    have hroom : m.room = 0 := by simp [room, hf]
    exact Access.not_within_zero _ (hroom ▸ ((hout o ho).2 offset hs).1)
  | cons f rest =>
    rw [hf] at hm hblank
    obtain ⟨f', rest', hf', hfb, hrest⟩ := Frame.cons_of_blank_eq hblank rfl
    -- The staged writes change contents only, so the caller stays linked to its own caller.
    have hw : Stacked written.frames := hm.of_blank (by rw [hblank])
    rw [hf'] at hw ⊢
    have hblock : f'.block = f.block := (congrArg Frame.block hfb :)
    have hcap : f'.stack.capacity = f.stack.capacity := Frame.size_of_blank_eq hfb
    simp only [room, reserved, start, mark, hf, List.head?_cons, Option.map_some, Option.getD_some]
      at hcursor hbehind hout
    rw [← hblock, ← hcap] at hcursor
    have hmark : (m.newFrame site d plan stack).callerMark = some f.stack.cursor := by
      simp [newFrame, mark, hf]
    refine .call hsound ⟨f.stack.cursor, hmark, ?_, hbehind, ?_⟩ (hw.rewind hcursor)
    · change f.stack.cursor.Within f'.block.tempBytes.toNat f'.stack.capacity
      rw [hblock, hcap]
      exact hm.sound.within
    · intro o ho offset hs
      change Access.Within _ f'.stack.capacity ∧ Cursor.Gives _ _ f'.stack.capacity _
      rw [hcap]
      exact (hout o ho).2 offset hs

theorem stacked_enter (hm : Stacked m.frames) (site : CallSite) :
    Stacked (m.enter site).2.frames := by
  obtain ⟨d, stack, plan, written, m', he, henters⟩ | ⟨e, pool, he⟩ |
    ⟨d, stack, plan, e, written, pool, -, hw, he⟩ := m.enter_cases site
  · rw [he]
    exact henters.stacked hm
  · rw [he]
    exact hm
  · have hblank := frames_of_blank_eq (blank_of_makeWrites hw)
    rw [he]
    exact hm.of_blank hblank

theorem stacked_leave (hm : Stacked m.frames) : Stacked m.leave.2.frames := by
  cases hf : m.frames with
  | nil =>
    rwa [leave_of_nil hf]
  | cons f rest =>
    have hframes := blank_frames_leave hf
    rw [hf] at hm
    cases hm with
    | outermost _ _ =>
      rw [List.map_eq_nil_iff.mp hframes]
      exact .nil
    | @call _ g callers _ hc hrest =>
      obtain ⟨mark, hmark, hwithin, -⟩ := hc
      rw [hmark] at hframes
      exact (hrest.rewind hwithin).of_blank hframes

theorem stacked_setIp (hm : Stacked m.frames) (ip : Nat) : Stacked (m.setIp ip).frames := by
  unfold setIp
  split
  · exact hm
  · next f rest hf =>
    rw [hf] at hm
    obtain ⟨h₁, h₂, h₃, h₄, h₅, h₆⟩ := hm.sound
    exact hm.replace ⟨h₁, h₂, h₃, h₄, h₅, h₆⟩ rfl rfl

theorem stacked_after (hm : Stacked m.frames) (op : Operation) : Stacked (m.after op).frames := by
  cases m.acts op with
  | keep h => exact h ▸ hm
  | write h => exact hm.of_blank (frames_of_blank_eq (blank_of_writeAccess h))
  | setIp ip => exact stacked_setIp hm ip
  | enter site => exact stacked_enter hm site
  | leave => exact stacked_leave hm
  | begin block =>
    obtain ⟨pool, h⟩ := m.begin_eq block
    change Stacked (m.begin block).2.frames
    rw [h]
    exact stacked_enter .nil _

theorem Reachable.stacked (h : m.Reachable) : Stacked m.frames := by
  induction h with
  | start id specs => exact .nil
  | step _ op ih => exact stacked_after ih op

theorem Reachable.allocates (h : m.Reachable) : m.Allocates := allocates_of_stacked h.stacked

theorem Reachable.bindable {i : UInt32} {op : Operand} (h : m.Reachable) (hs : m.slot i = .ok op) :
    op.Bindable := by
  unfold slot at hs
  cases hf : m.frames with
  | nil => simp [hf] at hs
  | cons f rest =>
    rw [hf, List.head?_cons, Option.bind_some] at hs
    split at hs
    · next hslot =>
      cases hs
      obtain ⟨slots, hslots, hlookup⟩ := Option.bind_eq_some_iff.mp hslot
      have hsound := (hf ▸ h.stacked : Stacked (f :: rest)).sound
      obtain ⟨before, behind, rfl, -⟩ := List.lookup_eq_some_iff.mp hlookup
      exact hsound.bindable _ hslots (i, _) (List.mem_append_right _ List.mem_cons_self)
    · cases hs

end Machine

end PlcMachine
