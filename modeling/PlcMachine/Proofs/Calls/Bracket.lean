import Mathlib.Data.List.Infix
import PlcMachine.Proofs.Machine.History

/-! # Calls are bracketed

A request reaches the active frame, the contents of the frame below it and nothing further down. A
frame that is left again after any requests in its callee therefore has everything back but contents.
-/

namespace PlcMachine

/-- What no request changes in the active frame: all but its instruction pointer, its allocation
cursor and the contents of its local data. -/
def Frame.core (f : Frame) : Frame :=
  let b := f.blank
  { b with ip := 0, stack := { b.stack with cursor := ⟨0, none⟩ } }

theorem Frame.core_of_blank_eq {f f' : Frame} (h : f'.blank = f.blank) : f'.core = f.core := by
  unfold Frame.core
  rw [h]

/-- The frames after requests that kept the first of them on top. -/
structure Touched (fs fs' : List Frame) : Prop where
  core : fs'.head?.map Frame.core = fs.head?.map Frame.core
  blank : (fs'.drop 1).map Frame.blank = (fs.drop 1).map Frame.blank
  below : fs'.drop 2 = fs.drop 2

namespace Touched

variable {fs fs' fs'' : List Frame}

theorem refl (fs : List Frame) : Touched fs fs := ⟨rfl, rfl, rfl⟩

theorem trans (h : Touched fs fs') (h' : Touched fs' fs'') : Touched fs fs'' :=
  ⟨h'.core.trans h.core, h'.blank.trans h.blank, h'.below.trans h.below⟩

theorem of_blank (hb : fs'.map Frame.blank = fs.map Frame.blank) (hd : fs'.drop 2 = fs.drop 2) :
    Touched fs fs' where
  core := by
    cases fs with
    | nil =>
      rw [List.map_nil, List.map_eq_nil_iff] at hb
      rw [hb]
    | cons f rest =>
      obtain ⟨f', rest', rfl, hf, -⟩ := Frame.cons_of_blank_eq hb rfl
      exact congrArg some (Frame.core_of_blank_eq hf)
  blank := by rw [List.map_drop, List.map_drop, hb]
  below := hd

theorem tail (h : Touched fs fs') : Touched fs.tail fs'.tail := by
  rw [← List.drop_one, ← List.drop_one]
  exact of_blank h.blank (by simpa [List.drop_drop] using congrArg (List.drop 1) h.below)

theorem drop (h : Touched fs fs') (k : Nat) : Touched (fs.drop k) (fs'.drop k) := by
  induction k with
  | zero => exact h
  | succ k ih =>
    have ht := ih.tail
    rwa [List.tail_drop, List.tail_drop] at ht

theorem rewind (h : Touched fs fs') (c : Frame → Cursor) :
    Touched fs (fs'.modifyHead fun f => f.rewind (c f)) := by
  cases fs' with
  | nil => exact h
  | cons f' rest' => exact ⟨h.core, h.blank, h.below⟩

theorem length_eq (h : Touched fs fs') : fs'.length = fs.length := by
  have hb := congrArg List.length h.blank
  have hc := congrArg Option.isSome h.core
  cases fs <;> cases fs' <;> simp_all

end Touched

namespace Machine

variable {m m' : Machine}

theorem touched_of_writeAccess {a : Access} {v : Value} (h : m.writeAccess a v = .ok m') :
    Touched m.frames m'.frames :=
  .of_blank (frames_of_blank_eq (blank_of_writeAccess h)) (drop_of_writeAccess h)

theorem touched_setIp (m : Machine) (ip : Nat) : Touched m.frames (m.setIp ip).frames := by
  unfold setIp
  split
  · exact .refl _
  · next f rest hf =>
    rw [hf]
    exact ⟨rfl, rfl, rfl⟩

theorem touched_makeWrites (m : Machine) (ws : List StagedWrite) :
    Touched m.frames (m.makeWrites ws).2.frames := by
  have hd := congrArg (List.drop 1) (m.drop_makeWrites ws)
  exact .of_blank (frames_of_blank_eq (m.blank_makeWrites ws)) (by simpa [List.drop_drop] using hd)

theorem Enters.touched {site : CallSite} {d : Option InstanceData} {stack : LocalStack}
    {plan : Plan} {written : Machine} (h : m.Enters site d stack plan written m') :
    Touched m.frames m'.frames.tail := by
  have hw := m.touched_makeWrites plan.writes
  rw [h.made] at hw
  rw [h.frames]
  exact hw.rewind fun _ => plan.cursor

theorem touched_enter (m : Machine) (site : CallSite) :
    Touched m.frames (m.enter site).2.frames ∨ Touched m.frames (m.enter site).2.frames.tail := by
  obtain ⟨d, stack, plan, written, m', he, henters⟩ | ⟨e, pool, he⟩ |
    ⟨d, stack, plan, e, written, pool, -, hw, he⟩ := m.enter_cases site
  · rw [he]
    exact .inr henters.touched
  · rw [he]
    exact .inl (.refl _)
  · have ht := m.touched_makeWrites plan.writes
    rw [hw] at ht
    rw [he]
    exact .inl ht

theorem touched_leave {f : Frame} {rest : List Frame} (hf : m.frames = f :: rest) :
    Touched rest m.leave.2.frames := by
  obtain ⟨failures, written, hblank, hdrop, hleave⟩ := leave_eq hf
  obtain ⟨pool, hdiscard⟩ := written.discard_eq f
  rw [hleave, hdiscard]
  exact (Touched.of_blank (frames_of_blank_eq hblank) hdrop).rewind _

/-- A request leaves the frames in place, puts one on top of them, or takes the first one away. -/
theorem touched_after (m : Machine) {op : Operation} (hop : ∀ block, op ≠ .begin block) :
    Touched m.frames (m.after op).frames ∨ Touched m.frames (m.after op).frames.tail ∨
      (m.after op).depth < m.depth ∧ Touched m.frames.tail (m.after op).frames := by
  cases m.acts op with
  | keep h => exact .inl (h ▸ .refl _)
  | write h => exact .inl (touched_of_writeAccess h)
  | setIp ip => exact .inl (m.touched_setIp ip)
  | enter site => exact (m.touched_enter site).imp_right .inl
  | leave =>
    change Touched _ m.leave.2.frames ∨ Touched _ m.leave.2.frames.tail ∨
      m.leave.2.frames.length < m.frames.length ∧ Touched _ m.leave.2.frames
    cases hf : m.frames with
    | nil =>
      rw [leave_of_nil hf, hf]
      exact .inl (.refl _)
    | cons f rest =>
      have ht := touched_leave hf
      exact .inr (.inr ⟨by rw [ht.length_eq]; exact Nat.lt_succ_self _, ht⟩)
  | begin block => exact absurd rfl (hop block)

/-- While the depth stays at or above that of `fs`, the frames of `fs` are only touched. -/
theorem touched_run {fs : List Frame} {ops : List Operation} {k : Nat}
    (h : Touched fs (m.frames.drop k)) (hops : ∀ op ∈ ops, ∀ block, op ≠ .begin block)
    (habove : ∀ before ∈ ops.inits, fs.length ≤ (m.run before).depth) :
    ∃ k, Touched fs ((m.run ops).frames.drop k) := by
  induction ops generalizing m k with
  | nil => exact ⟨k, h⟩
  | cons op ops ih =>
    obtain ⟨hop, hops⟩ := List.forall_mem_cons.mp hops
    have hnext : fs.length ≤ (m.after op).depth := habove [op] (by simp)
    have hrest : ∀ before ∈ ops.inits, fs.length ≤ ((m.after op).run before).depth := by
      intro before hbefore
      exact habove (op :: before) (by simpa using hbefore)
    rcases m.touched_after hop with ht | ht | ⟨hlt, ht⟩
    · exact ih (h.trans (ht.drop k)) hops hrest
    · refine ih (k := k + 1) (h.trans ?_) hops hrest
      have hd := ht.drop k
      rwa [List.drop_tail] at hd
    · cases k with
      | zero =>
        have hlen := h.length_eq
        rw [List.drop_zero] at hlen
        exact absurd hnext (by unfold depth at hlt ⊢; omega)
      | succ k =>
        have hd := ht.drop k
        rw [List.drop_tail] at hd
        exact ih (h.trans hd) hops hrest

theorem Enters.leave {m₁ m₂ : Machine} {site : CallSite} {d : Option InstanceData}
    {stack : LocalStack} {plan : Plan} {written : Machine}
    (h : m.Enters site d stack plan written m₁) (ht : Touched m₁.frames m₂.frames) :
    (m₂.leave.1 = .ok () ∨
        ∃ block failures, m₂.leave.1 = .error (.writeBackFailed block failures)) ∧
      m₂.leave.2.registers = (if site.raw then m₂.registers else m.registers) ∧
      m₂.leave.2.frames.map Frame.blank = m.frames.map Frame.blank ∧
      m₂.leave.2.frames.drop 2 = m.frames.drop 2 := by
  obtain ⟨hcore, hbelow, hrest⟩ := ht
  rw [h.frames] at hcore hbelow hrest
  cases hf : m₂.frames with
  | nil =>
    rw [hf] at hcore
    cases hcore
  | cons n callers =>
    rw [hf] at hcore hbelow hrest
    obtain hcore : n.core = (m.newFrame site d plan stack).core := Option.some.inj hcore
    have hraw : n.raw = site.raw := (congrArg Frame.raw hcore :)
    have hsaved : n.saved = m.registers := (congrArg Frame.saved hcore :)
    have hmark : n.callerMark = m.mark := (congrArg Frame.callerMark hcore :)
    refine ⟨leave_reply hf, ?_, ?_, ?_⟩
    · rw [registers_leave hf, hraw, hsaved]
    · -- The cursor moved to the end of the plan, and moves back to where it was before the call.
      have hcallers : callers.map Frame.blank =
          (m.frames.map Frame.blank).modifyHead (·.rewind plan.cursor) := by
        refine hbelow.trans ?_
        rw [← frames_of_blank_eq h.blank_written]
        cases written.frames <;> rfl
      rw [blank_frames_leave hf, hcallers, hmark]
      unfold mark
      cases m.frames <;> rfl
    · have hdrop : callers.drop 1 = m.frames.drop 1 := by
        refine Eq.trans hrest ?_
        rw [← h.drop_written]
        cases written.frames <;> rfl
      rw [drop_frames_leave hf]
      simpa [List.drop_drop] using congrArg (List.drop 1) hdrop

/-- A call is a bracket: whatever requests run between entering a block and leaving it, and whether or
not all outputs arrive, the caller's registers and all remaining frames are what they were before. Only
the contents of the caller's local data and of its own caller's can differ. -/
theorem leave_run_enter {m₁ : Machine} {site : CallSite} {body : List Operation}
    (henter : m.enter site = (.ok (), m₁))
    (hbody : ∀ op ∈ body, ∀ block, op ≠ .begin block)
    (habove : ∀ before ∈ body.inits, m.depth < (m₁.run before).depth)
    (hend : (m₁.run body).depth = m.depth + 1) :
    ((m₁.run body).leave.1 = .ok () ∨
        ∃ block failures, (m₁.run body).leave.1 = .error (.writeBackFailed block failures)) ∧
      (m₁.run body).leave.2.depth = m.depth ∧
      (m₁.run body).leave.2.registers = (if site.raw then (m₁.run body).registers else m.registers) ∧
      (m₁.run body).leave.2.frames.map Frame.blank = m.frames.map Frame.blank ∧
      (m₁.run body).leave.2.frames.drop 2 = m.frames.drop 2 := by
  obtain ⟨d, stack, plan, written, henters⟩ := enters_of_ok henter
  have hdepth : m₁.frames.length = m.depth + 1 := henters.depth_eq
  obtain ⟨k, hk⟩ : ∃ k, Touched m₁.frames ((m₁.run body).frames.drop k) :=
    touched_run (k := 0) (.refl _) hbody fun before hbefore => hdepth ▸ habove before hbefore
  -- Both stacks have the same height, so nothing lies on top of the frame that was entered.
  obtain rfl : k = 0 := by
    have hlen := hk.length_eq
    unfold depth at hend hdepth
    rw [List.length_drop] at hlen
    omega
  obtain ⟨hreply, hregisters, hblank, hbelow⟩ := henters.leave hk
  refine ⟨hreply, ?_, hregisters, hblank, hbelow⟩
  have hlen := congrArg List.length hblank
  rwa [List.length_map, List.length_map] at hlen

namespace Bracketed

def callee : Block := ⟨.function, 1, "", 2, [.scalar "x" 0 ⟨0, 0⟩ 8]⟩

def site (actual : Operand) : CallSite :=
  ⟨callee, false, none, none, [⟨.scalar "x" 0 ⟨0, 0⟩ 8, actual, .inOut⟩]⟩

def temporary : Operand := .memory ⟨⟨.localData, ⟨0, 0⟩, 8⟩, false⟩

def caller : Machine :=
  (ofSpecs ⟨0⟩ ⟨8, 4, 4, 1, 1, 1, 1⟩).run
    [.begin ⟨.organization, 1, "", 2, []⟩, .store temporary (.scalar 7)]

/-- Requests in the callee, among them a nested call, a change of registers and a failing store. -/
def body : List Operation :=
  [.store (.slot 0) (.scalar 9), .enter (site (.slot 0)), .store (.slot 0) (.scalar 4),
    .setRegisters ⟨3, 4, 5⟩, .leave, .store (.slot 1) (.scalar 1), .setIp 3]

end Bracketed

open Bracketed in
theorem leave_run_enter_nested :
    ((caller.enter (site temporary)).2.run body).leave.2.registers = caller.registers ∧
      ((caller.enter (site temporary)).2.run body).leave.2.frames.map Frame.blank =
        caller.frames.map Frame.blank := by
  obtain ⟨-, -, hregisters, hframes, -⟩ :=
    leave_run_enter
      (by decide +kernel : caller.enter (site temporary) = (.ok (), (caller.enter (site temporary)).2))
      (by simp [body] : ∀ op ∈ body, ∀ block, op ≠ .begin block)
      (by decide +kernel) (by decide +kernel)
  exact ⟨hregisters, hframes⟩

end Machine

end PlcMachine
