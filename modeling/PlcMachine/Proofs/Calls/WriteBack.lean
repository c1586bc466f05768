import Mathlib.Data.List.Nodup
import PlcMachine.Proofs.Calls.Bracket

/-! # Outputs that arrive

An actual that could be read when a block was entered takes its output when the block is left, whatever
ran in between, as long as no area of memory became shorter. Only an output parameter of a stateful
block can fail to be written back, because nothing looks at its actual before.
-/

namespace PlcMachine.Machine

variable {m m₁ m₂ : Machine} {site : CallSite} {d : Option InstanceData} {stack : LocalStack}
  {plan : Plan} {written : Machine}

namespace Enters

variable (h : m.Enters site d stack plan written m₁)
include h

theorem exists_readOutbound {o : Outbound} (ho : o ∈ plan.outbound) : ∃ v, m.readOutbound o = .ok v := by
  cases d with
  | none =>
    obtain ⟨b, p, l, offset, v, -, -, -, -, hw, rfl⟩ := exists_of_mem_outbound h.planned ho
    -- The copy was written, and what can be written can be read.
    obtain ⟨m', m'', hblank, hmake⟩ := makeWrite_of_mem h.made hw
    have hread : m''.readAccess ⟨.localData, offset, l.width⟩ = .ok v.canonical :=
      readAccess_of_writeAccess hmake
    exact readable_of_blank_eq (hblank.symm.trans (blank_of_makeWrite hmake).symm) hread
  | some d =>
    obtain ⟨b, p, l, -, -, rfl, hcheck, -⟩ := exists_of_mem_outbound_stateful h.planned ho
    exact Memory.readable_of_checkBlock hcheck

theorem exists_actual {o : Outbound} (ho : o ∈ plan.outbound) :
    ∃ b l, b ∈ site.bindings ∧ b.direction.isOutbound = true ∧ o.parameter.name = b.parameter.name ∧
      o.actual = .memory l ∧ (site.callee.isStateful = false ∨ b.direction = .inOut →
        o.width = l.width ∧ ∃ u, m.readAccess l.toAccess = .ok u) := by
  cases d with
  | none =>
    obtain ⟨b, p, l, offset, v, hb, -, hdir, hv, -, rfl⟩ := exists_of_mem_outbound h.planned ho
    exact ⟨b, l, hb.mem, hdir, CallSite.name_eq_of_parameter? hb.declared, rfl,
      fun _ => ⟨rfl, v, (resolve_eq_ok.mp hv).2⟩⟩
  | some d =>
    obtain ⟨b, p, l, hb, hdir, rfl, -, hinOut⟩ := exists_of_mem_outbound_stateful h.planned ho
    refine ⟨b, l, hb.mem, hdir, CallSite.name_eq_of_parameter? hb.declared, rfl, ?_⟩
    rintro (hstateless | hd)
    · cases h.instanceData_eq_none hstateless
    · obtain ⟨hw, v, hv⟩ := hinOut hd
      exact ⟨hw, v, (resolve_eq_ok.mp hv).2⟩

theorem arrives {o : Outbound} {l : Location} {u : Value} {m' : Machine} (ho : o ∈ plan.outbound)
    (hl : o.actual = .memory l) (hwidth : o.width = l.width) (hu : m.readAccess l.toAccess = .ok u)
    (hadmits : m.Admits m₂) (hblank : m'.blank = m₂.blank) :
    ∃ m'', (m₂.readOutbound o).bind (m'.store o.actual) = .ok m'' := by
  obtain ⟨v₀, hv₀⟩ := h.exists_readOutbound ho
  obtain ⟨v, hv, hfits, hcanonical⟩ := hadmits.readOutbound hv₀
  obtain ⟨u', hu'⟩ := (hadmits.trans (.of_blank_eq hblank)).readable hu
  obtain ⟨m'', hstore⟩ := exists_writeAccess hu' (hwidth ▸ hfits) hcanonical
  rw [hv, hl]
  exact ⟨m'', hstore⟩

theorem touched_run {body : List Operation} (hbody : ∀ op ∈ body, ∀ block, op ≠ .begin block)
    (habove : ∀ before ∈ body.inits, m.depth < (m₁.run before).depth)
    (hend : (m₁.run body).depth = m.depth + 1) : Touched m₁.frames (m₁.run body).frames := by
  have hdepth : m₁.frames.length = m.depth + 1 := h.depth_eq
  obtain ⟨k, hk⟩ : ∃ k, Touched m₁.frames ((m₁.run body).frames.drop k) :=
    Machine.touched_run (k := 0) (.refl _) hbody fun before hbefore => hdepth ▸ habove before hbefore
  have hlen := hk.length_eq
  rw [List.length_drop] at hlen
  unfold depth at hend hdepth
  obtain rfl : k = 0 := by omega
  exact hk

theorem admits_returned (hraw : site.raw = false) (ht : Touched m₁.frames m₂.frames)
    (hfits : m₁.memory.FitsIn m₂.memory) :
    ∃ n callers, m₂.frames = n :: callers ∧ n.outbound = plan.outbound ∧ n.block = site.callee ∧
      n.raw = false ∧ m.Admits (m₂.returned n callers) := by
  obtain ⟨hcore, hbelow, -⟩ := ht
  rw [h.frames] at hcore hbelow
  cases hf : m₂.frames with
  | nil =>
    rw [hf] at hcore
    cases hcore
  | cons n callers =>
    rw [hf] at hcore hbelow
    obtain hcore : n.core = (m.newFrame site d plan stack).core := Option.some.inj hcore
    have hnraw : n.raw = false := (congrArg Frame.raw hcore :).trans hraw
    have hsaved : n.saved = m.registers := (congrArg Frame.saved hcore :)
    refine ⟨n, callers, rfl, (congrArg Frame.outbound hcore :), (congrArg Frame.block hcore :), hnraw,
      ?_, ?_, ?_⟩
    · simp [returned, hnraw, hsaved]
    · -- Sizes are part of what the requests leave alone, and going back to a mark keeps them.
      have hblank : ({ m with frames := callers } : Machine).blank =
          ({ m with frames := written.frames.modifyHead (·.rewind plan.cursor) } : Machine).blank :=
        congrArg (fun frames => { m.blank with frames }) hbelow
      have hcallers : ({ m with frames := callers } : Machine).capacities = _ :=
        capacities_of_blank_eq hblank
      have hrewound : ({ m with frames := written.frames.modifyHead (·.rewind plan.cursor) } :
          Machine).capacities = written.capacities := by
        unfold capacities
        cases written.frames <;> rfl
      exact hcallers.trans (hrewound.trans (capacities_of_blank_eq h.blank_written))
    · exact (Memory.FitsIn.of_blank_eq h.blank_memory).trans hfits

/-- A frame whose callers find no less than before the call fails to write back only what was bound to
an output parameter of a stateful block. -/
theorem failures_of_leave {n : Frame} {callers : List Frame} (hraw : site.raw = false)
    (hf : m₂.frames = n :: callers) (hout : n.outbound = plan.outbound)
    (hadmits : m.Admits (m₂.returned n callers)) : ∃ failures,
      m₂.leave.1 = (if failures = [] then .ok () else .error (.writeBackFailed n.block.label failures)) ∧
      ∀ failure ∈ failures, site.callee.isStateful = true ∧
        ∃ b ∈ site.bindings, b.parameter.name = failure.parameter ∧ b.direction = .output ∧
          ∀ b' ∈ site.bindings, b'.parameter.name = failure.parameter → b' = b := by
  obtain ⟨failures, hleave, hfailures⟩ := leave_failures hf
  obtain ⟨bs, hbs, -, -⟩ := exists_ordered h.planned hraw
  refine ⟨failures, hleave, ?_⟩
  intro failure hfailure
  obtain ⟨o, ho, m', e, hblank, herror, rfl⟩ := hfailures failure hfailure
  obtain ⟨b, l, hb, hdir, hname, hactual, hsound⟩ := h.exists_actual (hout ▸ ho)
  have hunread : ¬ (site.callee.isStateful = false ∨ b.direction = .inOut) := by
    intro hread
    obtain ⟨hwidth, u, hu⟩ := hsound hread
    obtain ⟨m'', hstored⟩ := h.arrives (hout ▸ ho) hactual hwidth hu hadmits hblank
    have hvalue : (m₂.returned n callers).readOutbound o =
        ({ m₂ with frames := callers } : Machine).readOutbound o :=
      readOutbound_registers { m₂ with frames := callers } _ o
    rw [hvalue] at hstored
    cases hstored.symm.trans herror
  rw [not_or] at hunread
  refine ⟨by simpa using hunread.1, b, hb, hname.symm, ?_, ?_⟩
  · cases hb : b.direction with
    | output => rfl
    | input => simp [hb, Direction.isOutbound] at hdir
    | inOut => exact absurd hb hunread.2
  · intro b' hb' hname'
    exact List.inj_on_of_nodup_map (CallSite.nodup_names hbs) hb' hb (hname'.trans hname)

end Enters

/-- Only an output parameter of a stateful block can fail to be written back. Whatever requests run
between entering a block and leaving it, every other output arrives if no area of memory is shorter in the
end; and so leaving a block without such parameters succeeds. -/
theorem leave_run_enter_arrives {body : List Operation} (henter : m.enter site = (.ok (), m₁))
    (hraw : site.raw = false) (hbody : ∀ op ∈ body, ∀ block, op ≠ .begin block)
    (habove : ∀ before ∈ body.inits, m.depth < (m₁.run before).depth)
    (hend : (m₁.run body).depth = m.depth + 1)
    (hfits : m₁.memory.FitsIn (m₁.run body).memory) :
    ∃ failures, (m₁.run body).leave.1 =
        (if failures = [] then .ok () else .error (.writeBackFailed site.callee.label failures)) ∧
      (∀ failure ∈ failures, site.callee.isStateful = true ∧
        ∃ b ∈ site.bindings, b.parameter.name = failure.parameter ∧ b.direction = .output ∧
          ∀ b' ∈ site.bindings, b'.parameter.name = failure.parameter → b' = b) ∧
      (site.callee.isStateful = false ∨ (∀ b ∈ site.bindings, b.direction ≠ .output) →
        (m₁.run body).leave.1 = .ok ()) := by
  obtain ⟨d, stack, plan, written, h⟩ := enters_of_ok henter
  obtain ⟨n, callers, hf, hout, hblock, hnraw, hadmits⟩ :=
    h.admits_returned hraw (h.touched_run hbody habove hend) hfits
  obtain ⟨failures, hleave, hfailures⟩ := h.failures_of_leave hraw hf hout hadmits
  rw [hblock] at hleave
  refine ⟨failures, hleave, hfailures, ?_⟩
  intro hnone
  cases failures with
  | nil => exact hleave
  | cons failure failures =>
    obtain ⟨hstateful, b, hb, -, hdir, -⟩ := hfailures failure List.mem_cons_self
    rcases hnone with hstateless | hno
    · cases hstateful.symm.trans hstateless
    · exact absurd hdir (hno b hb)

namespace WriteBack

def number : Parameter := .scalar "n" 0 ⟨0, 0⟩ 16

def flag : Parameter := .scalar "f" 1 ⟨2, 3⟩ 1

def result : Parameter := .scalar "r" 2 ⟨4, 0⟩ 8

/-- A block whose in-out parameters stand for a timer and for a bit of the caller's outer data, and whose
output has no place to go. -/
def call : CallSite where
  callee := ⟨.functionBlock, 1, "", 2, [number, flag, result]⟩
  raw := false
  instanceBlock := some 7
  nestedBase := none
  bindings := [⟨number, .memory ⟨⟨.timer, ⟨2, 0⟩, 16⟩, false⟩, .inOut⟩,
    ⟨flag, .memory ⟨⟨.outerData, ⟨0, 3⟩, 1⟩, false⟩, .inOut⟩,
    ⟨result, .memory ⟨⟨.dataBlock 9, ⟨0, 0⟩, 8⟩, false⟩, .output⟩]

def caller : Machine :=
  (ofSpecs ⟨0⟩ ⟨16, 4, 4, 1, 1, 4, 4⟩).run
    [.begin ⟨.organization, 1, "", 2, []⟩, .memory (.addBlock 7 6),
      .enter (.unconditional ⟨.function, 1, "", 2, []⟩)]

def body : List Operation :=
  [.storeParameter number (.scalar 5), .storeParameter flag (.scalar 1),
    .enter (Bracketed.site Bracketed.temporary), .store (.slot 0) (.scalar 4), .leave,
    .setRegisters ⟨1, 2, 3⟩, .setIp 3]

end WriteBack

open WriteBack in
theorem leave_run_enter_arrives_timer :
    ∃ failures, ((caller.enter call).2.run body).leave.1 = .error (.writeBackFailed "FB 1" failures) ∧
      ∀ failure ∈ failures, failure.parameter = "r" := by
  have hblank : ((caller.enter call).2.run body).memory.blank = (caller.enter call).2.memory.blank := by
    decide +kernel
  obtain ⟨failures, hleave, hfailures, -⟩ := leave_run_enter_arrives
    (by decide +kernel : caller.enter call = (.ok (), (caller.enter call).2)) rfl
    (by simp [body] : ∀ op ∈ body, ∀ block, op ≠ .begin block)
    (by decide +kernel) (by decide +kernel) (.of_blank_eq hblank)
  have hfails : ((caller.enter call).2.run body).leave.1 ≠ .ok () := by decide +kernel
  refine ⟨failures, ?_, ?_⟩
  · rw [hleave, if_neg]
    · rfl
    · rintro rfl
      exact hfails hleave
  · intro failure hfailure
    obtain ⟨-, b, hb, hname, hdir, -⟩ := hfailures failure hfailure
    rw [← hname]
    simp only [call, List.mem_cons, List.not_mem_nil, or_false] at hb
    rcases hb with rfl | rfl | rfl
    · cases hdir
    · cases hdir
    · rfl

end PlcMachine.Machine
