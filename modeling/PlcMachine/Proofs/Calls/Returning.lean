import PlcMachine.Proofs.Machine.Bits
import PlcMachine.Proofs.Machine.History

/-! # Outputs on return

When a frame is left, the values of all outputs are read before the first is stored. Whether an output
arrives then depends on no contents, so it is settled before any store, and the outputs that arrive
overwrite each other in their order.
-/

namespace PlcMachine.Machine

variable {m m' caller : Machine} {f : Frame} {rest : List Frame} {o : Outbound} {v : Value}

/-- The output has the value `v`, and its actual takes it. -/
def Arrives (caller : Machine) (o : Outbound) (v : Value) : Prop :=
  caller.readOutbound o = .ok v ∧ ∃ m', caller.store o.actual v = .ok m'

def failure? (caller : Machine) (o : Outbound) : Option WriteBackFailure :=
  match (caller.readOutbound o).bind (caller.store o.actual) with
  | .ok _ => none
  | .error e => some ⟨o.parameter.name, o.actual, e⟩

def failures (caller : Machine) (os : List Outbound) : List WriteBackFailure := os.filterMap caller.failure?

/-- The later outputs that arrive name no bit of the actual. -/
def SparedBy (caller : Machine) (o : Outbound) (later : List Outbound) : Prop :=
  ∀ o' ∈ later, ∀ v, caller.Arrives o' v → caller.Disjoint o.actual o'.actual

/-- The frame `f` is gone: its caller has its registers and its allocation cursor back, the pool has the
local stack, and apart from contents all else is as it was. -/
structure TornDown (m : Machine) (f : Frame) (rest : List Frame) (m' : Machine) : Prop where
  specs : m'.specs = m.specs
  registers : m'.registers = f.saved
  frames : m'.frames.map Frame.blank =
    (rest.map Frame.blank).modifyHead fun g => g.rewind (f.callerMark.getD g.stack.cursor)
  memory : m'.memory.blank = m.memory.blank
  pool : m'.pool = m.pool.release m.id f.stack

section Outputs

theorem canonical_of_readOutbound (h : m.readOutbound o = .ok v) : v.canonical = v := by
  obtain ⟨u, hu, -, hcanonical⟩ := (Admits.of_blank_eq rfl).readOutbound h
  obtain rfl : u = v := Except.ok.inj (hu.symm.trans h)
  exact hcanonical

theorem arrives_or_failure? (caller : Machine) (o : Outbound) :
    (∃ v, caller.Arrives o v ∧ caller.failure? o = none) ∨
      ∃ e, (∀ v, ¬ caller.Arrives o v) ∧ (caller.readOutbound o).bind (caller.store o.actual) = .error e ∧
        caller.failure? o = some ⟨o.parameter.name, o.actual, e⟩ := by
  unfold failure? Arrives
  cases hread : caller.readOutbound o with
  | error e => exact .inr ⟨e, by simp, rfl, rfl⟩
  | ok v =>
    cases hstore : caller.store o.actual v with
    | ok m' => exact .inl ⟨v, ⟨rfl, m', hstore⟩, by simp [Except.bind, hstore]⟩
    | error e => exact .inr ⟨e, by simp [hstore], hstore, by simp [Except.bind, hstore]⟩

theorem exists_store_of_blank_eq {op : Operand} (h : m.blank = caller.blank)
    (hs : ∃ m', caller.store op v = .ok m') : ∃ m', m.store op v = .ok m' := by
  cases hm : m.store op v with
  | ok m' => exact ⟨m', rfl⟩
  | error e =>
    obtain ⟨m', hs⟩ := hs
    cases (store_error_of_blank_eq h.symm hm).symm.trans hs

theorem writeBack_cons_cases (h : m.blank = caller.blank) (o : Outbound)
    (values : List (Outbound × Except AccessError Value)) :
    (∃ v m₁, caller.Arrives o v ∧ caller.failure? o = none ∧ m.store o.actual v = .ok m₁ ∧
        m.writeBack ((o, caller.readOutbound o) :: values) = m₁.writeBack values) ∨
      ∃ failure, (∀ v, ¬ caller.Arrives o v) ∧ caller.failure? o = some failure ∧
        m.writeBack ((o, caller.readOutbound o) :: values) =
          (failure :: (m.writeBack values).1, (m.writeBack values).2) := by
  obtain ⟨v, ⟨hread, hstore⟩, hnone⟩ | ⟨e, hnot, herror, hsome⟩ := caller.arrives_or_failure? o
  · obtain ⟨m₁, hm₁⟩ := exists_store_of_blank_eq h hstore
    refine .inl ⟨v, m₁, ⟨hread, hstore⟩, hnone, hm₁, ?_⟩
    simp only [writeBack, hread, Except.bind, hm₁]
  · refine .inr ⟨_, hnot, hsome, ?_⟩
    have herror' : (caller.readOutbound o).bind (m.store o.actual) = .error e := by
      cases hread : caller.readOutbound o with
      | error e' => rwa [hread] at herror
      | ok v =>
        rw [hread] at herror
        exact store_error_of_blank_eq h herror
    rw [writeBack, herror']

/-- What the outputs, whose values have been read, make of the caller. -/
theorem writeBack_outputs (h : m.blank = caller.blank) {os : List Outbound} {failures : List WriteBackFailure}
    (hw : m.writeBack (os.map fun o => (o, caller.readOutbound o)) = (failures, m')) :
    failures = os.filterMap caller.failure? ∧ m'.blank = caller.blank ∧
      ∀ b, (∀ o ∈ os, ∀ v, caller.Arrives o v → ¬ caller.Names o.actual b) → m'.bit? b = m.bit? b := by
  induction os generalizing m failures with
  | nil =>
    cases hw
    exact ⟨rfl, h, fun _ _ => rfl⟩
  | cons o os ih =>
    rw [List.map_cons] at hw
    obtain ⟨v, m₁, harrives, hnone, hs, he⟩ | ⟨failure, -, hsome, he⟩ :=
      writeBack_cons_cases h o (os.map fun o => (o, caller.readOutbound o))
    · rw [he] at hw
      obtain ⟨hfailures, hblank, hbits⟩ := ih ((blank_of_store hs).trans h) hw
      refine ⟨by rw [List.filterMap_cons_none hnone, hfailures], hblank, fun b hb => ?_⟩
      have hnames : ¬ m.Names o.actual b := by
        rw [names_of_blank_eq h]
        exact hb o List.mem_cons_self v harrives
      rw [hbits b fun o' ho' => hb o' (List.mem_cons_of_mem _ ho'), bit?_of_store hs hnames]
    · rw [he, Prod.mk.injEq] at hw
      obtain ⟨rfl, rfl⟩ := hw
      obtain ⟨hfailures, hblank, hbits⟩ := ih h rfl
      refine ⟨by rw [List.filterMap_cons_some hsome, ← hfailures], hblank, fun b hb => ?_⟩
      exact hbits b fun o' ho' => hb o' (List.mem_cons_of_mem _ ho')

theorem fetch_writeBack (h : m.blank = caller.blank) {os : List Outbound} {failures : List WriteBackFailure}
    (hw : m.writeBack (os.map fun o => (o, caller.readOutbound o)) = (failures, m'))
    {before later : List Outbound} (hos : os = before ++ o :: later) (harrives : caller.Arrives o v)
    (hspared : caller.SparedBy o later) : m'.fetch o.actual = .ok v := by
  induction before generalizing m os failures with
  | nil =>
    subst hos
    rw [List.nil_append, List.map_cons] at hw
    obtain ⟨u, m₁, harrives', -, hs, he⟩ | ⟨failure, hnot, -⟩ :=
      writeBack_cons_cases h o (later.map fun o => (o, caller.readOutbound o))
    · rw [he] at hw
      obtain rfl : u = v := Except.ok.inj (harrives'.1.symm.trans harrives.1)
      have hblank := (blank_of_store hs).trans h
      obtain ⟨-, hblank', hbits⟩ := writeBack_outputs hblank hw
      have hfetch := fetch_of_store hs
      rw [canonical_of_readOutbound harrives.1] at hfetch
      rw [← hfetch]
      -- The later outputs leave the bits of this actual alone.
      refine fetch_congr (hblank'.trans hblank.symm) fun b hb => hbits b fun o' ho' u hu => ?_
      exact hspared o' ho' u hu b ((names_of_blank_eq hblank).mp hb)
    · exact absurd harrives (hnot v)
  | cons o₁ before ih =>
    subst hos
    rw [List.cons_append, List.map_cons] at hw
    obtain ⟨u, m₁, -, -, hs, he⟩ | ⟨failure, -, -, he⟩ :=
      writeBack_cons_cases h o₁ ((before ++ o :: later).map fun o => (o, caller.readOutbound o))
    · rw [he] at hw
      exact ih ((blank_of_store hs).trans h) hw rfl
    · rw [he, Prod.mk.injEq] at hw
      obtain ⟨-, rfl⟩ := hw
      exact ih h rfl rfl

end Outputs

section Discarding

variable (m f)

theorem bit?_discard (b : Bit) : (m.discard f).bit? b = m.bit? b := by
  obtain ⟨pool, h⟩ := m.discard_eq f
  rw [h]
  obtain ⟨home, i⟩ := b
  obtain ⟨specs, registers, frames, memory, pool'⟩ := m
  cases home with
  | shared area => rfl
  | frame level =>
    cases frames with
    | nil => rfl
    | cons g frames =>
      simp only [bit?, List.modifyHead_cons, getElem?_reverse_cons]
      split_ifs <;> rfl

theorem fetch_discard (op : Operand) : (m.discard f).fetch op = m.fetch op := by
  have hunslot : (m.discard f).unslot op = m.unslot op := by
    obtain ⟨pool, h⟩ := m.discard_eq f
    rw [h]
    obtain ⟨specs, registers, frames, memory, pool'⟩ := m
    cases op <;> cases frames <;> rfl
  simp only [fetch, hunslot, readAccess_discard]

end Discarding

theorem leave_of_writeBack {failures : List WriteBackFailure} {written : Machine}
    (hf : m.frames = f :: rest) (hraw : f.raw = false)
    (hw : (m.returned f rest).writeBack
      (f.outbound.map fun o => (o, (m.returned f rest).readOutbound o)) = (failures, written)) :
    m.leave = (if failures = [] then .ok () else .error (.writeBackFailed f.block.label failures),
      written.discard f) := by
  have hreturned : m.returned f rest = { m with frames := rest, registers := f.saved } := by
    simp [returned, hraw]
  have hread : ∀ o, (m.returned f rest).readOutbound o =
      ({ m with frames := rest } : Machine).readOutbound o := by
    intro o
    rw [hreturned]
    exact readOutbound_registers { m with frames := rest } f.saved o
  simp only [hread] at hw
  rw [hreturned] at hw
  unfold leave returnOutputs
  simp only [hf, Frame.beginExit, hraw, Bool.false_eq_true, ↓reduceIte, hw]

theorem leave_registers (hf : m.frames = f :: rest) (hraw : f.raw = false) (registers : Registers) :
    ({ m with registers } : Machine).leave = m.leave := by
  have hreturned : ({ m with registers } : Machine).returned f rest = m.returned f rest := by
    simp [returned, hraw]
  obtain ⟨⟨failures, written⟩, hw⟩ : ∃ r, (m.returned f rest).writeBack
      (f.outbound.map fun o => (o, (m.returned f rest).readOutbound o)) = r := ⟨_, rfl⟩
  rw [leave_of_writeBack hf hraw hw]
  rw [← hreturned] at hw
  exact leave_of_writeBack (m := { m with registers }) hf hraw hw

theorem tornDown_leave (hf : m.frames = f :: rest) (hraw : f.raw = false) :
    m.TornDown f rest m.leave.2 where
  specs := specs_leave hf
  registers := by rw [registers_leave hf, if_neg (by simp [hraw])]
  frames := blank_frames_leave hf
  memory := blank_memory_leave hf
  pool := pool_leave hf

namespace Returning

def output (name : String) (index : UInt32) : Parameter := .scalar name index ⟨index, 0⟩ 8

def byte (area : Area) (k : UInt32) : Operand := .memory ⟨⟨area, ⟨k, 0⟩, 8⟩, false⟩

def call : CallSite where
  callee := ⟨.functionBlock, 1, "", 0, [output "a" 0, output "b" 1, output "c" 2]⟩
  raw := false
  instanceBlock := some 7
  nestedBase := none
  bindings := [⟨output "a" 0, byte .flag 1, .output⟩, ⟨output "b" 1, byte (.dataBlock 9) 1, .output⟩,
    ⟨output "c" 2, byte .flag 2, .output⟩]

def callee : Machine :=
  (ofSpecs ⟨0⟩ ⟨16, 4, 4, 4, 1, 1, 1⟩).run
    [.begin ⟨.organization, 1, "", 2, []⟩, .memory (.addBlock 7 3), .enter call,
      .storeParameter (output "a" 0) (.scalar 5), .setRegisters ⟨1, 2, 3⟩]

def frame : Frame := callee.frames.head (by decide +kernel)

def calling : Machine := callee.returned frame callee.frames.tail

def outbound (name : String) (index : UInt32) (actual : Operand) : Outbound :=
  ⟨output name index, actual, .instanceData 7 ⟨index, 0⟩, 8⟩

theorem disjoint_flag (m : Machine) {area : Area} {k : UInt32} (h : area = .dataBlock 9 ∨ area = .flag ∧ k = 2) :
    m.Disjoint (byte .flag 1) (byte area k) := by
  rintro ⟨home, i⟩ ⟨l, hl, hhome, hspans⟩ ⟨l', hl', hhome', hspans'⟩
  cases hl
  cases hl'
  obtain rfl | ⟨rfl, rfl⟩ := h
  · cases hhome.trans hhome'.symm
  · have hlt := ((Access.spans_of_bytes rfl).mp hspans).2
    have hle := ((Access.spans_of_bytes rfl).mp hspans').1
    exact absurd (Nat.lt_of_le_of_lt hle hlt) (by decide)

end Returning

end PlcMachine.Machine
