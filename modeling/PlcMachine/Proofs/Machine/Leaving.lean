import PlcMachine.Machine.Call
import PlcMachine.Proofs.Machine.Access

/-! # Leaving a block

Leaving a frame gives the caller its registers and its allocation cursor back. The outputs are written
as the caller sees them, so that they reach the contents of its local data, of its outer data and of
global memory only.
-/

namespace PlcMachine.Machine

variable {m m' : Machine} {f : Frame} {rest : List Frame}

theorem blank_of_store {op : Operand} {v : Value} (h : m.store op v = .ok m') :
    m'.blank = m.blank := by
  obtain ⟨a, hw⟩ := store_cases h
  exact blank_of_writeAccess hw

theorem drop_of_store {op : Operand} {v : Value} (h : m.store op v = .ok m') :
    m'.frames.drop 2 = m.frames.drop 2 := by
  obtain ⟨a, hw⟩ := store_cases h
  exact drop_of_writeAccess hw

theorem writeBack_keeps (m : Machine) (values : List (Outbound × Except AccessError Value)) :
    (m.writeBack values).2.blank = m.blank ∧
      (m.writeBack values).2.frames.drop 2 = m.frames.drop 2 := by
  induction values generalizing m with
  | nil => exact ⟨rfl, rfl⟩
  | cons value values ih =>
    obtain ⟨o, r⟩ := value
    unfold writeBack
    split
    · next m₁ hstore =>
      obtain ⟨v, -, hstore⟩ : ∃ v, r = .ok v ∧ m.store o.actual v = .ok m₁ := bind_eq_ok.mp hstore
      exact ⟨(ih m₁).1.trans (blank_of_store hstore), (ih m₁).2.trans (drop_of_store hstore)⟩
    · exact ih m

/-- The controller as the caller of a frame finds it when the frame is left. -/
def returned (m : Machine) (f : Frame) (rest : List Frame) : Machine :=
  { m with frames := rest, registers := if f.raw then m.registers else f.saved }

theorem returnOutputs_keeps (m : Machine) (f : Frame) (rest : List Frame) :
    (({ m with frames := rest } : Machine).returnOutputs f).2.blank = (m.returned f rest).blank ∧
      (({ m with frames := rest } : Machine).returnOutputs f).2.frames.drop 2 = rest.drop 2 := by
  unfold returnOutputs returned
  split_ifs
  · exact ⟨rfl, rfl⟩
  · exact writeBack_keeps _ _

theorem leave_eq (hf : m.frames = f :: rest) :
    ∃ (failures : List WriteBackFailure) (written : Machine),
      written.blank = (m.returned f rest).blank ∧ written.frames.drop 2 = rest.drop 2 ∧
        m.leave = (if failures = [] then .ok () else .error (.writeBackFailed f.block.label failures),
          written.discard f) := by
  obtain ⟨hblank, hdrop⟩ := m.returnOutputs_keeps f.beginExit rest
  refine ⟨(({ m with frames := rest } : Machine).returnOutputs f.beginExit).1,
    (({ m with frames := rest } : Machine).returnOutputs f.beginExit).2, hblank, hdrop, ?_⟩
  unfold leave
  rw [hf]

theorem leave_of_nil (hf : m.frames = []) : m.leave = (.error .emptyStack, m) := by
  unfold leave
  rw [hf]

theorem writeBack_of_unchanged {values : List (Outbound × Except AccessError Value)}
    (h : ∀ value ∈ values, value.2.bind (m.store value.1.actual) = .ok m) :
    m.writeBack values = ([], m) := by
  induction values with
  | nil => rfl
  | cons value values ih =>
    obtain ⟨hvalue, hvalues⟩ := List.forall_mem_cons.mp h
    rw [writeBack, hvalue]
    exact ih hvalues

theorem leave_of_unchanged (hf : m.frames = f :: rest)
    (h : ∀ o ∈ f.outbound, (({ m with frames := rest } : Machine).readOutbound o).bind
      ((m.returned f rest).store o.actual) = .ok (m.returned f rest)) :
    m.leave = (.ok (), (m.returned f rest).discard f) := by
  unfold leave returnOutputs
  unfold returned at h ⊢
  rw [hf]
  cases hraw : f.raw with
  | true => simp [Frame.beginExit, hraw, discard]
  | false =>
    simp only [hraw, Bool.false_eq_true, ↓reduceIte] at h
    simp only [Frame.beginExit, hraw, Bool.false_eq_true, ↓reduceIte]
    rw [writeBack_of_unchanged (by simpa using h)]
    rfl

theorem leave_of_outbound_nil (hf : m.frames = f :: rest) (ho : f.outbound = []) :
    m.leave = (.ok (), (m.returned f rest).discard f) :=
  leave_of_unchanged hf (by simp [ho])

theorem of_mem_writeBack {values : List (Outbound × Except AccessError Value)}
    {failure : WriteBackFailure} (h : failure ∈ (m.writeBack values).1) :
    ∃ value ∈ values, ∃ (m₁ : Machine) (e : AccessError), m₁.blank = m.blank ∧
      value.2.bind (m₁.store value.1.actual) = .error e ∧
      failure = ⟨value.1.parameter.name, value.1.actual, e⟩ := by
  induction values generalizing m with
  | nil => cases h
  | cons value values ih =>
    obtain ⟨o, r⟩ := value
    unfold writeBack at h
    split at h
    · next m₁ hstore =>
      obtain ⟨v, -, hstored⟩ : ∃ v, r = .ok v ∧ m.store o.actual v = .ok m₁ := bind_eq_ok.mp hstore
      obtain ⟨value, hvalue, m₂, e, hblank, herror, he⟩ := ih h
      exact ⟨value, List.mem_cons_of_mem _ hvalue, m₂, e, hblank.trans (blank_of_store hstored),
        herror, he⟩
    · next e herror =>
      rcases List.mem_cons.mp h with rfl | h
      · exact ⟨_, List.mem_cons_self, m, e, rfl, herror, rfl⟩
      · obtain ⟨value, hvalue, hfailed⟩ := ih h
        exact ⟨value, List.mem_cons_of_mem _ hvalue, hfailed⟩

theorem leave_failures (hf : m.frames = f :: rest) : ∃ failures : List WriteBackFailure,
    m.leave.1 = (if failures = [] then .ok () else .error (.writeBackFailed f.block.label failures)) ∧
    ∀ failure ∈ failures, ∃ o ∈ f.outbound, ∃ (m₁ : Machine) (e : AccessError),
      m₁.blank = (m.returned f rest).blank ∧
      (({ m with frames := rest } : Machine).readOutbound o).bind (m₁.store o.actual) = .error e ∧
      failure = ⟨o.parameter.name, o.actual, e⟩ := by
  refine ⟨(({ m with frames := rest } : Machine).returnOutputs f.beginExit).1, ?_, ?_⟩
  · unfold leave
    rw [hf]
  · intro failure hfailure
    unfold returnOutputs at hfailure
    unfold returned
    split_ifs at hfailure with hraw
    · cases hfailure
    · obtain ⟨value, hvalue, m₁, e, hblank, herror, he⟩ := of_mem_writeBack hfailure
      obtain ⟨o, ho, rfl⟩ := List.mem_map.mp hvalue
      refine ⟨o, ho, m₁, e, ?_, herror, he⟩
      rw [if_neg (by simpa [Frame.beginExit] using hraw)]
      exact hblank

theorem leave_of_outbound_singleton {o : Outbound} {v : Value} {written : Machine}
    (hf : m.frames = f :: rest) (hraw : f.raw = false) (ho : f.outbound = [o])
    (hread : ({ m with frames := rest } : Machine).readOutbound o = .ok v)
    (hstore : (m.returned f rest).store o.actual v = .ok written) :
    m.leave = (.ok (), written.discard f) := by
  have hreturned : m.returned f rest = { m with frames := rest, registers := f.saved } := by
    simp [returned, hraw]
  rw [hreturned] at hstore
  unfold leave returnOutputs
  rw [hf]
  simp only [Frame.beginExit, hraw, ho, List.map_cons, List.map_nil, hread, writeBack]
  rw [show (Except.ok v).bind (({ m with frames := rest, registers := f.saved } : Machine).store o.actual) =
      .ok written from hstore]
  rfl

theorem discard_eq (m : Machine) (f : Frame) : ∃ pool, m.discard f =
    { m with
      frames := m.frames.modifyHead fun g => g.rewind (f.callerMark.getD g.stack.cursor)
      pool } := by
  refine ⟨(m.discard f).pool, ?_⟩
  obtain ⟨specs, registers, frames, memory, pool⟩ := m
  unfold discard release setCursor
  cases f.callerMark <;> cases frames <;> rfl

theorem pool_discard (m : Machine) (f : Frame) :
    (m.discard f).pool = m.pool.release m.id f.stack := by
  obtain ⟨specs, registers, frames, memory, pool⟩ := m
  unfold discard release setCursor
  cases f.callerMark <;> cases frames <;> rfl

theorem readAccess_discard (m : Machine) (f : Frame) (a : Access) :
    (m.discard f).readAccess a = m.readAccess a := by
  obtain ⟨pool, h⟩ := m.discard_eq f
  rw [h]
  obtain ⟨area, offset, width⟩ := a
  obtain ⟨specs, registers, frames, memory, pool⟩ := m
  rcases frames with _ | ⟨g, _ | ⟨g', rest⟩⟩ <;> cases area <;> rfl

theorem readAccess_local_of_outer {offset : BitAddress} {width : UInt32} {v : Value}
    (hf : m.frames = f :: rest) (hm : m'.frames = rest)
    (h : m.readAccess ⟨.outerData, offset, width⟩ = .ok v) :
    m'.readAccess ⟨.localData, offset, width⟩ = .ok v := by
  cases rest with
  | nil => simp [readAccess, hf] at h
  | cons g rest =>
    rw [readAccess_outerData hf rfl] at h
    rw [readAccess_localData hm rfl]
    exact ByteStore.read_inArea h .localData

theorem readOutbound_registers (m : Machine) (registers : Registers) (o : Outbound) :
    ({ m with registers } : Machine).readOutbound o = m.readOutbound o := by
  obtain ⟨specs, registers', frames, memory, pool⟩ := m
  obtain ⟨p, actual, source, width⟩ := o
  cases source with
  | instanceData block offset => rfl
  | callerStack offset => cases frames <;> rfl

theorem Admits.readOutbound {o : Outbound} {v : Value} (hm : m.Admits m') (h : m.readOutbound o = .ok v) :
    ∃ v', m'.readOutbound o = .ok v' ∧ v'.Fits o.width ∧ v'.canonical = v' := by
  obtain ⟨p, actual, source, width⟩ := o
  unfold Machine.readOutbound at h ⊢
  cases source with
  | instanceData block offset =>
    obtain ⟨v', hv'⟩ := hm.memory.readable h
    exact ⟨v', hv', Memory.canonical_of_read hv'⟩
  | callerStack offset =>
    obtain ⟨v', hv'⟩ := hm.readable h
    exact ⟨v', hv', canonical_of_readAccess hv'⟩

theorem readAccess_outer_of_local {offset : BitAddress} {width : UInt32} {v : Value}
    (hf : m.frames = f :: rest) (hm : m'.frames = rest)
    (h : m'.readAccess ⟨.localData, offset, width⟩ = .ok v) :
    m.readAccess ⟨.outerData, offset, width⟩ = .ok v := by
  cases rest with
  | nil => simp [readAccess, hm] at h
  | cons g rest =>
    rw [readAccess_localData hm rfl] at h
    rw [readAccess_outerData hf rfl]
    exact ByteStore.read_inArea h .outerData

section

variable (hf : m.frames = f :: rest)
include hf

theorem leave_reply : m.leave.1 = .ok () ∨
    ∃ block failures, m.leave.1 = .error (.writeBackFailed block failures) := by
  obtain ⟨failures, written, -, -, hleave⟩ := leave_eq hf
  rw [hleave]
  dsimp only
  split_ifs
  · exact .inl rfl
  · exact .inr ⟨_, _, rfl⟩

theorem registers_leave : m.leave.2.registers = if f.raw then m.registers else f.saved := by
  obtain ⟨failures, written, hblank, -, hleave⟩ := leave_eq hf
  obtain ⟨pool, hdiscard⟩ := written.discard_eq f
  have hregisters : written.registers = (m.returned f rest).registers := registers_of_blank_eq hblank
  rw [hleave, hdiscard]
  exact hregisters

theorem specs_leave : m.leave.2.specs = m.specs := by
  obtain ⟨failures, written, hblank, -, hleave⟩ := leave_eq hf
  obtain ⟨pool, hdiscard⟩ := written.discard_eq f
  have hspecs : written.specs = (m.returned f rest).specs := specs_of_blank_eq hblank
  rw [hleave, hdiscard]
  exact hspecs

theorem pool_leave : m.leave.2.pool = m.pool.release m.id f.stack := by
  obtain ⟨failures, written, hblank, -, hleave⟩ := leave_eq hf
  have hpool : written.pool = (m.returned f rest).pool := pool_of_blank_eq hblank
  rw [hleave, pool_discard, id, hpool]
  rfl

theorem blank_memory_leave : m.leave.2.memory.blank = m.memory.blank := by
  obtain ⟨failures, written, hblank, -, hleave⟩ := leave_eq hf
  obtain ⟨pool, hdiscard⟩ := written.discard_eq f
  have hmemory : written.memory.blank = (m.returned f rest).memory.blank := memory_of_blank_eq hblank
  rw [hleave, hdiscard]
  exact hmemory

theorem blank_frames_leave : m.leave.2.frames.map Frame.blank =
    (rest.map Frame.blank).modifyHead fun g => g.rewind (f.callerMark.getD g.stack.cursor) := by
  obtain ⟨failures, written, hblank, -, hleave⟩ := leave_eq hf
  obtain ⟨pool, hdiscard⟩ := written.discard_eq f
  have hframes : written.frames.map Frame.blank = rest.map Frame.blank := frames_of_blank_eq hblank
  rw [hleave, hdiscard, ← hframes]
  cases written.frames <;> rfl

theorem drop_frames_leave : m.leave.2.frames.drop 2 = rest.drop 2 := by
  obtain ⟨failures, written, -, hdrop, hleave⟩ := leave_eq hf
  obtain ⟨pool, hdiscard⟩ := written.discard_eq f
  rw [hleave, hdiscard, ← hdrop]
  cases written.frames <;> rfl

end

end PlcMachine.Machine
