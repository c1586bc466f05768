import PlcMachine.Machine.Call
import PlcMachine.Proofs.Machine.Planning

/-! # Entering a block

Staged writes change contents only, and those to the caller's local data change only the bits that
they cover. From this follows what entering a block leaves behind, whether it succeeds or fails.
-/

namespace PlcMachine

namespace StagedWrite

def IsCopy : StagedWrite → Prop
  | .callerStack _ _ _ => True
  | .instanceData _ _ _ _ => False

theorem Fresh.isCopy {c c' : Cursor} {capacity : Nat} {w : StagedWrite} (h : w.Fresh c c' capacity) :
    w.IsCopy := by
  cases w with
  | callerStack _ _ _ => trivial
  | instanceData _ _ _ _ => exact h.elim

end StagedWrite

namespace Machine

section Writes

variable {m m' : Machine} {w : StagedWrite} {ws : List StagedWrite} {e : AccessError}

theorem blank_of_makeWrite (h : m.makeWrite w = .ok m') : m'.blank = m.blank := by
  cases w with
  | callerStack offset width value => exact blank_of_writeAccess h
  | instanceData block offset width value =>
    obtain ⟨memory, hw, hr⟩ := bind_eq_ok.mp h
    cases pure_eq_ok.mp hr
    simp [blank, Memory.blank_of_write hw]

theorem blank_makeWrites (m : Machine) (ws : List StagedWrite) :
    (m.makeWrites ws).2.blank = m.blank := by
  induction ws generalizing m with
  | nil => rfl
  | cons w ws ih =>
    unfold makeWrites
    split
    · next m₁ hw => exact (ih m₁).trans (blank_of_makeWrite hw)
    · rfl

theorem blank_of_makeWrites {failure : Option AccessError} (h : m.makeWrites ws = (failure, m')) :
    m'.blank = m.blank := by
  have hb := m.blank_makeWrites ws
  rwa [h] at hb

theorem writeAccess_pool (m : Machine) (pool : Pool) (a : Access) (v : Value) :
    ({ m with pool } : Machine).writeAccess a v = (m.writeAccess a v).map ({ · with pool }) := by
  unfold writeAccess
  dsimp only
  split
  all_goals try rfl
  · next f _ _ _ => cases f.stack.write a v <;> rfl
  · next f _ _ _ => cases f.stack.write a v <;> rfl
  · cases m.memory.write _ v <;> rfl
  · cases m.memory.write a v <;> rfl

theorem makeWrite_pool (m : Machine) (pool : Pool) (w : StagedWrite) :
    ({ m with pool } : Machine).makeWrite w = (m.makeWrite w).map ({ · with pool }) := by
  cases w with
  | callerStack offset width value => exact writeAccess_pool m pool _ value
  | instanceData block offset width value =>
    unfold makeWrite
    dsimp only
    cases m.memory.write ⟨.dataBlock block, offset, width⟩ value <;> rfl

theorem makeWrites_pool (m : Machine) (pool : Pool) (ws : List StagedWrite) :
    ({ m with pool } : Machine).makeWrites ws =
      ((m.makeWrites ws).1, { (m.makeWrites ws).2 with pool }) := by
  induction ws generalizing m with
  | nil => rfl
  | cons w ws ih =>
    unfold makeWrites
    rw [makeWrite_pool]
    cases m.makeWrite w with
    | ok m₁ => exact ih m₁
    | error e => rfl

theorem makeWrite_copy {offset : BitAddress} {width : UInt32} {value : Value}
    (h : m.makeWrite (.callerStack offset width value) = .ok m') :
    ∃ f rest bytes, m.frames = f :: rest ∧
      f.stack.bytes.write ⟨.localData, offset, width⟩ value = .ok bytes ∧
      m' = { m with frames := f.setBytes bytes :: rest } := by
  obtain ⟨f, rest, bytes, hf, -, hw, rfl⟩ | ⟨_, _, _, _, _, ha, _⟩ | ⟨_, ha, _⟩ := writeAccess_cases h
  · exact ⟨f, rest, bytes, hf, hw, rfl⟩
  · cases ha
  · cases ha

theorem drop_of_makeWrite (h : m.makeWrite w = .ok m') : m'.frames.drop 1 = m.frames.drop 1 := by
  cases w with
  | callerStack offset width value =>
    obtain ⟨f, rest, bytes, hf, -, rfl⟩ := makeWrite_copy h
    rw [hf]
    rfl
  | instanceData block offset width value =>
    obtain ⟨memory, -, hr⟩ := bind_eq_ok.mp h
    cases pure_eq_ok.mp hr
    rfl

theorem drop_makeWrites (m : Machine) (ws : List StagedWrite) :
    (m.makeWrites ws).2.frames.drop 1 = m.frames.drop 1 := by
  induction ws generalizing m with
  | nil => rfl
  | cons w ws ih =>
    unfold makeWrites
    split
    · next m₁ hw => exact (ih m₁).trans (drop_of_makeWrite hw)
    · rfl

theorem makeWrite_of_mem (h : m.makeWrites ws = (none, m')) (hw : w ∈ ws) :
    ∃ m₁ m₂ : Machine, m₁.blank = m.blank ∧ m₁.makeWrite w = .ok m₂ := by
  induction ws generalizing m with
  | nil => cases hw
  | cons w' ws ih =>
    unfold makeWrites at h
    split at h
    · next m₁ hmake =>
      rcases List.mem_cons.mp hw with rfl | hw
      · exact ⟨m, m₁, rfl, hmake⟩
      · obtain ⟨m₂, m₃, hblank, hmake'⟩ := ih h hw
        exact ⟨m₂, m₃, hblank.trans (blank_of_makeWrite hmake), hmake'⟩
    · cases h

theorem setBytes_self {f : Frame} {rest : List Frame} (hf : m.frames = f :: rest) :
    m = { m with frames := f.setBytes f.stack.bytes :: rest } := by
  change m = { m with frames := f :: rest }
  rw [← hf]

theorem memory_makeWrites (hws : ∀ w ∈ ws, w.IsCopy) : (m.makeWrites ws).2.memory = m.memory := by
  induction ws generalizing m with
  | nil => rfl
  | cons w ws ih =>
    obtain ⟨hw, hcopies⟩ := List.forall_mem_cons.mp hws
    unfold makeWrites
    split
    · next m₁ hmake =>
      refine (ih hcopies).trans ?_
      cases w with
      | instanceData _ _ _ _ => exact hw.elim
      | callerStack offset width value =>
        obtain ⟨f, rest, bytes, -, -, rfl⟩ := makeWrite_copy hmake
        rfl
    · rfl

/-- Copies change the contents of the caller's local data where they go, and nothing else. -/
theorem makeWrites_copies {f : Frame} {rest : List Frame} (hf : m.frames = f :: rest)
    (hws : ∀ w ∈ ws, w.IsCopy) :
    ∃ bytes, (m.makeWrites ws).2 = { m with frames := f.setBytes bytes :: rest } ∧
      bytes.size = f.stack.bytes.size ∧
      ∀ i, (∀ w ∈ ws, ¬ w.Covers i) → bytes.bitAt i = f.stack.bytes.bitAt i := by
  induction ws generalizing m f with
  | nil => exact ⟨f.stack.bytes, setBytes_self hf, rfl, fun _ _ => rfl⟩
  | cons w ws ih =>
    obtain ⟨hw, hcopies⟩ := List.forall_mem_cons.mp hws
    cases w with
    | instanceData _ _ _ _ => exact hw.elim
    | callerStack offset width value =>
      unfold makeWrites
      split
      · next m₁ hmake =>
        obtain ⟨bytes, hwrite, rfl⟩ := (writeAccess_localData hf rfl).mp hmake
        obtain ⟨bytes', hb, hsize, hbits⟩ :=
          ih (m := { m with frames := f.setBytes bytes :: rest }) rfl hcopies
        refine ⟨bytes', hb, hsize.trans (ByteStore.size_write hwrite), ?_⟩
        intro i hi
        obtain ⟨hi₀, hi⟩ := List.forall_mem_cons.mp hi
        exact (hbits i hi).trans (ByteStore.bitAt_of_write hwrite hi₀)
      · exact ⟨f.stack.bytes, setBytes_self hf, rfl, fun _ _ => rfl⟩

theorem readAccess_of_makeWrites {offset : BitAddress} {width : UInt32} {value : Value}
    (h : m.makeWrites ws = (none, m')) (hws : ∀ w ∈ ws, w.IsCopy)
    (hapart : ws.Pairwise StagedWrite.Apart) (hmem : .callerStack offset width value ∈ ws) :
    m'.readAccess ⟨.localData, offset, width⟩ = .ok value.canonical := by
  induction ws generalizing m with
  | nil => cases hmem
  | cons w ws ih =>
    obtain ⟨-, hcopies⟩ := List.forall_mem_cons.mp hws
    obtain ⟨hw, hapart⟩ := List.pairwise_cons.mp hapart
    unfold makeWrites at h
    split at h
    · next m₁ hmake =>
      rcases List.mem_cons.mp hmem with rfl | hmem
      · have hread : m₁.readAccess ⟨.localData, offset, width⟩ = .ok value.canonical :=
          readAccess_of_writeAccess hmake
        obtain ⟨f, rest, bytes, -, -, rfl⟩ := makeWrite_copy hmake
        obtain ⟨bytes', hb, hsize, hbits⟩ := makeWrites_copies
          (m := { m with frames := f.setBytes bytes :: rest }) rfl hcopies
        rw [h] at hb
        dsimp only at hb
        rw [hb, readAccess_localData rfl rfl, ← hread, readAccess_localData rfl rfl]
        exact ByteStore.read_congr hsize fun _ i hi => hbits i fun w' hw' => hw w' hw' i hi
      · exact ih h hcopies hapart hmem
    · cases h

end Writes

variable {m m' : Machine} {site : CallSite} {d : Option InstanceData} {stack : LocalStack}
  {plan : Plan} {written : Machine}

/-- A call that gets as far as its staged writes: the instance it works on, the local stack that the
block gets and the plan that is carried out. -/
structure Prepares (m : Machine) (site : CallSite) (d : Option InstanceData) (stack : LocalStack)
    (plan : Plan) : Prop where
  depth_lt : m.depth < m.specs.maxCallDepth.toNat
  instanceData : m.instanceFor site = .ok d
  ready : (m.pool.acquire m.id).1.reset m.specs.localBytes site.callee.tempBytes = .ok stack
  planned : m.plan (site.point m) site d = .ok plan

/-- A call that enters its block, with the controller once the staged writes are made. -/
structure Enters (m : Machine) (site : CallSite) (d : Option InstanceData) (stack : LocalStack)
    (plan : Plan) (written m' : Machine) : Prop extends m.Prepares site d stack plan where
  made : m.makeWrites plan.writes = (none, written)
  machine : m' =
    { written.setCursor plan.cursor with
      registers := m.calleeRegisters site d plan
      frames := m.newFrame site d plan stack :: (written.setCursor plan.cursor).frames
      pool := (m.pool.acquire m.id).2 }

theorem setCursor_eq (m : Machine) (c : Cursor) : m.setCursor c =
    { m with frames := m.frames.modifyHead (·.rewind c) } := by
  obtain ⟨specs, registers, frames, memory, pool⟩ := m
  unfold setCursor
  cases frames <;> rfl

theorem setCursor_pool (m : Machine) (pool : Pool) (c : Cursor) :
    ({ m with pool } : Machine).setCursor c = { m.setCursor c with pool } := by
  rw [setCursor_eq, setCursor_eq]

theorem plan_pool (m : Machine) (pool : Pool) (point : CallPoint) (site : CallSite)
    (d : Option InstanceData) :
    ({ m with pool } : Machine).plan point site d = m.plan point site d := rfl

theorem point_pool (m : Machine) (pool : Pool) (site : CallSite) :
    site.point { m with pool } = site.point m := rfl

theorem Prepares.enter (h : m.Prepares site d stack plan) : ∃ pool, m.enter site =
    match m.makeWrites plan.writes with
    | (some e, written) => (.error (.access (site.point m) none e), { written with pool })
    | (none, written) =>
      (.ok (), { written.setCursor plan.cursor with
        registers := m.calleeRegisters site d plan
        frames := m.newFrame site d plan stack :: (written.setCursor plan.cursor).frames
        pool := (m.pool.acquire m.id).2 }) := by
  unfold Machine.enter
  rw [if_neg (Nat.not_le.mpr h.depth_lt), h.instanceData]
  dsimp only
  unfold enterOn
  dsimp only
  rw [h.ready]
  dsimp only
  rw [point_pool, plan_pool, h.planned]
  dsimp only
  unfold commit
  rw [point_pool, makeWrites_pool]
  cases m.makeWrites plan.writes with
  | mk failure written =>
    cases failure with
    | some e => exact ⟨_, rfl⟩
    | none =>
      refine ⟨m.pool, ?_⟩
      dsimp only
      rw [setCursor_pool]
      rfl

/-- The three ways in which entering a block can end. A failure keeps everything but the pool, unless
it is that of a staged write. -/
theorem enter_cases (m : Machine) (site : CallSite) :
    (∃ d stack plan written m', m.enter site = (.ok (), m') ∧ m.Enters site d stack plan written m') ∨
      (∃ e pool, m.enter site = (.error e, { m with pool })) ∨
        ∃ d stack plan e written pool, m.Prepares site d stack plan ∧
          m.makeWrites plan.writes = (some e, written) ∧
          m.enter site = (.error (.access (site.point m) none e), { written with pool }) := by
  by_cases hprep : ∃ d stack plan, m.Prepares site d stack plan
  · obtain ⟨d, stack, plan, hprep⟩ := hprep
    obtain ⟨pool, henter⟩ := hprep.enter
    cases hw : m.makeWrites plan.writes with
    | mk failure written =>
      rw [hw] at henter
      cases failure with
      | some e => exact .inr (.inr ⟨d, stack, plan, e, written, pool, hprep, hw, henter⟩)
      | none => exact .inl ⟨d, stack, plan, written, _, henter, ⟨hprep, hw, rfl⟩⟩
  · refine .inr (.inl ?_)
    unfold enter
    split_ifs with hdepth
    · exact ⟨_, m.pool, rfl⟩
    · cases hinst : m.instanceFor site with
      | error e => exact ⟨e, m.pool, rfl⟩
      | ok d =>
        dsimp only
        unfold enterOn
        dsimp only
        cases hready : (m.pool.acquire m.id).1.reset m.specs.localBytes site.callee.tempBytes with
        | error e => exact ⟨_, _, rfl⟩
        | ok stack =>
          dsimp only
          rw [point_pool, plan_pool]
          cases hplan : m.plan (site.point m) site d with
          | error e => exact ⟨e, _, rfl⟩
          | ok plan => exact absurd ⟨d, stack, plan, by omega, hinst, hready, hplan⟩ hprep

theorem enters_of_ok (h : m.enter site = (.ok (), m')) :
    ∃ d stack plan written, m.Enters site d stack plan written m' := by
  obtain ⟨d, stack, plan, written, m₁, he, hm⟩ | ⟨e, pool, he⟩ |
    ⟨_, _, _, e, written, pool, -, -, he⟩ := m.enter_cases site
  · cases he.symm.trans h
    exact ⟨d, stack, plan, written, hm⟩
  · cases he.symm.trans h
  · cases he.symm.trans h

theorem isNone_of_instanceFor (h : m.instanceFor site = .ok d) :
    d.isNone = !site.callee.isStateful := by
  unfold instanceFor at h
  by_cases hs : site.callee.isStateful = true
  · rw [if_neg (not_not_intro hs)] at h
    have hsome : d.isSome = true := by
      split at h
      · cases h
        rfl
      · split at h
        · cases h
        · split_ifs at h
          cases h
          rfl
    rw [hs, ← Option.not_isSome, hsome]
  · rw [if_pos hs] at h
    cases h
    simp [hs]

theorem instanceFor_stateless (h : site.callee.isStateful = false) :
    m.instanceFor site = .ok none := by
  unfold instanceFor
  rw [if_pos (by simp [h])]

namespace Enters

variable (h : m.Enters site d stack plan written m')
include h

theorem frames : m'.frames =
    m.newFrame site d plan stack :: written.frames.modifyHead (·.rewind plan.cursor) := by
  rw [h.machine, setCursor_eq]

theorem blank_written : written.blank = m.blank := blank_of_makeWrites h.made

theorem drop_written : written.frames.drop 1 = m.frames.drop 1 := by
  have hd := m.drop_makeWrites plan.writes
  rwa [h.made] at hd

theorem blank_memory : m'.memory.blank = m.memory.blank := by
  have hwritten := memory_of_blank_eq h.blank_written
  rw [h.machine, setCursor_eq]
  exact hwritten

theorem depth_eq : m'.depth = m.depth + 1 := by
  have hlen := congrArg List.length (frames_of_blank_eq h.blank_written)
  rw [List.length_map, List.length_map] at hlen
  unfold depth
  rw [h.frames, ← hlen]
  cases written.frames <;> rfl

theorem readAccess_outer {offset : BitAddress} {width : UInt32} {v : Value}
    (hv : written.readAccess ⟨.localData, offset, width⟩ = .ok v) :
    m'.readAccess ⟨.outerData, offset, width⟩ = .ok v := by
  cases hf : written.frames with
  | nil =>
    simp [readAccess, hf] at hv
  | cons f rest =>
    rw [readAccess_localData hf rfl] at hv
    have hframes := h.frames
    rw [hf] at hframes
    rw [readAccess_outerData hframes rfl]
    exact ByteStore.read_inArea hv .outerData

omit h in
theorem instanceData_eq_none (h : m.Enters site d stack plan written m')
    (hs : site.callee.isStateful = false) : d = none :=
  Except.ok.inj (h.instanceData.symm.trans (instanceFor_stateless hs))

section Stateless

variable (hm : m.Allocates) (hs : site.callee.isStateful = false)
include hm hs

theorem plan_extends : (Plan.empty m.start).Extends m.reserved m.room plan := by
  obtain rfl := h.instanceData_eq_none hs
  exact plan_stateless h.planned hm

theorem fresh : plan.writes.Pairwise StagedWrite.Apart ∧
    ∀ w ∈ plan.writes, w.Fresh m.start plan.cursor m.room := by
  obtain ⟨ws, hws, hapart, hfresh⟩ := (h.plan_extends hm hs).writes
  rw [Plan.empty, List.nil_append] at hws
  rw [hws]
  exact ⟨hapart, hfresh⟩

theorem isCopy : ∀ w ∈ plan.writes, w.IsCopy := fun w hw => ((h.fresh hm hs).2 w hw).isCopy

theorem memory_stateless : m'.memory = m.memory := by
  have hmem := memory_makeWrites (m := m) (h.isCopy hm hs)
  rw [h.made] at hmem
  rw [h.machine, setCursor_eq]
  exact hmem

theorem bits {f : Frame} {rest : List Frame} (hf : m.frames = f :: rest) :
    ∃ bytes, written.frames = f.setBytes bytes :: rest ∧ bytes.size = f.stack.bytes.size ∧
      ∀ i, ¬ m.start.Free i → bytes.bitAt i = f.stack.bytes.bitAt i := by
  obtain ⟨bytes, hw, hsize, hbits⟩ := makeWrites_copies hf (h.isCopy hm hs)
  rw [h.made] at hw
  dsimp only at hw
  refine ⟨bytes, by rw [hw], hsize, ?_⟩
  intro i hi
  exact hbits i fun w hw hc => hi (((h.fresh hm hs).2 w hw).free hc)

theorem readAccess_reserved {l : Access} {v : Value} (hv : m.readAccess l = .ok v)
    (ha : l.area = .localData) (hl : l.byteEnd ≤ m.reserved) :
    m'.readAccess { l with area := .outerData } = .ok v := by
  obtain ⟨area, offset, width⟩ := l
  obtain rfl : area = .localData := ha
  apply h.readAccess_outer
  cases hf : m.frames with
  | nil => simp [readAccess, hf] at hv
  | cons f rest =>
    obtain ⟨bytes, hwritten, hsize, hbits⟩ := h.bits hm hs hf
    rw [readAccess_localData hf rfl] at hv
    rw [readAccess_localData hwritten rfl, ← hv]
    refine ByteStore.read_congr hsize fun _ i hi => hbits i (hm.within.not_free ?_)
    have hwithin := (ByteStore.read_eq_ok.mp hv).1
    exact Access.Within.covers_lt ⟨hwithin.width, hwithin.aligned, hl⟩ hi

theorem readAccess_copied {offset : BitAddress} {width : UInt32} {value : Value}
    (hmem : .callerStack offset width value ∈ plan.writes) :
    m'.readAccess ⟨.outerData, offset, width⟩ = .ok value.canonical := by
  obtain ⟨hapart, -⟩ := h.fresh hm hs
  exact h.readAccess_outer (readAccess_of_makeWrites h.made (h.isCopy hm hs) hapart hmem)

theorem delivered {b : Binding} {p : Parameter} (hraw : site.raw = false) (hb : b ∈ site.bindings)
    (hp : site.callee.parameter? b.parameter.name = some p) :
    ∃ cursor actual δ, m.unslot b.actual = .ok actual ∧
      Planning.Delivers m { b with parameter := p } cursor actual δ ∧
      m'.slot p.index = .ok δ.operand ∧ δ.writes ⊆ plan.writes ∧
      ((∀ b' ∈ site.bindings, b' ≠ b → b'.direction = .input) → plan.outbound = δ.outbound) := by
  obtain rfl := h.instanceData_eq_none hs
  obtain ⟨before, actual, δ, -, hactual, hδ, hext, hlookup, hout⟩ :=
    plan_delivers h.planned hm hraw hb hp
  refine ⟨before.cursor, actual, δ, forwarded_eq_ok.mp hactual, hδ, ?_, ?_, hout⟩
  · unfold slot
    rw [h.frames]
    simp [Frame.slot?, newFrame, hraw, hlookup]
  · intro w hw
    obtain ⟨ws, hws, -⟩ := hext.writes
    rw [hws]
    exact List.mem_append_left _ (List.mem_append_right _ hw)

/-- What a stateless block finds in a formal parameter. -/
theorem delivers {b : Binding} {p : Parameter} (hraw : site.raw = false) (hb : b ∈ site.bindings)
    (hp : site.callee.parameter? b.parameter.name = some p) :
    ∃ cursor actual δ, m.unslot b.actual = .ok actual ∧
      Planning.Delivers m { b with parameter := p } cursor actual δ ∧
      m'.slot p.index = .ok δ.operand ∧
      (∀ offset width v, .callerStack offset width v ∈ δ.writes →
        m'.readAccess ⟨.outerData, offset, width⟩ = .ok v.canonical) ∧
      ((∀ b' ∈ site.bindings, b' ≠ b → b'.direction = .input) → plan.outbound = δ.outbound) := by
  obtain ⟨cursor, actual, δ, hactual, hδ, hslot, hwrites, hout⟩ := h.delivered hm hs hraw hb hp
  exact ⟨cursor, actual, δ, hactual, hδ, hslot,
    fun _ _ _ hmem => h.readAccess_copied hm hs (hwrites hmem), hout⟩

end Stateless

end Enters

end Machine

end PlcMachine
