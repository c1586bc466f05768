import PlcMachine.Proofs.Machine.Entering
import PlcMachine.Proofs.Machine.Footprint
import PlcMachine.Proofs.Machine.Leaving

/-! # Controllers that agree

Two controllers agree if they differ only in their pools and in bits of local data that have not been
stored. They answer alike as long as no such bit is read, and agree again after each store.
-/

namespace PlcMachine

variable {stored : List (List Access)}

/-- The frames differ only in bits of their local data that have not been stored. -/
structure Frame.Agrees (as : List Access) (f g : Frame) : Prop where
  blank : f.blank = g.blank
  bits : ∀ i, Stored as i → f.stack.bytes.bitAt i = g.stack.bytes.bitAt i

inductive FramesAgree : List (List Access) → List Frame → List Frame → Prop where
  | nil : FramesAgree [] [] []
  | cons {as : List Access} {rest : List (List Access)} {f g : Frame} {fs gs : List Frame}
      (head : f.Agrees as g) (tail : FramesAgree rest fs gs) :
      FramesAgree (as :: rest) (f :: fs) (g :: gs)

namespace Frame.Agrees

variable {as : List Access} {f g : Frame}

theorem size_eq (h : f.Agrees as g) : f.stack.bytes.size = g.stack.bytes.size :=
  Frame.size_of_blank_eq h.blank

theorem read_eq (h : f.Agrees as g) {a : Access}
    (hknown : a.Within f.stack.bytes.size → ∀ k < a.width.toNat, Stored as (a.offset.index + k)) :
    f.stack.bytes.read a = g.stack.bytes.read a := by
  refine ByteStore.read_congr h.size_eq fun ha i hi => h.bits i ?_
  obtain ⟨k, rfl⟩ := Nat.exists_eq_add_of_le hi.1
  exact hknown ha k (Nat.lt_of_add_lt_add_left hi.2)

theorem written (h : f.Agrees as g) {a : Access} {v : Value} (ha : a.Within f.stack.bytes.size)
    (hv : v.Fits a.width) :
    (f.setBytes (f.stack.bytes.written a v)).Agrees (a :: as)
      (g.setBytes (g.stack.bytes.written a v)) := by
  have ha' : a.Within g.stack.bytes.size := h.size_eq ▸ ha
  constructor
  · rw [Frame.blank_setBytes (ByteStore.size_written ..), h.blank,
      Frame.blank_setBytes (ByteStore.size_written ..)]
  · rintro i ⟨a', ha₀, hi⟩
    by_cases hc : a.Covers i
    · exact ByteStore.bitAt_written_covered ha ha' hv hc
    · change (f.stack.bytes.written a v).bitAt i = (g.stack.bytes.written a v).bitAt i
      rw [ByteStore.bitAt_written ha hv hc, ByteStore.bitAt_written ha' hv hc]
      rcases List.mem_cons.mp ha₀ with rfl | hmem
      · exact absurd hi hc
      · exact h.bits i ⟨a', hmem, hi⟩

theorem of_blank_eq {f' g' : Frame} (h : f.Agrees as g) (hblank : f'.blank = g'.blank)
    (hf : f'.stack.bytes = f.stack.bytes) (hg : g'.stack.bytes = g.stack.bytes) : f'.Agrees as g' :=
  ⟨hblank, fun i hi => by rw [hf, hg, h.bits i hi]⟩

theorem rewind (h : f.Agrees as g) (c : Cursor) : (f.rewind c).Agrees as (g.rewind c) :=
  h.of_blank_eq (congrArg (Frame.rewind · c) h.blank) rfl rfl

end Frame.Agrees

namespace FramesAgree

variable {fs gs : List Frame}

theorem blank (h : FramesAgree stored fs gs) : fs.map Frame.blank = gs.map Frame.blank := by
  induction h with
  | nil => rfl
  | cons head _ ih => rw [List.map_cons, List.map_cons, head.blank, ih]

theorem eq_nil_or_cons (h : FramesAgree stored fs gs) :
    stored = [] ∧ fs = [] ∧ gs = [] ∨
      ∃ as rest f fs' g gs', stored = as :: rest ∧ fs = f :: fs' ∧ gs = g :: gs' ∧ f.Agrees as g ∧
        FramesAgree rest fs' gs' := by
  cases h with
  | nil => exact .inl ⟨rfl, rfl, rfl⟩
  | cons head tail => exact .inr ⟨_, _, _, _, _, _, rfl, rfl, rfl, head, tail⟩

theorem rewind (h : FramesAgree stored fs gs) (c : Cursor) :
    FramesAgree stored (fs.modifyHead (·.rewind c)) (gs.modifyHead (·.rewind c)) := by
  cases h with
  | nil => exact .nil
  | cons head tail => exact .cons (head.rewind c) tail

end FramesAgree

/-- The controllers differ only in their pools and in bits of local data that have not been stored. -/
structure Agree (stored : List (List Access)) (p q : Machine) : Prop where
  specs : p.specs = q.specs
  registers : p.registers = q.registers
  memory : p.memory = q.memory
  id : p.id = q.id
  frames : FramesAgree stored p.frames q.frames

inductive OutcomesAgree {ε : Type} (stored : List (List Access)) :
    Except ε Machine → Except ε Machine → Prop where
  | ok {p q : Machine} (h : Agree stored p q) : OutcomesAgree stored (.ok p) (.ok q)
  | error (e : ε) : OutcomesAgree stored (.error e) (.error e)

theorem OutcomesAgree.ok_or_error {ε : Type} {x y : Except ε Machine} (h : OutcomesAgree stored x y) :
    (∃ p q, x = .ok p ∧ y = .ok q ∧ Agree stored p q) ∨ ∃ e, x = .error e ∧ y = .error e := by
  cases h with
  | ok h => exact .inl ⟨_, _, rfl, rfl, h⟩
  | error e => exact .inr ⟨e, rfl, rfl⟩

namespace Agree

variable {p q : Machine}

theorem depth_eq (h : Agree stored p q) : p.depth = q.depth := by
  simpa [Machine.depth] using congrArg List.length h.frames.blank

theorem head_eq {α : Type} (h : Agree stored p q) (φ : Frame → α) (hφ : ∀ f, φ f.blank = φ f) :
    p.frames.head?.map φ = q.frames.head?.map φ := by
  have hblank := congrArg (fun fs => fs.head?.map φ) h.frames.blank
  simpa [Function.comp_def, hφ] using hblank

section Reading

theorem absolute_eq (h : Agree stored p q) (a : Access) : p.absolute a = q.absolute a := by
  unfold Machine.absolute
  rw [h.registers]

theorem readAccess_eq (h : Agree stored p q) {a : Access} (hknown : ∀ a' ∈ p.readsAt a, Known stored a') :
    p.readAccess a = q.readAccess a := by
  have hknown : ∀ v, p.readAccess a = .ok v → Known stored a := by
    intro v hv
    refine hknown a ?_
    simp [Machine.readsAt, hv]
  have hglobal : a.area.isFrameRelative = false → p.readAccess a = q.readAccess a := by
    intro ha
    rw [Machine.readAccess_global ha, Machine.readAccess_global ha, h.memory, h.absolute_eq]
  cases ha : a.area
  case localData =>
    obtain ⟨rfl, hp, hq⟩ | ⟨as, rest, f, fs, g, gs, rfl, hp, hq, head, -⟩ := h.frames.eq_nil_or_cons
    · simp [Machine.readAccess, ha, hp, hq]
    · rw [Machine.readAccess_localData hp ha] at hknown ⊢
      rw [Machine.readAccess_localData hq ha]
      refine head.read_eq fun hwithin => ?_
      exact hknown _ (ByteStore.read_eq_ok.mpr ⟨hwithin, rfl⟩) _ (by rw [ha]; rfl)
  case outerData =>
    obtain ⟨rfl, hp, hq⟩ | ⟨_, _, f₀, fs₀, g₀, gs₀, rfl, hp, hq, -, tail⟩ := h.frames.eq_nil_or_cons
    · simp [Machine.readAccess, ha, hp, hq]
    · obtain ⟨rfl, rfl, rfl⟩ | ⟨as, rest, f, fs, g, gs, rfl, rfl, rfl, head, -⟩ := tail.eq_nil_or_cons
      · simp [Machine.readAccess, ha, hp, hq]
      · rw [Machine.readAccess_outerData hp ha] at hknown ⊢
        rw [Machine.readAccess_outerData hq ha]
        refine head.read_eq fun hwithin => ?_
        exact hknown _ (ByteStore.read_eq_ok.mpr ⟨hwithin, rfl⟩) _ (by rw [ha]; rfl)
  all_goals exact hglobal (by rw [ha]; rfl)

theorem slot_eq (h : Agree stored p q) (i : UInt32) : p.slot i = q.slot i := by
  unfold Machine.slot
  obtain ⟨rfl, hp, hq⟩ | ⟨as, rest, f, fs, g, gs, rfl, hp, hq, head, -⟩ := h.frames.eq_nil_or_cons
  · rw [hp, hq]
  · have hslot : f.slot? i = g.slot? i := (congrArg (·.slot? i) head.blank :)
    rw [hp, hq, List.head?_cons, List.head?_cons, Option.bind_some, Option.bind_some, hslot]

theorem unslot_eq (h : Agree stored p q) (op : Operand) : p.unslot op = q.unslot op := by
  cases op with
  | slot i => exact h.slot_eq i
  | immediate _ _ _ | memory _ | block _ _ => rfl

theorem fetch_eq (h : Agree stored p q) {op : Operand} (hknown : ∀ a ∈ p.readsOf op, Known stored a) :
    p.fetch op = q.fetch op := by
  unfold Machine.readsOf at hknown
  unfold Machine.fetch
  rw [← h.unslot_eq]
  cases hop : p.unslot op with
  | error e => rfl
  | ok actual =>
    rw [hop] at hknown
    cases actual with
    | memory l => exact h.readAccess_eq hknown
    | immediate _ _ _ | block _ _ | slot _ => rfl

theorem resolve_eq (h : Agree stored p q) {op : Operand} (hknown : ∀ a ∈ p.readsOf op, Known stored a) :
    p.resolve op = q.resolve op := by
  unfold Machine.resolve
  rw [h.fetch_eq hknown]

theorem instanceAccess_eq (h : Agree stored p q) (param : Parameter) (width : UInt32) :
    p.instanceAccess param width = q.instanceAccess param width := by
  unfold Machine.instanceAccess
  rw [h.registers]

theorem parameterOperand_eq (h : Agree stored p q) (param : Parameter) :
    p.parameterOperand param = q.parameterOperand param := by
  unfold Machine.parameterOperand
  rw [h.instanceAccess_eq]

theorem follow_eq (h : Agree stored p q) {op : Operand} (hknown : ∀ a ∈ p.readsOf op, Known stored a)
    (width : UInt32) (compound : Bool) : p.follow op width compound = q.follow op width compound := by
  unfold Machine.follow
  rw [h.fetch_eq hknown]

theorem fetchParameter_eq (h : Agree stored p q) {param : Parameter}
    (hknown : ∀ a ∈ p.readsOf (p.parameterOperand param), Known stored a) :
    p.fetchParameter param = q.fetchParameter param := by
  unfold Machine.fetchParameter
  rw [h.fetch_eq hknown, h.parameterOperand_eq]

theorem followParameter_eq (h : Agree stored p q) {param : Parameter}
    (hknown : ∀ a ∈ p.readsOf (.memory ⟨p.instanceAccess param Pointer.width, false⟩), Known stored a) :
    p.followParameter param = q.followParameter param := by
  unfold Machine.followParameter
  rw [h.follow_eq hknown, h.instanceAccess_eq]

end Reading

section Writing

theorem writeAccess (h : Agree stored p q) (a : Access) (v : Value) :
    OutcomesAgree (note stored a) (p.writeAccess a v) (q.writeAccess a v) := by
  have hglobal : a.area.isFrameRelative = false →
      OutcomesAgree stored (p.writeAccess a v) (q.writeAccess a v) := by
    intro ha
    rw [Machine.writeAccess_eq_map ha, Machine.writeAccess_eq_map ha, h.memory, h.absolute_eq]
    cases q.memory.write (q.absolute a) v with
    | error e => exact .error e
    | ok memory => exact .ok ⟨h.specs, h.registers, rfl, h.id, h.frames⟩
  unfold note
  cases ha : a.area
  case localData =>
    obtain ⟨rfl, hp, hq⟩ | ⟨as, rest, f, fs, g, gs, rfl, hp, hq, head, tail⟩ := h.frames.eq_nil_or_cons
    · simpa [Machine.writeAccess, ha, hp, hq] using .error _
    · obtain ⟨e, hf, hg⟩ | ⟨hwithin, hfits, hf, hg⟩ := ByteStore.write_cases head.size_eq a v
      · simpa [Machine.writeAccess, LocalStack.write, ha, hp, hq, hf, hg] using .error e
      · rw [(Machine.writeAccess_localData hp ha).mpr ⟨_, hf, rfl⟩,
          (Machine.writeAccess_localData hq ha).mpr ⟨_, hg, rfl⟩]
        exact .ok ⟨h.specs, h.registers, h.memory, h.id, .cons (head.written hwithin hfits) tail⟩
  case outerData =>
    obtain ⟨rfl, hp, hq⟩ | ⟨as₀, _, f₀, fs₀, g₀, gs₀, rfl, hp, hq, first, tail⟩ :=
      h.frames.eq_nil_or_cons
    · simpa [Machine.writeAccess, ha, hp, hq] using .error _
    · obtain ⟨rfl, rfl, rfl⟩ | ⟨as, rest, f, fs, g, gs, rfl, rfl, rfl, head, tail⟩ :=
        tail.eq_nil_or_cons
      · simpa [Machine.writeAccess, ha, hp, hq] using .error _
      · obtain ⟨e, hf, hg⟩ | ⟨hwithin, hfits, hf, hg⟩ := ByteStore.write_cases head.size_eq a v
        · simpa [Machine.writeAccess, LocalStack.write, ha, hp, hq, hf, hg] using .error e
        · rw [(Machine.writeAccess_outerData hp ha).mpr ⟨_, hf, rfl⟩,
            (Machine.writeAccess_outerData hq ha).mpr ⟨_, hg, rfl⟩]
          exact .ok ⟨h.specs, h.registers, h.memory, h.id,
            .cons first (.cons (head.written hwithin hfits) tail)⟩
  all_goals exact hglobal (by rw [ha]; rfl)

theorem store (h : Agree stored p q) (op : Operand) (v : Value) :
    OutcomesAgree ((p.storesOf op).foldl note stored) (p.store op v) (q.store op v) := by
  unfold Machine.store Machine.storesOf
  rw [← h.unslot_eq]
  cases p.unslot op with
  | error e => exact .error e
  | ok actual =>
    cases actual with
    | memory l => exact h.writeAccess l.toAccess v
    | immediate _ _ _ | block _ _ => exact .error AccessError.constantStore
    | slot i => exact .error (AccessError.unboundSlot i)

theorem storeParameter (h : Agree stored p q) (param : Parameter) (v : Value) :
    OutcomesAgree ((p.storesOf (p.parameterOperand param)).foldl note stored) (p.storeParameter param v)
      (q.storeParameter param v) := by
  unfold Machine.storeParameter
  rw [← h.parameterOperand_eq]
  exact h.store _ v

theorem makeWrite (h : Agree stored p q) (w : StagedWrite) :
    OutcomesAgree (note stored w.access) (p.makeWrite w) (q.makeWrite w) := by
  cases w with
  | callerStack offset width value => exact h.writeAccess _ value
  | instanceData block offset width value =>
    unfold Machine.makeWrite
    dsimp only
    rw [h.memory]
    cases q.memory.write ⟨.dataBlock block, offset, width⟩ value with
    | error e => exact .error e
    | ok memory => exact .ok ⟨h.specs, h.registers, rfl, h.id, h.frames⟩

theorem makeWrites (h : Agree stored p q) (ws : List StagedWrite) :
    (p.makeWrites ws).1 = (q.makeWrites ws).1 ∧
      Agree ((p.storesOfWrites ws).foldl note stored) (p.makeWrites ws).2 (q.makeWrites ws).2 := by
  induction ws generalizing stored p q with
  | nil => exact ⟨rfl, h⟩
  | cons w ws ih =>
    unfold Machine.makeWrites Machine.storesOfWrites
    obtain ⟨p', q', hp, hq, h'⟩ | ⟨e, hp, hq⟩ := (h.makeWrite w).ok_or_error
    · rw [hp, hq]
      exact ih h'
    · rw [hp, hq]
      exact ⟨rfl, h⟩

theorem writeBack (h : Agree stored p q) (values : List (Outbound × Except AccessError Value)) :
    (p.writeBack values).1 = (q.writeBack values).1 ∧
      Agree ((p.storesOfOutputs values).foldl note stored) (p.writeBack values).2
        (q.writeBack values).2 := by
  induction values generalizing stored p q with
  | nil => exact ⟨rfl, h⟩
  | cons value values ih =>
    obtain ⟨o, r⟩ := value
    unfold Machine.writeBack Machine.storesOfOutputs
    cases r with
    | error e =>
      obtain ⟨hfailures, h'⟩ := ih h
      refine ⟨?_, h'⟩
      simp only [Except.bind, hfailures]
    | ok v =>
      obtain ⟨p', q', hp, hq, h'⟩ | ⟨e, hp, hq⟩ := (h.store o.actual v).ok_or_error
      · simp only [Except.bind, hp, hq, List.foldl_append]
        exact ih h'
      · obtain ⟨hfailures, h'⟩ := ih h
        simp only [Except.bind, hp, hq]
        refine ⟨?_, h'⟩
        simp only [hfailures]

end Writing

end Agree

end PlcMachine
