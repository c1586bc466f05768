import PlcMachine.Proofs.LocalStack.Cursor
import PlcMachine.Proofs.Machine.Access
import PlcMachine.Proofs.Machine.Bindings

/-! # What a stateless block gets for an actual

Planning one parameter of a stateless block appends to the plan an operand and at most two copies.
The copies take room of the caller's local data that was free, so that none of them overlaps another.
-/

namespace PlcMachine

namespace Access

theorem validWidth_of_width {width : UInt32}
    (h : width = 1 ∨ width ≠ 0 ∧ width.toNat % 8 = 0) (area : Area) (offset : BitAddress) :
    ValidWidth ⟨area, offset, width⟩ := h

end Access

namespace Location

/-- A slot of the caller's local data, as the callee names it. -/
def callerSlot (offset : BitAddress) (width : UInt32) : Location :=
  ⟨⟨.outerData, offset, width⟩, false⟩

/-- The location is one that a formal parameter can stand for: simple outer data, or an area that
every frame sees alike and no register selects. -/
def Bindable (l : Location) : Prop :=
  match l.area with
  | .outerData => l.compound = false
  | .localData | .dataBlock _ | .instanceData => False
  | _ => True

theorem bindable_callerSlot (offset : BitAddress) (width : UInt32) :
    (callerSlot offset width).Bindable := rfl

theorem bindable_of_direct {l : Location} (h : l.passing = .direct) :
    l.Bindable ∧ l.area.isFrameRelative = false ∧ l.area ≠ .instanceData := by
  obtain ⟨⟨area, offset, width⟩, compound⟩ := l
  cases area <;> cases compound <;>
    simp_all [Location.passing, Location.Bindable, Area.isFrameRelative]

theorem local_of_alias {l l' : Location} (h : l.passing = .alias l') :
    l' = l.inArea .outerData ∧ l.area = .localData ∧ l.compound = false := by
  obtain ⟨⟨area, offset, width⟩, compound⟩ := l
  cases area <;> cases compound <;> simp_all [Location.passing]

theorem compound_of_pointer {l l' : Location} (h : l.passing = .pointer l') : l.compound = true := by
  obtain ⟨⟨area, offset, width⟩, compound⟩ := l
  cases area <;> cases compound <;> simp_all [Location.passing]

theorem passing_ne_pointerToCopy (l : Location) : l.passing ≠ .pointerToCopy := by
  obtain ⟨⟨area, offset, width⟩, compound⟩ := l
  cases area <;> cases compound <;> simp [Location.passing]

/-- The location is a structure, array or string in local data or in a data block. -/
def IsPassedByPointer (l : Location) : Prop :=
  l.compound = true ∧
    match l.area with
    | .localData | .dataBlock _ | .instanceData => True
    | _ => False

theorem passing_of_isPassedByPointer {l : Location} (h : l.IsPassedByPointer) :
    l.passing = .pointer l := by
  obtain ⟨⟨area, offset, width⟩, compound⟩ := l
  cases area <;> simp_all [IsPassedByPointer, Location.passing]

theorem passing_ne_pointer {l : Location} (h : ¬ l.IsPassedByPointer) (l' : Location) :
    l.passing ≠ .pointer l' := by
  obtain ⟨⟨area, offset, width⟩, compound⟩ := l
  cases area <;> cases compound <;> simp_all [IsPassedByPointer, Location.passing]

theorem Bindable.passing {l : Location} (h : l.Bindable) :
    l.passing = .direct ∧ l.area.isFrameRelative = false ∧ l.area ≠ .instanceData ∨
      l.passing = .copy ∧ l.area = .outerData := by
  obtain ⟨⟨area, offset, width⟩, compound⟩ := l
  cases area <;> cases compound <;>
    simp_all [Location.Bindable, Location.passing, Area.isFrameRelative]

end Location

theorem Pointer.fits_toValue (p : Pointer) : p.toValue.Fits Pointer.width := by
  change 8 * p.encode.length = Pointer.width.toNat
  rw [Pointer.encode, List.length_append, BigEndian.length_encode, BigEndian.length_encode]
  rfl

namespace Operand

def Bindable : Operand → Prop
  | .memory l => l.Bindable
  | .block _ _ => True
  | .immediate _ _ _ | .slot _ => False

/-- A stateless block gets a pointer for the operand, to a copy if it is a constant. -/
def IsPassedByPointer : Operand → Prop
  | .immediate _ _ compound => compound = true
  | .memory l => l.IsPassedByPointer
  | .block _ _ | .slot _ => False

/-- The shared data block that a simple operand is in. -/
def sharedBlock? : Operand → Option UInt16
  | .memory ⟨⟨.dataBlock number, _, _⟩, false⟩ => some number
  | _ => none

theorem bindable_of_direct {op : Operand} (h : op.passing = .direct) : op.Bindable := by
  cases op with
  | block _ _ => trivial
  | immediate _ _ c => cases c <;> cases h
  | slot _ => cases h
  | memory l => exact (Location.bindable_of_direct h).1

end Operand

namespace Machine

def room (m : Machine) : Nat := (m.frames.head?.map (·.stack.capacity)).getD 0

def reserved (m : Machine) : Nat := (m.frames.head?.map (·.block.tempBytes.toNat)).getD 0

def start (m : Machine) : Cursor := m.mark.getD ⟨0, none⟩

theorem room_blank (m : Machine) : m.blank.room = m.room := by
  obtain ⟨specs, registers, frames, memory, pool⟩ := m
  cases frames with
  | nil => rfl
  | cons f rest => exact ByteStore.size_blank _

theorem room_of_blank_eq {m m' : Machine} (h : m'.blank = m.blank) : m'.room = m.room := by
  rw [← room_blank, h, room_blank]

theorem fetch_of_unslot_of_ne {m : Machine} {op actual : Operand} (h : m.unslot op = .ok actual)
    (ha : ∀ i, actual ≠ .slot i) : m.fetch op = m.fetch actual := by
  have hself : m.unslot actual = .ok actual := by
    cases actual with
    | slot i => exact absurd rfl (ha i)
    | immediate _ _ _ | memory _ | block _ _ => rfl
  unfold fetch
  rw [h, hself]

theorem fetch_of_unslot {m : Machine} {op actual : Operand} (h : m.unslot op = .ok actual)
    (ha : actual.Bindable) : m.fetch op = m.fetch actual := by
  refine fetch_of_unslot_of_ne h ?_
  rintro i rfl
  exact ha.elim

end Machine

namespace StagedWrite

def access : StagedWrite → Access
  | .callerStack offset width _ => ⟨.localData, offset, width⟩
  | .instanceData block offset width _ => ⟨.dataBlock block, offset, width⟩

def Covers : StagedWrite → Nat → Prop
  | .callerStack offset width _, i => Access.Covers ⟨.localData, offset, width⟩ i
  | .instanceData _ _ _ _, _ => False

def Apart (w w' : StagedWrite) : Prop := ∀ i, w.Covers i → ¬ w'.Covers i

/-- The write puts a value that fits into room handed out between two cursors. -/
def Fresh (c c' : Cursor) (capacity : Nat) : StagedWrite → Prop
  | .callerStack offset width value =>
    value.Fits width ∧ c.Gives c' capacity ⟨.localData, offset, width⟩
  | .instanceData _ _ _ _ => False

theorem Fresh.widen {c₀ c c' c₁ : Cursor} {capacity : Nat} {w : StagedWrite}
    (h : w.Fresh c c' capacity) (h₀ : c₀.Behind c) (h₁ : c'.Behind c₁) :
    w.Fresh c₀ c₁ capacity := by
  cases w with
  | callerStack offset width value => exact ⟨h.1, h.2.widen h₀ h₁⟩
  | instanceData _ _ _ _ => exact h

theorem Fresh.free {c c' : Cursor} {capacity i : Nat} {w : StagedWrite} (h : w.Fresh c c' capacity)
    (hi : w.Covers i) : c.Free i := by
  cases w with
  | callerStack offset width value => exact h.2.free i hi
  | instanceData _ _ _ _ => exact h.elim

theorem Fresh.taken {c c' : Cursor} {capacity i : Nat} {w : StagedWrite} (h : w.Fresh c c' capacity)
    (hi : w.Covers i) : ¬ c'.Free i := by
  cases w with
  | callerStack offset width value => exact h.2.taken i hi
  | instanceData _ _ _ _ => exact h.elim

theorem Fresh.apart {c c' d d' : Cursor} {capacity : Nat} {w w' : StagedWrite}
    (h : w.Fresh c c' capacity) (h' : w'.Fresh d d' capacity) (hd : c'.Behind d) : w.Apart w' :=
  fun _ hi hi' => h.taken hi (hd.free _ (h'.free hi'))

end StagedWrite

/-- The output is read from a well-shaped slot handed out between two cursors. -/
def Outbound.Fresh (c c' : Cursor) (capacity : Nat) (o : Outbound) : Prop :=
  (∃ l, o.actual = .memory l) ∧ ∃ offset, o.source = .callerStack offset ∧
    Access.Within ⟨.localData, offset, o.width⟩ capacity ∧
    c.Gives c' capacity ⟨.localData, offset, o.width⟩

theorem Outbound.Fresh.widen {c₀ c c' c₁ : Cursor} {capacity : Nat} {o : Outbound}
    (h : o.Fresh c c' capacity) (h₀ : c₀.Behind c) (h₁ : c'.Behind c₁) :
    o.Fresh c₀ c₁ capacity := by
  obtain ⟨hl, offset, hs, hw, hg⟩ := h
  exact ⟨hl, offset, hs, hw, hg.widen h₀ h₁⟩

namespace Plan

/-- The plan is continued in room that is free at its cursor, up to the cursor of the other one. -/
structure Extends (low capacity : Nat) (plan plan' : Plan) : Prop where
  within : plan'.cursor.Within low capacity
  behind : plan.cursor.Behind plan'.cursor
  writes : ∃ ws, plan'.writes = plan.writes ++ ws ∧ ws.Pairwise StagedWrite.Apart ∧
    ∀ w ∈ ws, w.Fresh plan.cursor plan'.cursor capacity
  outbound : ∃ os, plan'.outbound = plan.outbound ++ os ∧
    ∀ o ∈ os, o.Fresh plan.cursor plan'.cursor capacity
  slots : ∃ ss, plan'.slots = plan.slots ++ ss ∧ ∀ s ∈ ss, s.2.Bindable

variable {low capacity : Nat} {plan plan' plan'' : Plan}

theorem Extends.refl (h : plan.cursor.Within low capacity) : Extends low capacity plan plan where
  within := h
  behind := .refl _
  writes := ⟨[], by simp⟩
  outbound := ⟨[], by simp⟩
  slots := ⟨[], by simp⟩

theorem Extends.trans (h : Extends low capacity plan plan')
    (h' : Extends low capacity plan' plan'') : Extends low capacity plan plan'' where
  within := h'.within
  behind := h.behind.trans h'.behind
  writes := by
    obtain ⟨ws, hws, hapart, hfresh⟩ := h.writes
    obtain ⟨ws', hws', hapart', hfresh'⟩ := h'.writes
    refine ⟨ws ++ ws', by rw [hws', hws, List.append_assoc], ?_, ?_⟩
    · refine List.pairwise_append.mpr ⟨hapart, hapart', ?_⟩
      intro w hw w' hw'
      exact (hfresh w hw).apart (hfresh' w' hw') (.refl _)
    · intro w hw
      rcases List.mem_append.mp hw with hw | hw
      · exact (hfresh w hw).widen (.refl _) h'.behind
      · exact (hfresh' w hw).widen h.behind (.refl _)
  outbound := by
    obtain ⟨os, hos, hfresh⟩ := h.outbound
    obtain ⟨os', hos', hfresh'⟩ := h'.outbound
    refine ⟨os ++ os', by rw [hos', hos, List.append_assoc], ?_⟩
    intro o ho
    rcases List.mem_append.mp ho with ho | ho
    · exact (hfresh o ho).widen (.refl _) h'.behind
    · exact (hfresh' o ho).widen h.behind (.refl _)
  slots := by
    obtain ⟨ss, hss, hbind⟩ := h.slots
    obtain ⟨ss', hss', hbind'⟩ := h'.slots
    refine ⟨ss ++ ss', by rw [hss', hss, List.append_assoc], ?_⟩
    intro s hs
    rcases List.mem_append.mp hs with hs | hs
    · exact hbind s hs
    · exact hbind' s hs

end Plan

/-- What one parameter of a stateless block adds to a plan. -/
structure Delivery where
  operand : Operand
  writes : List StagedWrite
  outbound : List Outbound
  openBlock : Option UInt16
  cursor : Cursor

def Plan.deliver (plan : Plan) (index : UInt32) (d : Delivery) : Plan where
  writes := plan.writes ++ d.writes
  outbound := plan.outbound ++ d.outbound
  slots := plan.slots ++ [(index, d.operand)]
  openBlock := d.openBlock.or plan.openBlock
  cursor := d.cursor

namespace Planning

def returned (b : Binding) (actual : Operand) (offset : BitAddress) (width : UInt32) :
    List Outbound :=
  if b.direction.isOutbound ∧ ¬ actual.isImmediate then
    [⟨b.parameter, actual, .callerStack offset, width⟩]
  else []

theorem returned_of_isOutbound {b : Binding} {l : Location} {offset : BitAddress} {width : UInt32}
    (hb : b.direction.isOutbound) : returned b (.memory l) offset width =
      [⟨b.parameter, .memory l, .callerStack offset, width⟩] := by
  unfold returned
  rw [if_pos ⟨hb, Bool.noConfusion⟩]

def opened : Operand → Option UInt16
  | .memory ⟨⟨.dataBlock number, _, _⟩, _⟩ => some number
  | _ => none

/-- What a stateless block gets for an actual. -/
inductive Delivers (m : Machine) (b : Binding) (start : Cursor) : Operand → Delivery → Prop where
  | direct {actual : Operand} (h : actual.passing = .direct) :
      Delivers m b start actual ⟨actual, [], [], none, start⟩
  | alias {actual : Operand} {l : Location} (h : actual.passing = .alias l) :
      Delivers m b start actual ⟨.memory l, [], [], none, start⟩
  | copy {actual : Operand} {value : Value} {width : UInt32} {offset : BitAddress} {cursor : Cursor}
      (h : actual.passing = .copy) (hw : actual.width? = some width)
      (hv : m.resolve actual = .ok value)
      (ha : start.allocate m.room width = .ok (offset, cursor)) :
      Delivers m b start actual ⟨.memory (.callerSlot offset width),
        [.callerStack offset width value], returned b actual offset width, opened actual, cursor⟩
  | pointerToCopy {actual : Operand} {value : Value} {width : UInt32} {offset at' : BitAddress}
      {mid cursor : Cursor} (h : actual.passing = .pointerToCopy) (hw : actual.width? = some width)
      (hv : m.resolve actual = .ok value)
      (ha : start.allocate m.room width = .ok (offset, mid))
      (hp : mid.allocate m.room Pointer.width = .ok (at', cursor)) :
      Delivers m b start actual ⟨.memory (.callerSlot at' Pointer.width),
        [.callerStack offset width value,
          .callerStack at' Pointer.width (Pointer.toValue ⟨0, .outerData, offset⟩)],
        returned b actual offset width, opened actual, cursor⟩
  | pointer {actual : Operand} {l : Location} {pointer : Pointer} {offset : BitAddress}
      {cursor : Cursor} (h : actual.passing = .pointer l)
      (hl : Pointer.toCallerLocation? l m.registers.di = some pointer)
      (ha : start.allocate m.room Pointer.width = .ok (offset, cursor)) :
      Delivers m b start actual ⟨.memory (.callerSlot offset Pointer.width),
        [.callerStack offset Pointer.width pointer.toValue], [], none, cursor⟩

variable {c : Planning} {b : Binding} {plan plan' : Plan}

theorem access_eq_ok {α : Type} {r : Except AccessError α} {a : α} :
    c.access b r = .ok a ↔ r = .ok a :=
  mapError_eq_ok

theorem allocate_eq_ok {width : UInt32} {offset : BitAddress}
    (h : c.allocate b width plan = .ok (offset, plan')) :
    ∃ cursor, plan.cursor.allocate c.machine.room width = .ok (offset, cursor) ∧
      plan' = { plan with cursor } := by
  unfold allocate at h
  split at h
  · cases h
  · next caller rest hframes =>
    split at h
    · next ha =>
      cases h
      exact ⟨_, by simpa [Machine.room, hframes] using ha, rfl⟩
    · cases h

theorem copy_eq_ok {actual : Operand} {width : UInt32} {l : Location}
    (hw : actual.width? = some width) (h : c.copy b actual plan = .ok (l, plan')) :
    ∃ value offset cursor, c.machine.resolve actual = .ok value ∧
      plan.cursor.allocate c.machine.room width = .ok (offset, cursor) ∧
      l = .callerSlot offset width ∧
      plan' = ⟨plan.writes ++ [.callerStack offset width value],
        plan.outbound ++ returned b actual offset width, plan.slots,
        (opened actual).or plan.openBlock, cursor⟩ := by
  obtain ⟨value, hv, h⟩ := bind_eq_ok.mp h
  rw [hw, Option.getD_some] at h
  obtain ⟨⟨offset, plan₁⟩, ha, h⟩ := bind_eq_ok.mp h
  obtain ⟨cursor, hc, rfl⟩ := allocate_eq_ok ha
  have h := pure_eq_ok.mp h
  simp only [Prod.mk.injEq] at h
  obtain ⟨rfl, rfl⟩ := h
  refine ⟨value, offset, cursor, access_eq_ok.mp hv, hc, rfl, ?_⟩
  unfold returned
  cases actual with
  | memory l =>
    obtain ⟨⟨area, _, _⟩, _⟩ := l
    cases area <;> split_ifs <;> simp [Plan.stage, Plan.queue, Operand.location?, opened]
  | immediate _ _ _ | block _ _ | slot _ =>
    split_ifs <;> simp [Plan.stage, Plan.queue, Operand.location?, opened]

theorem copyPointer_eq_ok {pointer : Pointer} {op : Operand}
    (h : c.copyPointer b pointer plan = .ok (op, plan')) :
    ∃ offset cursor, plan.cursor.allocate c.machine.room Pointer.width = .ok (offset, cursor) ∧
      op = .memory (.callerSlot offset Pointer.width) ∧
      plan' = { plan with
        writes := plan.writes ++ [.callerStack offset Pointer.width pointer.toValue], cursor } := by
  obtain ⟨⟨offset, plan₁⟩, ha, h⟩ := bind_eq_ok.mp h
  obtain ⟨cursor, hc, rfl⟩ := allocate_eq_ok ha
  cases pure_eq_ok.mp h
  exact ⟨offset, cursor, hc, rfl, rfl⟩

theorem width_of_passing {actual : Operand}
    (h : actual.passing = .copy ∨ actual.passing = .pointerToCopy) :
    ∃ width, actual.width? = some width := by
  cases actual with
  | immediate _ width _ => exact ⟨width, rfl⟩
  | memory l => exact ⟨l.width, rfl⟩
  | block _ _ => exact ⟨16, rfl⟩
  | slot _ => rcases h with h | h <;> cases h

/-- Binding a parameter of a stateless block delivers what the actual stands for. -/
theorem bindSlot_eq_ok (h : c.bindSlot plan b = .ok plan') :
    ∃ actual d, c.forwarded b.actual = .ok actual ∧
      Delivers c.machine b plan.cursor actual d ∧ plan' = plan.deliver b.parameter.index d := by
  obtain ⟨actual, hactual, h⟩ := bind_eq_ok.mp h
  obtain ⟨⟨op, plan₁⟩, hpass, h⟩ := bind_eq_ok.mp h
  cases pure_eq_ok.mp h
  refine ⟨actual, ?_⟩
  unfold pass at hpass
  cases hp : actual.passing with
  | direct =>
    rw [hp] at hpass
    cases hpass
    exact ⟨_, hactual, .direct hp, by simp [Plan.deliver, Plan.bindSlot]⟩
  | «alias» l =>
    rw [hp] at hpass
    cases hpass
    exact ⟨_, hactual, .alias hp, by simp [Plan.deliver, Plan.bindSlot]⟩
  | copy =>
    rw [hp] at hpass
    obtain ⟨width, hw⟩ := width_of_passing (.inl hp)
    obtain ⟨⟨l, plan₂⟩, hcopy, hr⟩ := bind_eq_ok.mp hpass
    cases pure_eq_ok.mp hr
    obtain ⟨value, offset, cursor, hv, ha, rfl, rfl⟩ := copy_eq_ok hw hcopy
    exact ⟨_, hactual, .copy hp hw hv ha, rfl⟩
  | pointerToCopy =>
    rw [hp] at hpass
    obtain ⟨width, hw⟩ := width_of_passing (.inr hp)
    obtain ⟨⟨l, plan₂⟩, hcopy, hr⟩ := bind_eq_ok.mp hpass
    obtain ⟨value, offset, mid, hv, ha, rfl, rfl⟩ := copy_eq_ok hw hcopy
    obtain ⟨at', cursor, ha', rfl, rfl⟩ := copyPointer_eq_ok hr
    exact ⟨_, hactual, .pointerToCopy hp hw hv ha ha', by
      simp [Plan.deliver, Plan.bindSlot, Location.callerSlot]⟩
  | pointer l =>
    rw [hp] at hpass
    dsimp only at hpass
    split at hpass
    · next pointer hl =>
      obtain ⟨offset, cursor, ha, rfl, rfl⟩ := copyPointer_eq_ok hpass
      exact ⟨_, hactual, .pointer hp hl ha, by simp [Plan.deliver, Plan.bindSlot]⟩
    · cases hpass
  | forward _ =>
    rw [hp] at hpass
    cases hpass
  | refused _ =>
    rw [hp] at hpass
    cases hpass

section Delivers

variable {m : Machine} {b : Binding} {start : Cursor} {actual : Operand} {d : Delivery}

theorem validWidth_of_resolve {l : Location} {value : Value} (h : m.resolve (.memory l) = .ok value) :
    l.ValidWidth :=
  (Access.checkShape_eq_ok.mp (Machine.resolve_eq_ok.mp h).1).1

theorem validWidth_or_empty {value : Value} {width : UInt32} (h : m.resolve actual = .ok value)
    (hw : actual.width? = some width) :
    (∀ area offset, Access.ValidWidth ⟨area, offset, width⟩) ∨
      ∃ compound, actual = .immediate (.bytes []) 0 compound := by
  cases actual with
  | memory l =>
    cases hw
    exact .inl fun _ _ => validWidth_of_resolve h
  | block _ _ =>
    cases hw
    exact .inl (Access.validWidth_of_width (by decide))
  | slot _ => cases hw
  | immediate u w compound =>
    have hfit : value.Fits w := Machine.fits_of_resolve h rfl
    cases hw
    cases (Machine.resolve_eq_ok.mp h).2
    cases value with
    | scalar n =>
      obtain ⟨rfl, -⟩ | ⟨rfl, -⟩ | ⟨rfl, -⟩ | rfl := Value.scalar_fits_cases hfit
      all_goals exact .inl (Access.validWidth_of_width (by decide))
    | bytes bs =>
      have hlen : 8 * bs.length = width.toNat := hfit
      by_cases h0 : width = 0
      · subst h0
        have hnil : bs.length = 0 := by rw [UInt32.toNat_zero] at hlen; omega
        exact .inr ⟨compound, by rw [List.length_eq_zero_iff.mp hnil]⟩
      · exact .inl (Access.validWidth_of_width (.inr ⟨h0, by omega⟩))

theorem returned_fresh {width : UInt32} {offset : BitAddress} {cursor : Cursor} {value : Value}
    {capacity : Nat} (hp : actual.passing = .copy ∨ actual.passing = .pointerToCopy)
    (hv : m.resolve actual = .ok value) (hw : actual.width? = some width)
    (hg : start.Gives cursor capacity ⟨.localData, offset, width⟩) :
    ∀ o ∈ returned b actual offset width, o.Fresh start cursor capacity := by
  intro o ho
  unfold returned at ho
  split_ifs at ho with hout
  · rw [List.mem_singleton] at ho
    subst ho
    cases actual with
    | memory l =>
      cases hw
      exact ⟨⟨l, rfl⟩, offset, rfl, hg.within (validWidth_of_resolve hv), hg⟩
    | immediate _ _ _ => exact absurd rfl hout.2
    | block _ _ => rcases hp with hp | hp <;> cases hp
    | slot _ => rcases hp with hp | hp <;> cases hp
  · cases ho

theorem Delivers.bindable (h : Delivers m b start actual d) : d.operand.Bindable := by
  cases h with
  | direct hp => exact Operand.bindable_of_direct hp
  | copy | pointerToCopy | pointer => exact Location.bindable_callerSlot _ _
  | «alias» hp =>
    cases actual with
    | memory l =>
      obtain ⟨rfl, -, hc⟩ := Location.local_of_alias hp
      exact hc
    | immediate _ _ c => cases c <;> cases hp
    | block _ _ | slot _ => cases hp

theorem Delivers.outbound_of_input (h : Delivers m b start actual d) (hb : b.direction = .input) :
    d.outbound = [] := by
  have hreturned : ∀ offset width, returned b actual offset width = [] := by
    intro offset width
    unfold returned
    rw [hb, if_neg (by simp [Direction.isOutbound])]
  cases h with
  | direct | «alias» | pointer => rfl
  | copy | pointerToCopy => exact hreturned _ _

theorem Delivers.of_mem_outbound {o : Outbound} (h : Delivers m b start actual d)
    (ho : o ∈ d.outbound) : ∃ l offset v, actual = .memory l ∧ l.passing = .copy ∧
      b.direction.isOutbound = true ∧ m.resolve actual = .ok v ∧
      .callerStack offset l.width v ∈ d.writes ∧
      o = ⟨b.parameter, actual, .callerStack offset, l.width⟩ := by
  have hreturned : ∀ {offset : BitAddress} {width : UInt32}, o ∈ returned b actual offset width →
      b.direction.isOutbound = true ∧ ¬ actual.isImmediate = true ∧
        o = ⟨b.parameter, actual, .callerStack offset, width⟩ := by
    intro offset width ho
    unfold returned at ho
    split_ifs at ho with hout
    · exact ⟨hout.1, hout.2, List.mem_singleton.mp ho⟩
    · cases ho
  cases h with
  | direct | «alias» | pointer => cases ho
  | copy hp hw hv =>
    obtain ⟨hdir, himm, rfl⟩ := hreturned ho
    cases actual with
    | memory l =>
      cases hw
      exact ⟨l, _, _, rfl, hp, hdir, hv, List.mem_singleton_self _, rfl⟩
    | immediate _ _ _ => exact absurd rfl himm
    | block _ _ | slot _ => cases hp
  | pointerToCopy hp =>
    obtain ⟨-, himm, -⟩ := hreturned ho
    cases actual with
    | memory l => exact absurd hp l.passing_ne_pointerToCopy
    | immediate _ _ _ => exact absurd rfl himm
    | block _ _ | slot _ => cases hp

theorem Delivers.openBlock_eq (h : Delivers m b start actual d) :
    d.openBlock = actual.sharedBlock? := by
  cases h with
  | direct hp | «alias» hp | copy hp | pointerToCopy hp | pointer hp =>
    cases actual with
    | memory l =>
      obtain ⟨⟨area, _, _⟩, compound⟩ := l
      cases area <;> cases compound <;>
        simp_all [Operand.passing, Location.passing, Operand.sharedBlock?, opened]
    | immediate _ _ _ | block _ _ | slot _ => rfl

theorem Delivers.validWidth_or_empty (h : Delivers m b start actual d) {w : StagedWrite}
    (hw : w ∈ d.writes) : w.access.ValidWidth ∨
      w.access.width = 0 ∧ ∃ compound, actual = .immediate (.bytes []) 0 compound := by
  have hpointer : ∀ offset, Access.ValidWidth ⟨.localData, offset, Pointer.width⟩ :=
    Access.validWidth_of_width (by decide) .localData
  have hcopy : ∀ {width value}, m.resolve actual = .ok value → actual.width? = some width →
      ∀ offset, Access.ValidWidth ⟨.localData, offset, width⟩ ∨
        width = 0 ∧ ∃ compound, actual = .immediate (.bytes []) 0 compound := by
    intro width value hv hw offset
    rcases Planning.validWidth_or_empty hv hw with hvalid | ⟨compound, rfl⟩
    · exact .inl (hvalid _ _)
    · exact .inr ⟨(Option.some.inj hw).symm, compound, rfl⟩
  cases h with
  | direct | «alias» => cases hw
  | copy _ hwidth hv _ =>
    rw [List.mem_singleton.mp hw]
    exact hcopy hv hwidth _
  | pointer =>
    rw [List.mem_singleton.mp hw]
    exact .inl (hpointer _)
  | pointerToCopy _ hwidth hv _ _ =>
    rcases List.mem_cons.mp hw with rfl | hw
    · exact hcopy hv hwidth _
    · rw [List.mem_singleton.mp hw]
      exact .inl (hpointer _)

/-- A delivery takes room that is free and binds an operand that can stand for a parameter. -/
theorem Delivers.extends {plan : Plan} {low : Nat}
    (h : Delivers m b plan.cursor actual d) (index : UInt32) (hc : plan.cursor.Within low m.room)
    (hroom : m.room < UInt32.size) : plan.Extends low m.room (plan.deliver index d) := by
  have hbind := h.bindable
  have hslots : ∃ ss, (plan.deliver index d).slots = plan.slots ++ ss ∧ ∀ s ∈ ss, s.2.Bindable :=
    ⟨[(index, d.operand)], rfl, by simpa using hbind⟩
  cases h with
  | direct | «alias» =>
    exact ⟨hc, .refl _, ⟨[], by simp [Plan.deliver]⟩, ⟨[], by simp [Plan.deliver]⟩, hslots⟩
  | copy hp hw hv ha =>
    obtain ⟨hc', hb, hg⟩ := hc.allocate_gives hroom ha
    refine ⟨hc', hb, ⟨_, rfl, List.pairwise_singleton _ _, ?_⟩, ⟨_, rfl, ?_⟩, hslots⟩
    · intro w hmem
      rw [List.mem_singleton.mp hmem]
      exact ⟨Machine.fits_of_resolve hv hw, hg⟩
    · exact returned_fresh (.inl hp) hv hw hg
  | pointer hp hl ha =>
    obtain ⟨hc', hb, hg⟩ := hc.allocate_gives hroom ha
    refine ⟨hc', hb, ⟨_, rfl, List.pairwise_singleton _ _, ?_⟩, ⟨[], by simp [Plan.deliver]⟩, hslots⟩
    intro w hmem
    rw [List.mem_singleton.mp hmem]
    exact ⟨Pointer.fits_toValue _, hg⟩
  | pointerToCopy hp hw hv ha ha' =>
    obtain ⟨hc', hb, hg⟩ := hc.allocate_gives hroom ha
    obtain ⟨hc'', hb', hg'⟩ := hc'.allocate_gives hroom ha'
    have hfirst := Machine.fits_of_resolve hv hw
    refine ⟨hc'', hb.trans hb', ⟨_, rfl, ?_, ?_⟩, ⟨_, rfl, ?_⟩, hslots⟩
    · rw [List.pairwise_pair]
      exact fun i hi hi' => hg.taken i hi (hg'.free i hi')
    · intro w hmem
      rcases List.mem_cons.mp hmem with rfl | hmem
      · exact ⟨hfirst, hg.widen (.refl _) hb'⟩
      · rw [List.mem_singleton.mp hmem]
        exact ⟨Pointer.fits_toValue _, hg'.widen hb (.refl _)⟩
    · intro o ho
      exact (returned_fresh (.inr hp) hv hw hg o ho).widen (.refl _) hb'

end Delivers

end Planning

end PlcMachine
