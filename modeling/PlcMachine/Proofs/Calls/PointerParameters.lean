import PlcMachine.Proofs.Calls.ForwardedPointer
import PlcMachine.Proofs.Machine.Dimensions
import PlcMachine.Proofs.Machine.Instance

/-! # Parameters passed by pointer

A pointer that a call passes leads its callee to the actual: local data of the caller are outer data of
the callee, and instance data are found in the data block that the caller had open for them.
-/

namespace PlcMachine.Machine

/-- The controller as the caller of the active block has it when that block is left. -/
def callerView (m : Machine) : Machine :=
  match m.frames with
  | [] => m
  | f :: rest => m.returned f rest

/-- A location that the callee is led to is an actual of the caller: it is in the same place, it has the
value of the actual, and what is stored there is stored in the actual. -/
structure Leads (m m' : Machine) (actual : Location) (v : Value) (l : Location) : Prop where
  home : m'.home? l.area = m.home? actual.area
  offset : l.offset = actual.offset
  fetch : m'.fetch (.memory { l with width := actual.width }) = .ok v.canonical
  store : ∀ width u x, m'.store (.memory { l with width }) u = .ok x →
    m'.callerView.store (.memory { actual with width }) u = .ok x.callerView

variable {m m' x : Machine} {site : CallSite} {d : Option InstanceData} {stack : LocalStack}
  {plan : Plan} {written : Machine} {a : Access} {u v : Value}

theorem writeAccess_callerView {f : Frame} {rest : List Frame} (hf : m'.frames = f :: rest)
    (hraw : f.raw = false) (ha : a.area ≠ .outerData)
    (h : m'.writeAccess { a with area := a.area.forCallee f.saved.di } u = .ok x) :
    m'.callerView.writeAccess a u = .ok x.callerView := by
  have hcaller : m'.callerView = { m' with frames := rest, registers := f.saved } := by
    simp [callerView, returned, hf, hraw]
  rw [hcaller]
  obtain ⟨area, offset, width⟩ := a
  cases area with
  | outerData => exact absurd rfl ha
  | localData =>
    obtain ⟨_, _, _, _, harea, _⟩ | ⟨f', g, callers, bytes, hf', -, hw, rfl⟩ |
      ⟨_, harea, _⟩ := writeAccess_cases h
    · cases harea
    · obtain ⟨rfl, rfl⟩ := List.cons.inj (hf.symm.trans hf')
      have hwrite : g.stack.bytes.write ⟨.localData, offset, width⟩ u = .ok bytes :=
        ByteStore.write_inArea hw .localData
      refine (writeAccess_localData rfl rfl).mpr ⟨bytes, hwrite, ?_⟩
      simp [callerView, returned, hraw]
    · cases harea
  | input | output | flag | instanceData | dataBlock _ | timer | counter | peripheralIn
  | peripheralOut =>
    obtain ⟨memory, hw, rfl⟩ := (writeAccess_global rfl).mp h
    refine (writeAccess_global rfl).mpr ⟨memory, hw, ?_⟩
    simp [callerView, returned, hf, hraw]

theorem readAccess_forCallee (ha : a.area.isFrameRelative = false) :
    m'.readAccess { a with area := a.area.forCallee m.registers.di } =
      m'.memory.read (m.absolute a) := by
  obtain ⟨area, offset, width⟩ := a
  cases area with
  | localData | outerData => cases ha
  | input | output | flag | instanceData | dataBlock _ | timer | counter | peripheralIn
  | peripheralOut =>
    rw [readAccess_global rfl]
    rfl

theorem depth_pos_of_readAccess (h : m.readAccess a = .ok v) (ha : a.area = .localData) :
    0 < m.depth := by
  unfold depth
  cases hf : m.frames with
  | nil => simp [readAccess, hf, ha] at h
  | cons f rest => exact Nat.succ_pos _

theorem depth_pos_of_within (h : a.Within m.room) : 0 < m.depth := by
  unfold depth
  cases hf : m.frames with
  | nil =>
    have hzero : m.room = 0 := by simp [room, hf]
    exact (Access.not_within_zero _ (hzero ▸ h)).elim
  | cons f rest => exact Nat.succ_pos _

theorem follow_of_pointer {op : Operand} {pointer : Pointer} {l : Location} {width : UInt32}
    {compound : Bool} (hf : m.fetch op = .ok u) (hpointer : Pointer.ofValue u = .ok pointer)
    (hl : pointer.target width compound = .ok l) : m.follow op width compound = .ok l := by
  unfold follow
  rw [hf]
  exact bind_eq_ok.mpr ⟨u, rfl, bind_eq_ok.mpr ⟨pointer, hpointer, hl⟩⟩

theorem follow_of_fetch {op : Operand} {l : Location} {di : UInt16} {pointer : Pointer}
    (hf : m.fetch op = .ok pointer.toValue.canonical)
    (hpointer : Pointer.toCallerLocation? l di = some pointer) (hbit : l.offset.bit ≤ 7)
    (hblock : l.area.forCallee di ≠ .dataBlock 0) (width : UInt32) (compound : Bool) :
    m.follow op width compound = .ok ⟨⟨l.area.forCallee di, l.offset, width⟩, compound⟩ := by
  obtain ⟨hfits, hoffset, -⟩ := Pointer.fits_of_toCallerLocation? hpointer
  have hvalue : Pointer.ofValue pointer.toValue.canonical = .ok pointer := by
    rw [← hoffset] at hfits hbit
    exact Pointer.ofValue_toValue hfits hbit
  exact follow_of_pointer hf hvalue (Pointer.target_of_toCallerLocation? hpointer hblock width compound)

namespace Enters

section

variable (h : m.Enters site d stack plan written m')
include h

theorem home_forCallee {area : Area} (ha : area ≠ .outerData)
    (hpos : area = .localData → 0 < m.depth) :
    m'.home? (area.forCallee m.registers.di) = m.home? area := by
  have hdepth := h.depth_eq
  cases area with
  | outerData => exact absurd rfl ha
  | localData =>
    simp only [Area.forCallee, home?, hdepth]
    rw [if_pos (by have := hpos rfl; omega), if_pos (hpos rfl)]
    rfl
  | instanceData | input | output | flag | dataBlock _ | timer | counter | peripheralIn
  | peripheralOut => rfl

theorem leads (hraw : site.raw = false) {l : Location} (ha : l.area ≠ .outerData)
    (hv : m.readAccess l.toAccess = .ok v)
    (hread : m'.readAccess { l.toAccess with area := l.area.forCallee m.registers.di } = .ok v)
    (width : UInt32) (compound : Bool) :
    Leads m m' l v ⟨⟨l.area.forCallee m.registers.di, l.offset, width⟩, compound⟩ where
  home := h.home_forCallee ha (depth_pos_of_readAccess hv)
  offset := rfl
  fetch := by rwa [(canonical_of_readAccess hv).2]
  store _ _ _ hstore := writeAccess_callerView h.frames hraw ha hstore

end

section Stateless

variable (h : m.Enters site d stack plan written m') (hm : m.Allocates)
  (hs : site.callee.isStateful = false) (hraw : site.raw = false)
include h hm hs

theorem readAccess_pointed {l : Location} (ha : l.area ≠ .outerData)
    (htemps : l.area = .localData → l.byteEnd ≤ m.reserved)
    (hv : m.readAccess l.toAccess = .ok v) :
    m'.readAccess { l.toAccess with area := l.area.forCallee m.registers.di } = .ok v := by
  cases hl : l.area.isFrameRelative with
  | false => rwa [readAccess_forCallee hl, h.memory_stateless hm hs, ← readAccess_global hl]
  | true =>
    obtain ⟨⟨area, offset, width⟩, compound⟩ := l
    cases area <;> cases hl
    · exact h.readAccess_reserved hm hs hv rfl (htemps rfl)
    · exact absurd rfl ha

include hraw

theorem follow_slot {b : Binding} {p : Parameter} {l : Location}
    (hb : site.Binds m b p (.memory l)) (hl : l.IsPassedByPointer)
    (htemps : l.area = .localData → l.byteEnd ≤ m.reserved)
    (hblock : l.area.forCallee m.registers.di ≠ .dataBlock 0) (hv : m.readAccess l.toAccess = .ok v)
    (width : UInt32) (compound : Bool) : ∃ l', m'.follow (.slot p.index) width compound = .ok l' ∧
      l'.width = width ∧ l'.compound = compound ∧ Leads m m' l v l' := by
  obtain ⟨cursor, actual, δ, hactual, hδ, hslot, hwrites, -⟩ :=
    h.delivered hm hs hraw hb.mem hb.declared
  obtain rfl := Except.ok.inj (hb.resolved.symm.trans hactual)
  have hpassing : (Operand.memory l).passing = .pointer l := Location.passing_of_isPassedByPointer hl
  cases hδ with
  | direct hp | «alias» hp | copy hp | pointerToCopy hp => cases hpassing.symm.trans hp
  | pointer hp hpointer _ =>
    cases hpassing.symm.trans hp
    have hcopied := h.readAccess_copied hm hs (hwrites (List.mem_singleton_self _))
    have hfetch := (fetch_slot hslot).trans hcopied
    have ha := (Pointer.fits_of_toCallerLocation? hpointer).2.2
    have hbit := (shape_of_readAccess hv).2.1
    refine ⟨_, follow_of_fetch hfetch hpointer hbit hblock width compound, rfl, rfl, ?_⟩
    exact h.leads hraw ha hv (h.readAccess_pointed hm hs ha htemps hv) width compound

theorem follow_slot_copy (hroom : m.room ≤ 65536) {b : Binding} {p : Parameter} {value : Value}
    {w : UInt32} (hb : site.Binds m b p (.immediate value w true)) :
    ∃ offset, m'.home? .outerData = m.home? .localData ∧
      (∀ i, Access.Covers ⟨.localData, offset, w⟩ i → m.start.Free i ∧ i < 8 * m.room) ∧
      ∀ width compound,
        m'.follow (.slot p.index) width compound = .ok ⟨⟨.outerData, offset, width⟩, compound⟩ ∧
          m'.fetch (.memory ⟨⟨.outerData, offset, w⟩, compound⟩) = .ok value.canonical := by
  obtain ⟨cursor, actual, δ, hactual, hδ, hslot, hwrites, -⟩ :=
    h.delivered hm hs hraw hb.mem hb.declared
  obtain rfl := Except.ok.inj (hb.resolved.symm.trans hactual)
  cases hδ with
  | direct hp | «alias» hp | copy hp | pointer hp => cases hp
  | @pointerToCopy _ _ offset _ _ _ _ hw hvalue _ _ =>
    cases hw
    obtain rfl := Except.ok.inj (resolve_eq_ok.mp hvalue).2
    have hmem := hwrites List.mem_cons_self
    have hcopied := h.readAccess_copied hm hs hmem
    have hpointer := h.readAccess_copied hm hs
      (hwrites (List.mem_cons_of_mem _ (List.mem_singleton_self _)))
    obtain ⟨-, hgives⟩ := (h.fresh hm hs).2 _ hmem
    have hwithin := hgives.within (shape_of_readAccess hcopied).1
    have hfits : offset.FitsPointer := hwithin.fitsPointer hroom
    have hhome : m'.home? (Area.forCallee m.registers.di .localData) = m.home? .localData :=
      h.home_forCallee Area.noConfusion fun _ => depth_pos_of_within hwithin
    refine ⟨offset, hhome, ?_, ?_⟩
    · intro i hi
      exact ⟨hgives.free i hi, hwithin.covers_lt hi⟩
    · intro width compound
      have hvalue := Pointer.ofValue_toValue (p := ⟨0, .outerData, offset⟩) hfits hwithin.aligned.1
      exact ⟨follow_of_pointer ((fetch_slot hslot).trans hpointer) hvalue rfl, hcopied⟩

end Stateless

section Stateful

variable {d : InstanceData} (h : m.Enters site (some d) stack plan written m')
  (hraw : site.raw = false)
include h hraw

theorem readAccess_unsupplied {l : Location} (ha : l.area ≠ .outerData)
    (hapart : ∀ index a, site.SuppliesAt d index a → a.area = l.area.forCallee m.registers.di →
      ∀ i, l.Covers i → ¬ a.Covers i)
    (hv : m.readAccess l.toAccess = .ok v) :
    m'.readAccess { l.toAccess with area := l.area.forCallee m.registers.di } = .ok v := by
  obtain ⟨⟨area, offset, width⟩, compound⟩ := l
  cases hl : area.isFrameRelative with
  | false =>
    obtain ⟨s, s', hs, hmemory, hsize, hbits⟩ := h.memory_stateful hraw
    rw [readAccess_forCallee hl, hmemory, Memory.read_setBlock hs hsize, ← readAccess_global hl]
    · exact hv
    · intro harea i hi
      refine hbits i fun index a hplace => ?_
      have hcovers : Access.Covers ⟨area, offset, width⟩ i := (m.covers_absolute _ _).mp hi
      have hsame : (m.absolute ⟨area, offset, width⟩).area = area.forCallee m.registers.di := by
        cases area <;> first | rfl | cases hl
      exact hapart index a hplace ((hplace.area_eq).trans (harea.symm.trans hsame)) i hcovers
  | true =>
    cases area <;> cases hl
    · cases hf : m.frames with
      | nil => simp [readAccess, hf] at hv
      | cons f rest =>
        rw [readAccess_localData hf rfl] at hv
        rw [readAccess_outerData (hf ▸ h.frames_stateful hraw) rfl]
        exact ByteStore.read_inArea hv .outerData
    · exact absurd rfl ha

theorem follow_parameter (hbit : d.base.bit ≤ 7) {b : Binding} {p : Parameter} {l : Location}
    (hb : site.Binds m b p (.memory l)) (hp : p.compound = true ∧ b.direction = .inOut)
    (hblock : l.area.forCallee m.registers.di ≠ .dataBlock 0)
    (hapart : ∀ index a, site.SuppliesAt d index a → a.area = l.area.forCallee m.registers.di →
      ∀ i, l.Covers i → ¬ a.Covers i)
    (hlater : ∀ index a, p.index < index → site.SuppliesAt d index a →
      ∀ i, (d.supply p b.direction).Covers i → ¬ a.Covers i)
    (hv : m.readAccess l.toAccess = .ok v) : ∃ l', m'.followParameter p = .ok l' ∧
      l'.width = p.width ∧ l'.compound = p.compound ∧ Leads m m' l v l' := by
  have hdir : b.direction.isInbound = true := by rw [hp.2]; rfl
  obtain ⟨u, hu, hread⟩ := h.read_supply hraw hb hdir hlater
  cases hu with
  | value ht => exact absurd hp (Parameter.not_inOut_of_transfer (.inl ht))
  | reference ht => exact absurd hp (Parameter.not_inOut_of_transfer (.inr ht))
  | @pointer _ pointer _ hl hpointer =>
    cases hl
    have hwidth : p.supplyWidth b.direction = Pointer.width := if_pos hp
    rw [InstanceData.supply, hwidth] at hread
    have hfetch : m'.fetch (.memory ⟨m'.instanceAccess p Pointer.width, false⟩) =
        .ok pointer.toValue.canonical := by
      rw [h.instanceAccess_stateful hraw hbit]
      exact hread
    have ha := (Pointer.fits_of_toCallerLocation? hpointer).2.2
    have hbit := (shape_of_readAccess hv).2.1
    refine ⟨_, follow_of_fetch hfetch hpointer hbit hblock _ _, rfl, rfl, ?_⟩
    exact h.leads hraw ha hv (h.readAccess_unsupplied hraw ha hapart hv) _ _

end Stateful

end Enters

/-- A parameter that is passed by pointer leads to its actual, or to the copy of a constant, as long as
the call itself writes neither over the actual nor over the pointer. -/
theorem enter_leads {id : MachineId} {specs : Specs} {ops : List Operation}
    (hlocal : specs.localBytes ≤ 65536) (hm : m = (ofSpecs id specs).run ops)
    (henter : m.enter site = (.ok (), m')) (hraw : site.raw = false) {b : Binding} {p : Parameter}
    {actual : Operand} (hb : site.Binds m b p actual) (hv : m.fetch b.actual = .ok v) :
    (∀ l, actual = .memory l → l.IsPassedByPointer → site.callee.isStateful = false →
      (l.area = .localData → l.byteEnd ≤ m.reserved) →
      l.area.forCallee m.registers.di ≠ .dataBlock 0 →
      ∀ width compound, ∃ l', m'.follow (.slot p.index) width compound = .ok l' ∧
        l'.width = width ∧ l'.compound = compound ∧ Leads m m' l v l') ∧
    (∀ value w, actual = .immediate value w true → site.callee.isStateful = false →
      ∃ offset, m'.home? .outerData = m.home? .localData ∧
        (∀ i, Access.Covers ⟨.localData, offset, w⟩ i → m.start.Free i ∧ i < 8 * m.room) ∧
        ∀ width compound,
          m'.follow (.slot p.index) width compound = .ok ⟨⟨.outerData, offset, width⟩, compound⟩ ∧
            m'.fetch (.memory ⟨⟨.outerData, offset, w⟩, compound⟩) = .ok v.canonical) ∧
    ∀ l d, actual = .memory l → p.compound = true ∧ b.direction = .inOut →
      m.instanceFor site = .ok (some d) → d.base.bit ≤ 7 →
      l.area.forCallee m.registers.di ≠ .dataBlock 0 →
      (∀ index a, site.SuppliesAt d index a → a.area = l.area.forCallee m.registers.di →
        ∀ i, l.Covers i → ¬ a.Covers i) →
      (∀ index a, p.index < index → site.SuppliesAt d index a →
        ∀ i, (d.supply p b.direction).Covers i → ¬ a.Covers i) →
      ∃ l', m'.followParameter p = .ok l' ∧ l'.width = p.width ∧ l'.compound = p.compound ∧
        Leads m m' l v l' := by
  have halloc : m.Allocates := hm ▸ ((Reachable.start id specs).run ops).allocates
  have hroom : m.room ≤ 65536 := hm ▸ (localWithin_run hlocal (Nat.le_refl _) ops).room_le
  obtain ⟨d, stack, plan, written, h⟩ := enters_of_ok henter
  have hfetch : (∀ i, actual ≠ .slot i) → m.fetch actual = .ok v := fun hslot =>
    (fetch_of_unslot_of_ne hb.resolved hslot).symm.trans hv
  refine ⟨?_, ?_, ?_⟩
  · rintro l rfl hl hs htemps hblock width compound
    have hread : m.readAccess l.toAccess = .ok v := hfetch fun _ => Operand.noConfusion
    exact h.follow_slot halloc hs hraw hb hl htemps hblock hread width compound
  · rintro value w rfl hs
    obtain rfl : value = v := Except.ok.inj (hfetch fun _ => Operand.noConfusion)
    exact h.follow_slot_copy halloc hs hraw hroom hb
  · rintro l d' rfl hp hd hbit hblock hapart hlater
    obtain rfl := Except.ok.inj (h.instanceData.symm.trans hd)
    have hread : m.readAccess l.toAccess = .ok v := hfetch fun _ => Operand.noConfusion
    exact h.follow_parameter hraw hbit hb hp hblock hapart hlater hread

namespace PointerParameters

def record : Parameter := ⟨"r", 0, ⟨0, 0⟩, 64, true, false⟩

def text : Parameter := ⟨"t", 1, ⟨8, 0⟩, 24, true, false⟩

def temporaries : Location := ⟨⟨.localData, ⟨0, 0⟩, 64⟩, true⟩

def constant : Operand := .immediateBytes [0x41, 0x42, 0x43]

def bindRecord : Binding := ⟨record, .memory temporaries, .inOut⟩

def bindText : Binding := ⟨text, constant, .input⟩

def stateless : CallSite :=
  ⟨⟨.function, 1, "", 2, [record, text]⟩, false, none, none, [bindText, bindRecord]⟩

def stateful : CallSite := ⟨⟨.functionBlock, 1, "", 2, [record]⟩, false, some 7, none, [bindRecord]⟩

def specs : Specs := ⟨32, 4, 4, 1, 1, 1, 1⟩

def bytes : Value := .bytes [1, 2, 3, 4, 5, 6, 7, 8]

def history : List Operation :=
  [.begin ⟨.organization, 1, "", 8, []⟩, .memory (.addBlock 7 8), .store (.memory temporaries) bytes]

def controller : Machine := (ofSpecs ⟨0⟩ specs).run history

end PointerParameters

open PointerParameters in
theorem enter_leads_temporaries :
    (∃ l, (controller.enter stateless).2.follow (.slot 0) 64 true = .ok l ∧
      Leads controller (controller.enter stateless).2 temporaries bytes l) ∧
    (∃ l, (controller.enter stateless).2.follow (.slot 1) 24 false = .ok l ∧
      (controller.enter stateless).2.fetch (.memory l) = .ok (.bytes [0x41, 0x42, 0x43])) ∧
    ∃ l, (controller.enter stateful).2.followParameter record = .ok l ∧
      Leads controller (controller.enter stateful).2 temporaries bytes l := by
  have hstateless : controller.enter stateless = (.ok (), (controller.enter stateless).2) := by
    decide +kernel
  have hstateful : controller.enter stateful = (.ok (), (controller.enter stateful).2) := by
    decide +kernel
  have hbytes : controller.fetch (.memory temporaries) = .ok bytes := by decide +kernel
  refine ⟨?_, ?_, ?_⟩
  · have hbinds : stateless.Binds controller bindRecord record (.memory temporaries) :=
      ⟨List.mem_cons_of_mem _ List.mem_cons_self, rfl, rfl⟩
    obtain ⟨hmemory, -, -⟩ := enter_leads (by decide) rfl hstateless rfl hbinds hbytes
    obtain ⟨l, hfollow, -, -, hleads⟩ := hmemory _ rfl ⟨rfl, trivial⟩ rfl
      (fun _ => by decide +kernel) Area.noConfusion 64 true
    exact ⟨l, hfollow, hleads⟩
  · have hbinds : stateless.Binds controller bindText text constant := ⟨List.mem_cons_self, rfl, rfl⟩
    obtain ⟨-, hcopy, -⟩ := enter_leads (by decide) rfl hstateless rfl hbinds rfl
    obtain ⟨offset, -, -, hfollow⟩ := hcopy _ _ rfl rfl
    obtain ⟨hlocation, hfetch⟩ := hfollow 24 false
    exact ⟨_, hlocation, hfetch⟩
  · have hbinds : stateful.Binds controller bindRecord record (.memory temporaries) :=
      ⟨List.mem_cons_self, rfl, rfl⟩
    obtain ⟨-, -, hinstance⟩ := enter_leads (by decide) rfl hstateful rfl hbinds hbytes
    obtain ⟨l, hfollow, -, -, hleads⟩ := hinstance _ ⟨7, ⟨0, 0⟩⟩ rfl ⟨rfl, rfl⟩ (by decide +kernel)
      (by decide) Area.noConfusion
      (fun index a hplace harea => Area.noConfusion (hplace.area_eq.symm.trans harea)) (by
        rintro index a hlt ⟨b, hb, p, hp, -, rfl, -⟩
        obtain rfl := List.mem_singleton.mp hb
        cases hp
        exact absurd hlt (by decide))
    exact ⟨l, hfollow, hleads⟩

end PlcMachine.Machine
