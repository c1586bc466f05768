import PlcMachine.Proofs.Calls.Bracket
import PlcMachine.Proofs.Machine.StackInvariant

/-! # In-out parameters passed on

An in-out parameter stands for its actual directly, as outer data or as a copy that is written back.
Whichever it is at each level of a chain of calls, what the innermost block stores arrives at the first
actual when all of them are left.
-/

namespace PlcMachine

/-- The call binds a parameter as in-out to an actual, and all its other bindings are inputs. -/
structure CallSite.Passes (site : CallSite) (actual : Operand) (p : Parameter) : Prop where
  raw : site.raw = false
  stateless : site.callee.isStateful = false
  bound : ∃ b ∈ site.bindings, b.actual = actual ∧ b.direction = .inOut ∧
    site.callee.parameter? b.parameter.name = some p ∧
      ∀ b' ∈ site.bindings, b' ≠ b → b'.direction = .input

/-- How a location of the callee stands for one of its caller, and the outputs that this takes. -/
inductive Location.Relays (l : Location) : List Outbound → Location → Prop where
  | direct (h : l.area.isFrameRelative = false) (hdi : l.area ≠ .instanceData) : Relays l [] l
  | alias (h : l.area = .localData) : Relays l [] (l.inArea .outerData)
  | copy (ht : l.area ≠ .timer) (hc : l.area ≠ .counter) (p : Parameter) (offset : BitAddress) :
      Relays l [⟨p, .memory l, .callerStack offset, l.width⟩] (.callerSlot offset l.width)

namespace Machine

variable {m m' x : Machine}

/-- The controllers differ in the contents of global memory and of the first two frames only. -/
structure Alike (m x : Machine) : Prop where
  registers : x.registers = m.registers
  blank : x.frames.map Frame.blank = m.frames.map Frame.blank
  below : x.frames.drop 2 = m.frames.drop 2
  memory : x.memory.blank = m.memory.blank

theorem Alike.readable {a : Access} {v : Value} (h : m.Alike x) (hr : m.readAccess a = .ok v) :
    ∃ u, x.readAccess a = .ok u := by
  have hblank : ({ x with specs := m.specs, pool := m.pool } : Machine).blank = m.blank := by
    unfold Machine.blank
    rw [h.registers, h.blank, h.memory]
  obtain ⟨u, hu⟩ := readable_of_blank_eq hblank hr
  exact ⟨u, hu⟩

theorem Alike.touched (h : m.Alike x) : Touched m.frames x.frames := .of_blank h.blank h.below

theorem Alike.of_store {op : Operand} {v : Value} (h : m.store op v = .ok x) : m.Alike x := by
  have hblank := blank_of_store h
  exact ⟨registers_of_blank_eq hblank, frames_of_blank_eq hblank, drop_of_store h,
    memory_of_blank_eq hblank⟩

section Calls

variable {site : CallSite} {d : Option InstanceData} {stack : LocalStack} {plan : Plan}
  {written : Machine} {actual : Operand} {p : Parameter} {l l' : Location} {v w : Value}

theorem Enters.relays (h : m.Enters site d stack plan written m') (hm : m.Reachable)
    (hp : site.Passes actual p) (hactual : m.unslot actual = .ok (.memory l))
    (hl : l.compound = false) (htemps : l.area = .localData → l.byteEnd ≤ m.reserved)
    (hv : m.readAccess l.toAccess = .ok v) :
    ∃ l', m'.slot p.index = .ok (.memory l') ∧ l'.compound = false ∧ l'.area ≠ .localData ∧
      m'.readAccess l'.toAccess = .ok v ∧ l.Relays plan.outbound l' := by
  obtain ⟨hraw, hs, b, hb, rfl, hdir, hparam, hothers⟩ := hp
  obtain ⟨cursor, op, δ, hop, hδ, hslot, hread, hout⟩ := h.delivers hm.allocates hs hraw hb hparam
  obtain rfl : op = .memory l := Except.ok.inj (hop.symm.trans hactual)
  rw [hout hothers]
  cases hδ with
  | direct hpass =>
    obtain ⟨-, hrel, hdi⟩ := Location.bindable_of_direct hpass
    refine ⟨l, hslot, hl, ?_, ?_, .direct hrel hdi⟩
    · intro ha
      rw [ha] at hrel
      cases hrel
    · rw [readAccess_of_memory_eq (h.memory_stateless hm.allocates hs) hrel hdi, hv]
  | «alias» hpass =>
    obtain ⟨rfl, harea, -⟩ := Location.local_of_alias hpass
    refine ⟨_, hslot, hl, Area.noConfusion, ?_, .alias harea⟩
    exact h.readAccess_reserved hm.allocates hs hv harea (htemps harea)
  | copy hpass hw hvalue ha =>
    cases hw
    obtain ⟨-, hfetch⟩ := resolve_eq_ok.mp hvalue
    obtain rfl := Except.ok.inj (hfetch.symm.trans hv)
    refine ⟨_, hslot, rfl, Area.noConfusion, ?_, ?_⟩
    · have hcopied := hread _ _ _ (List.mem_singleton_self _)
      rwa [(canonical_of_readAccess hfetch).2] at hcopied
    · rw [Planning.returned_of_isOutbound (by rw [hdir]; rfl)]
      refine .copy ?_ ?_ _ _
      all_goals
        intro hcell
        have hdirect : l.passing = .direct := by simp [Location.passing, hcell]
        cases hdirect.symm.trans hpass
  | pointerToCopy hpass => exact absurd hpass l.passing_ne_pointerToCopy
  | pointer hpass =>
    exact absurd (hl.symm.trans (Location.compound_of_pointer hpass)) Bool.noConfusion

theorem Enters.alike_leave (h : m.Enters site d stack plan written m') (hraw : site.raw = false)
    (hx : m'.Alike x) {f : Frame} {rest : List Frame} (hf : x.frames = f :: rest) :
    m.Alike x.leave.2 := by
  obtain ⟨-, hregisters, hblank, hbelow⟩ := h.leave hx.touched
  refine ⟨hregisters.trans (by rw [hraw]; rfl), hblank, hbelow, ?_⟩
  calc x.leave.2.memory.blank = x.memory.blank := blank_memory_leave hf
    _ = m'.memory.blank := hx.memory
    _ = m.memory.blank := h.blank_memory

theorem Enters.leave_relayed (h : m.Enters site d stack plan written m') (hraw : site.raw = false)
    (hrel : l.Relays plan.outbound l') (hv : m.readAccess l.toAccess = .ok v) (hx : m'.Alike x)
    (hw : x.readAccess l'.toAccess = .ok w) :
    ∃ y, x.leave = (.ok (), y) ∧ m.Alike y ∧ y.readAccess l.toAccess = .ok w := by
  obtain ⟨f, rest, hf, hfb, -⟩ := Frame.cons_of_blank_eq hx.blank h.frames
  have hraw' : f.raw = false := (congrArg Frame.raw hfb :).trans hraw
  have hout : f.outbound = plan.outbound := (congrArg Frame.outbound hfb :)
  obtain ⟨failures, left, hleft, -, hleave⟩ := leave_eq hf
  have halike : m.Alike x.leave.2 := h.alike_leave hraw hx hf
  -- The actual could be read before the call, and contents do not decide whether it can.
  obtain ⟨u, hu⟩ : ∃ u, (x.returned f rest).readAccess l.toAccess = .ok u := by
    obtain ⟨u, hu⟩ := halike.readable hv
    rw [hleave, readAccess_discard] at hu
    exact readable_of_blank_eq hleft.symm hu
  have hnil : plan.outbound = [] → (x.returned f rest).readAccess l.toAccess = .ok w →
      ∃ y, x.leave = (.ok (), y) ∧ m.Alike y ∧ y.readAccess l.toAccess = .ok w := by
    intro hnil hread
    have hok := leave_of_outbound_nil hf (hout.trans hnil)
    refine ⟨_, hok, ?_, ?_⟩
    · rwa [hok] at halike
    · rwa [readAccess_discard]
  generalize houtbound : plan.outbound = outbound at hrel
  cases hrel with
  | direct hglobal hdi =>
    have hmem : (x.returned f rest).memory = x.memory := rfl
    exact hnil houtbound ((readAccess_of_memory_eq hmem hglobal hdi).trans hw)
  | «alias» harea =>
    obtain ⟨⟨area, offset, width⟩, compound⟩ := l
    obtain rfl : area = .localData := harea
    exact hnil houtbound (readAccess_local_of_outer hf rfl hw)
  | copy _ _ p offset =>
    obtain ⟨hfits, hcanonical⟩ := canonical_of_readAccess hw
    obtain ⟨stored, hstored⟩ := exists_writeAccess hu hfits hcanonical
    have hread : ({ x with frames := rest } : Machine).readAccess
        ⟨.localData, offset, l.width⟩ = .ok w := readAccess_local_of_outer hf rfl hw
    have hok := leave_of_outbound_singleton hf hraw' (hout.trans houtbound) hread hstored
    refine ⟨_, hok, ?_, ?_⟩
    · rwa [hok] at halike
    · rw [readAccess_discard, readAccess_of_writeAccess hstored, hcanonical]

end Calls

/-- A chain of calls: the first passes an operand of the caller as in-out, each of the others passes on
the parameter of the one before. -/
inductive InOutChain (m₀ : Machine) (actual : Operand) : Nat → Machine → UInt32 → Prop where
  | first {site : CallSite} {p : Parameter} {m : Machine} (hp : site.Passes actual p)
      (h : m₀.enter site = (.ok (), m)) : InOutChain m₀ actual 1 m p.index
  | next {n : Nat} {m m' : Machine} {i : UInt32} {site : CallSite} {p : Parameter}
      (hchain : InOutChain m₀ actual n m i) (hp : site.Passes (.slot i) p)
      (h : m.enter site = (.ok (), m')) : InOutChain m₀ actual (n + 1) m' p.index

inductive LeavesOk : Nat → Machine → Machine → Prop where
  | zero (m : Machine) : LeavesOk 0 m m
  | succ {n : Nat} {m m' m'' : Machine} (h : m.leave = (.ok (), m')) (hrest : LeavesOk n m' m'') :
      LeavesOk (n + 1) m m''

variable {m₀ : Machine} {l : Location} {v₀ : Value} {n : Nat} {i : UInt32}

/-- The innermost parameter stands for a location that has the value of the first actual, and what it
has when the blocks are left arrives there. -/
theorem InOutChain.relays (hm : m₀.Reachable) (hl : l.compound = false)
    (hv : m₀.fetch (.memory l) = .ok v₀) (htemps : l.area = .localData → l.byteEnd ≤ m₀.reserved)
    (h : InOutChain m₀ (.memory l) n m i) :
    m.Reachable ∧ ∃ l', m.slot i = .ok (.memory l') ∧ l'.compound = false ∧ l'.area ≠ .localData ∧
      m.readAccess l'.toAccess = .ok v₀ ∧
      ∀ x w, m.Alike x → x.readAccess l'.toAccess = .ok w →
        ∃ y, LeavesOk n x y ∧ y.fetch (.memory l) = .ok w := by
  induction h with
  | first hp henter =>
    obtain ⟨d, stack, plan, written, henters⟩ := enters_of_ok henter
    obtain ⟨l', hslot, hl', harea, hread, hrel⟩ := henters.relays hm hp rfl hl htemps hv
    refine ⟨hm.enter henter, l', hslot, hl', harea, hread, ?_⟩
    intro x w hx hw
    obtain ⟨y, hleave, -, hy⟩ := henters.leave_relayed hp.raw hrel hv hx hw
    exact ⟨y, .succ hleave (.zero y), hy⟩
  | next _ hp henter ih =>
    obtain ⟨hreachable, l', hslot, hl', harea, hread, hleaves⟩ := ih
    obtain ⟨d, stack, plan, written, henters⟩ := enters_of_ok henter
    obtain ⟨l'', hslot', hl'', harea', hread', hrel⟩ :=
      henters.relays hreachable hp (unslot_of_slot hslot) hl' (fun ha => absurd ha harea) hread
    refine ⟨hreachable.enter henter, l'', hslot', hl'', harea', hread', ?_⟩
    intro x w hx hw
    -- One return brings the value to the parameter before, the others are those of the shorter chain.
    obtain ⟨y, hleave, halike, hy⟩ := henters.leave_relayed hp.raw hrel hread hx hw
    obtain ⟨z, hz, hfetch⟩ := hleaves y w halike hy
    exact ⟨z, .succ hleave hz, hfetch⟩

/-- An in-out parameter passed on through any chain of stateless calls has the value of the actual, and
what is stored into it is in the actual once all blocks are left, which none of them fails to do. -/
theorem fetch_leaves_inOutChain (hm : m₀.Reachable) (hl : l.compound = false)
    (hv : m₀.fetch (.memory l) = .ok v₀) (htemps : l.area = .localData → l.byteEnd ≤ m₀.reserved)
    (h : InOutChain m₀ (.memory l) n m i) :
    m.fetch (.slot i) = .ok v₀ ∧
      ∀ v x, m.store (.slot i) v = .ok x →
        ∃ y, LeavesOk n x y ∧ y.fetch (.memory l) = .ok v.canonical := by
  obtain ⟨-, l', hslot, -, -, hread, hleaves⟩ := h.relays hm hl hv htemps
  constructor
  · rw [fetch_slot hslot, hread]
  · intro v x hstore
    have hwrite : m.writeAccess l'.toAccess v = .ok x := (store_slot hslot).symm.trans hstore
    exact hleaves x v.canonical (.of_store hstore) (readAccess_of_writeAccess hwrite)

namespace InOutChain

open Bracketed

theorem passes_site (actual : Operand) : (site actual).Passes actual (.scalar "x" 0 ⟨0, 0⟩ 8) where
  raw := rfl
  stateless := rfl
  bound := ⟨_, List.mem_singleton_self _, rfl, rfl, rfl,
    fun _ hb hne => absurd (List.mem_singleton.mp hb) hne⟩

/-- The controllers in the three blocks of a chain of calls. -/
def outer : Machine := (caller.enter (site temporary)).2
def middle : Machine := (outer.enter (site (.slot 0))).2
def inner : Machine := (middle.enter (site (.slot 0))).2

theorem chain_inner : InOutChain caller temporary 3 inner 0 := by
  have houter : caller.enter (site temporary) = (.ok (), outer) := by decide +kernel
  have hmiddle : outer.enter (site (.slot 0)) = (.ok (), middle) := by decide +kernel
  have hinner : middle.enter (site (.slot 0)) = (.ok (), inner) := by decide +kernel
  exact .next (.next (.first (passes_site _) houter) (passes_site _) hmiddle) (passes_site _) hinner

end InOutChain

open Bracketed InOutChain in
/-- The first block finds the actual in outer data, the two others get copies. -/
theorem fetch_leaves_inOutChain_inner : inner.fetch (.slot 0) = .ok (.scalar 7) ∧
    ∃ x y, inner.store (.slot 0) (.scalar 9) = .ok x ∧ LeavesOk 3 x y ∧
      y.fetch temporary = .ok (.scalar 9) := by
  have hreachable : caller.Reachable := (Reachable.start _ _).run _
  obtain ⟨hfetch, hleaves⟩ := fetch_leaves_inOutChain hreachable rfl
    (by decide +kernel : caller.fetch temporary = .ok (.scalar 7)) (by decide +kernel) chain_inner
  refine ⟨hfetch, ?_⟩
  cases hstore : inner.store (.slot 0) (.scalar 9) with
  | error e =>
    have hok : (inner.store (.slot 0) (.scalar 9)).toBool = true := by decide +kernel
    rw [hstore] at hok
    cases hok
  | ok x =>
    obtain ⟨y, hy, hread⟩ := hleaves _ x hstore
    exact ⟨x, y, rfl, hy, hread⟩

end Machine

end PlcMachine
