import PlcMachine.Proofs.Machine.Dimensions

/-! # How many local stacks a controller holds

A local stack belongs to a frame or waits in the pool. No request makes more of them than the deepest
call that is configured needs, so none accumulate, whether calls succeed or fail.
-/

namespace PlcMachine

def Specs.deepest (all : List Specs) : Nat := all.foldr (fun specs n => max specs.maxCallDepth.toNat n) 0

theorem Specs.le_deepest {specs : Specs} {all : List Specs} (h : specs ∈ all) :
    specs.maxCallDepth.toNat ≤ deepest all := by
  induction all with
  | nil => cases h
  | cons s all ih =>
    rcases List.mem_cons.mp h with rfl | h
    · exact Nat.le_max_left _ _
    · exact Nat.le_trans (ih h) (Nat.le_max_right _ _)

namespace Machine

variable {m m' : Machine} {site : CallSite} {n : Nat}

/-- The dimensions that were in force at any time, the first ones first. -/
def configured (specs : Specs) (ops : List Operation) : List Specs := specs :: ops.filterMap accepted?

theorem configured_ne_nil (specs : Specs) (ops : List Operation) : configured specs ops ≠ [] :=
  List.cons_ne_nil _ _

def localStacks (m : Machine) : Nat := m.depth + m.pool.retained

/-- The pool keeps local stacks of the size in force, and with those of the frames there are at most `n`. -/
structure Stocked (m : Machine) (n : Nat) : Prop where
  depth_le : m.depth ≤ n
  pool : m.pool.Stocked m.specs.localBytes (n - m.depth)

theorem Stocked.localStacks_le (h : m.Stocked n) : m.localStacks ≤ n := by
  have hretained := h.pool.retained_le
  have hdepth := h.depth_le
  unfold localStacks
  omega

theorem Stocked.of_localStacks_le (h : m.Stocked n) {n' : Nat} (hn : m.localStacks ≤ n') :
    m.Stocked n' where
  depth_le := Nat.le_trans (Nat.le_add_right _ _) hn
  pool := ⟨h.pool.capacity_eq, h.pool.uniform, Nat.le_sub_of_add_le (Nat.add_comm _ _ ▸ hn)⟩

theorem depth_eq_length_capacities (m : Machine) : m.depth = m.capacities.length := by
  rw [depth, capacities, List.length_map]

theorem Stocked.congr (h : m.Stocked n) (hspecs : m'.specs = m.specs) (hpool : m'.pool = m.pool)
    (hdepth : m'.depth = m.depth) : m'.Stocked n := by
  obtain ⟨hle, hstocked⟩ := h
  rw [← hdepth] at hle hstocked
  rw [← hspecs, ← hpool] at hstocked
  exact ⟨hle, hstocked⟩

theorem pool_of_enter_error {e : CallError} (h : m.enter site = (.error e, m')) : m'.pool = m.pool ∨
    m.depth < m.specs.maxCallDepth.toNat ∧ ∃ s, m'.pool = (m.pool.acquire m.id).2.release m.id s := by
  have hrelease : ∀ (m₁ : Machine) (s : LocalStack),
      (({ m₁ with pool := (m.pool.acquire m.id).2 } : Machine).release s).pool =
        (m.pool.acquire m.id).2.release m.id s := by
    intro m₁ s
    exact congrArg ((m.pool.acquire m.id).2.release · s) (m.pool.owner_acquire m.id)
  unfold enter at h
  split_ifs at h with hdepth
  · cases h
    exact .inl rfl
  · rw [Nat.not_le] at hdepth
    cases hinst : m.instanceFor site with
    | error e =>
      rw [hinst] at h
      cases h
      exact .inl rfl
    | ok d =>
      refine .inr ⟨hdepth, ?_⟩
      rw [hinst] at h
      dsimp only at h
      unfold enterOn at h
      split at h
      · cases h
        exact ⟨_, hrelease _ _⟩
      · split at h
        · cases h
          exact ⟨_, hrelease _ _⟩
        · unfold commit at h
          rw [makeWrites_pool] at h
          split at h
          · next hwrites =>
            obtain ⟨-, rfl⟩ := Prod.mk.inj hwrites
            cases h
            exact ⟨_, hrelease _ _⟩
          · cases h

theorem depth_of_enter_error {e : CallError} (h : m.enter site = (.error e, m')) :
    m'.depth = m.depth := by
  obtain ⟨_, _, _, _, m₁, he, -⟩ | ⟨_, pool, he⟩ | ⟨_, _, _, _, written, pool, -, hw, he⟩ :=
    m.enter_cases site
  · cases he.symm.trans h
  · cases he.symm.trans h
    rfl
  · cases he.symm.trans h
    have hcapacities : written.capacities = m.capacities :=
      capacities_of_blank_eq (blank_of_makeWrites hw)
    rw [m.depth_eq_length_capacities, ← hcapacities, ← depth_eq_length_capacities]
    rfl

namespace Stocked

theorem enter (h : m.Stocked n) (hn : m.depth < m.specs.maxCallDepth.toNat → m.depth < n)
    (site : CallSite) : (m.enter site).2.Stocked n := by
  have hacquired := h.pool.acquire
  cases he : m.enter site with
  | mk r m' =>
    have hspecs : m'.specs = m.specs := by
      have hkeeps := (m.enter_keeps site).1
      rwa [he] at hkeeps
    cases r with
    | ok =>
      obtain ⟨d, stack, plan, written, henters⟩ := enters_of_ok he
      have hlt := hn henters.depth_lt
      have hpool : m'.pool = (m.pool.acquire m.id).2 := by rw [henters.machine]
      refine ⟨henters.depth_eq ▸ hlt, ?_⟩
      rw [hspecs, hpool, henters.depth_eq]
      exact hacquired
    | error e =>
      have hdepth := depth_of_enter_error he
      rcases pool_of_enter_error he with hpool | ⟨hlt, s, hpool⟩
      · exact h.congr hspecs hpool hdepth
      · have hlt := hn hlt
        refine ⟨hdepth ▸ h.depth_le, ?_⟩
        rw [hspecs, hpool, hdepth]
        exact (hacquired.release m.id s).mono (by omega)

theorem leave (h : m.Stocked n) : m.leave.2.Stocked n := by
  obtain ⟨hspecs, hcapacities⟩ := m.leave_keeps
  have hdepth : m.leave.2.depth = m.depth - 1 := by
    rw [depth_eq_length_capacities, hcapacities, List.length_tail, ← depth_eq_length_capacities]
  cases hf : m.frames with
  | nil => rwa [leave_of_nil hf]
  | cons f rest =>
    have hpos : m.depth = rest.length + 1 := congrArg List.length hf
    have hle := h.depth_le
    refine ⟨by omega, ?_⟩
    rw [hspecs, hdepth, pool_leave hf]
    exact (h.pool.release m.id f.stack).mono (by omega)

theorem cleared (h : m.Stocked n) : m.cleared.Stocked n := by
  refine ⟨Nat.zero_le n, ?_⟩
  have hreleased := h.pool.foldl_release m.id (m.frames.map (·.stack))
  rw [List.length_map] at hreleased
  exact hreleased.mono (Nat.le_of_eq (Nat.sub_add_cancel h.depth_le))

theorem begin (h : m.Stocked n) (hn : 0 < m.specs.maxCallDepth.toNat → 0 < n) (block : Block) :
    (m.begin block).2.Stocked n := by
  rw [begin_eq_enter]
  exact h.cleared.enter hn _

end Stocked

/-- A request keeps the number of local stacks within the deepest call that was ever configured. -/
theorem Stocked.after (h : m.Stocked n) (hn : m.specs.maxCallDepth.toNat ≤ n) (op : Operation) :
    (m.after op).Stocked n := by
  cases m.manages op with
  | keep _ hspecs hpool hcapacities =>
    refine h.congr hspecs hpool ?_
    rw [depth_eq_length_capacities, hcapacities, ← depth_eq_length_capacities]
  | enter site => exact h.enter (fun hlt => Nat.lt_of_lt_of_le hlt hn) site
  | leave => exact h.leave
  | begin block => exact h.begin (fun hlt => Nat.lt_of_lt_of_le hlt hn) block
  | @reconfigure specs _ _ hm =>
    rw [hm]
    exact ⟨h.depth_le, Pool.stocked_reconfigure _ _ _⟩

theorem configured_suffix (m : Machine) (op : Operation) (ops : List Operation) :
    configured (m.after op).specs ops <:+ configured m.specs (op :: ops) := by
  unfold configured
  rw [specs_after_eq, List.filterMap_cons]
  cases accepted? op with
  | none => exact List.suffix_rfl
  | some specs => exact List.suffix_cons _ _

theorem specs_run (m : Machine) (ops : List Operation) :
    (m.run ops).specs = (configured m.specs ops).getLast (configured_ne_nil _ _) := by
  induction ops generalizing m with
  | nil => rfl
  | cons op ops ih =>
    exact (ih (m.after op)).trans ((m.configured_suffix op ops).getLast (configured_ne_nil _ _))

theorem Stocked.run (h : m.Stocked n) (ops : List Operation)
    (hn : ∀ specs ∈ configured m.specs ops, specs.maxCallDepth.toNat ≤ n) : (m.run ops).Stocked n := by
  induction ops generalizing m with
  | nil => exact h
  | cons op ops ih =>
    have hforce : m.specs.maxCallDepth.toNat ≤ n := hn _ List.mem_cons_self
    exact ih (h.after hforce op) fun specs hs => hn specs ((m.configured_suffix op ops).subset hs)

theorem stocked_ofSpecs (id : MachineId) (specs : Specs) (n : Nat) : (ofSpecs id specs).Stocked n :=
  ⟨Nat.zero_le n, Pool.stocked_empty _ _ _⟩

/-- A call that fails leaves one local stack in the pool where there was none, and never adds more. -/
theorem Stocked.retained_of_enter_error {e : CallError} (hm : m.Stocked n)
    (h : m.enter site = (.error e, m')) : m'.pool.retained ≤ max m.pool.retained 1 := by
  have hdepth := depth_of_enter_error h
  have hle : m.localStacks ≤ m.depth + max m.pool.retained 1 :=
    Nat.add_le_add_left (Nat.le_max_left _ _) _
  have hafter := (hm.of_localStacks_le hle).enter
    (fun _ => Nat.lt_add_of_pos_right (Nat.le_max_right _ _)) site
  rw [h] at hafter
  have hretained : m'.depth + m'.pool.retained ≤ m.depth + max m.pool.retained 1 :=
    hafter.localStacks_le
  omega

theorem Stocked.localStacks_begin (hm : m.Stocked n) (block : Block) :
    (m.begin block).2.localStacks ≤ max m.localStacks 1 := by
  have hafter := (hm.of_localStacks_le (Nat.le_max_left m.localStacks 1)).begin
    (fun _ => Nat.le_max_right _ _) block
  exact hafter.localStacks_le

theorem capacities_of_begin {block : Block} (h : m.begin block = (.ok (), m')) :
    m'.capacities = [m.specs.localBytes.toNat] := by
  rw [begin_eq_enter] at h
  obtain ⟨d, stack, plan, written, henters⟩ := enters_of_ok h
  exact henters.capacities_eq

/-- After any requests the pool is set to the size in force and keeps only local stacks of that size,
every frame gets a local stack of the size in force, and there are never more local stacks than the
deepest call that was configured so far. Neither calls that fail nor new scan cycles add to them. -/
theorem localStacks_le_deepest (id : MachineId) (specs : Specs) (ops : List Operation) :
    let m := (ofSpecs id specs).run ops
    m.specs = (configured specs ops).getLast (configured_ne_nil specs ops) ∧
      m.pool.capacity = m.specs.localBytes ∧
      (∀ s ∈ m.pool.free, s.capacity = m.specs.localBytes.toNat) ∧
      m.depth + m.pool.retained ≤ Specs.deepest (configured specs ops) ∧
      (∀ site m', m.enter site = (.ok (), m') →
        m'.capacities = m.specs.localBytes.toNat :: m.capacities) ∧
      (∀ block m', m.begin block = (.ok (), m') → m'.capacities = [m.specs.localBytes.toNat]) ∧
      (∀ site e m', m.enter site = (.error e, m') →
        m'.depth = m.depth ∧ m'.pool.retained ≤ max m.pool.retained 1) ∧
      ∀ block, (m.begin block).2.localStacks ≤ max m.localStacks 1 := by
  intro m
  have hm : m.Stocked (Specs.deepest (configured specs ops)) :=
    (stocked_ofSpecs id specs _).run ops fun _ hs => Specs.le_deepest hs
  refine ⟨specs_run _ ops, hm.pool.capacity_eq, hm.pool.uniform, hm.localStacks_le, ?_, ?_, ?_, ?_⟩
  · intro site m' h
    obtain ⟨d, stack, plan, written, henters⟩ := enters_of_ok h
    exact henters.capacities_eq
  · intro block m' h
    exact capacities_of_begin h
  · intro site e m' h
    exact ⟨depth_of_enter_error h, hm.retained_of_enter_error h⟩
  · exact hm.localStacks_begin

namespace Retention

def block : Block := ⟨.organization, 1, "", 2, []⟩

/-- A controller that is set to fewer frames while it is in a call, which it then leaves. -/
def requests : List Operation :=
  [.begin block, .enter (.unconditional block), .reconfigure ⟨4, 1, 1, 1, 1, 1, 1⟩, .leave]

end Retention

open Retention in
/-- The bound is reached, where the dimensions in force admit one frame only. -/
theorem localStacks_le_deepest_reached : ∃ m, m = (ofSpecs ⟨0⟩ ⟨4, 2, 1, 1, 1, 1, 1⟩).run requests ∧
    m.specs.maxCallDepth = 1 ∧ m.depth + m.pool.retained = 2 ∧
      m.depth + m.pool.retained ≤ Specs.deepest (configured ⟨4, 2, 1, 1, 1, 1, 1⟩ requests) := by
  obtain ⟨-, -, -, hle, -⟩ := localStacks_le_deepest ⟨0⟩ ⟨4, 2, 1, 1, 1, 1, 1⟩ requests
  exact ⟨_, rfl, by decide +kernel, by decide +kernel, hle⟩

end Machine

end PlcMachine
