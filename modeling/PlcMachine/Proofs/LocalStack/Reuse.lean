import Mathlib.Data.List.Forall2
import Mathlib.Order.Bounds.Basic
import PlcMachine.Proofs.LocalStack.Pool

/-! # Which local stack a pool hands out

Requests to a pool are numbered in order. A local stack that is kept waits under the number of the request
that gave it back, until it is handed out or a new capacity flushes it. The owner always gets the one with
the highest number, as it was given back.
-/

namespace PlcMachine.Pool

/-- What machines ask of a pool. A machine may do anything with a local stack that it holds, so it can give
back any at all. -/
inductive Request where
  | acquire (machine : MachineId)
  | release (machine : MachineId) (stack : LocalStack)
  | reconfigure (capacity : UInt32)
deriving DecidableEq, Repr

def Request.capacity? : Request → Option UInt32
  | .reconfigure capacity => some capacity
  | _ => none

def after (p : Pool) : Request → Pool
  | .acquire machine => (p.acquire machine).2
  | .release machine s => p.release machine s
  | .reconfigure capacity => p.reconfigure capacity

/-- A pool that was created empty, and all that is asked of it. -/
structure History where
  owner : MachineId
  capacity : UInt32
  requests : List Request

namespace History

variable (h : History)

def pool (n : Nat) : Pool := (h.requests.take n).foldl after (.empty h.owner h.capacity)

/-- The capacity in force after the first `n` requests: the one that was set last. -/
def capacityAt (n : Nat) : UInt32 :=
  (h.requests.take n).foldl (fun capacity r => r.capacity?.getD capacity) h.capacity

/-- In request `i` the owner gives back the local stack, of the capacity that is then in force. -/
def Retained (i : Nat) (s : LocalStack) : Prop :=
  h.requests[i]? = some (.release h.owner s) ∧ s.capacity = (h.capacityAt i).toNat

/-- One of the first `n` requests sets a capacity after request `i`. -/
def Flushed (n i : Nat) : Prop := ∃ j < n, i < j ∧ ∃ capacity, h.requests[j]? = some (.reconfigure capacity)

/-- One of the first `n` requests hands out the local stack of request `i`: the owner asks, and of all that
were retained by then and neither flushed nor handed out since, that one is the last. -/
def HandedOut : Nat → Nat → Prop
  | 0, _ => False
  | n + 1, i => HandedOut n i ∨ h.requests[n]? = some (.acquire h.owner) ∧
      IsGreatest {j | j < n ∧ (∃ s, h.Retained j s) ∧ ¬ h.Flushed n j ∧ ¬ HandedOut n j} i

/-- After the first `n` requests, the local stack of request `i` has been retained and neither flushed nor
handed out since. -/
def Waiting (n i : Nat) : Prop :=
  i < n ∧ (∃ s, h.Retained i s) ∧ ¬ h.Flushed n i ∧ ¬ h.HandedOut n i

variable {h} {n i : Nat} {r : Request}

theorem pool_succ (hr : h.requests[n]? = some r) : h.pool (n + 1) = (h.pool n).after r := by
  simp [pool, List.take_add_one, hr]

theorem pool_succ_of_none (hr : h.requests[n]? = none) : h.pool (n + 1) = h.pool n := by
  simp [pool, List.take_add_one, hr]

theorem capacityAt_succ (hr : h.requests[n]? = some r) :
    h.capacityAt (n + 1) = r.capacity?.getD (h.capacityAt n) := by
  simp [capacityAt, List.take_add_one, hr]

theorem capacityAt_succ_of_none (hr : h.requests[n]? = none) : h.capacityAt (n + 1) = h.capacityAt n := by
  simp [capacityAt, List.take_add_one, hr]

theorem owner_pool (h : History) (n : Nat) : (h.pool n).owner = h.owner := by
  induction n with
  | zero => rfl
  | succ n ih =>
    cases hr : h.requests[n]? with
    | none => rw [pool_succ_of_none hr, ih]
    | some r =>
      rw [pool_succ hr, ← ih]
      cases r with
      | acquire machine => exact owner_acquire _ machine
      | release machine s => exact owner_release _ machine s
      | reconfigure capacity => rfl

theorem acquire_owner (p : Pool) : p.acquire p.owner =
    (p.free.head?.getD (.zeroed p.capacity), { p with free := p.free.tail }) := by
  rw [Pool.acquire, if_pos rfl]
  obtain ⟨owner, capacity, free⟩ := p
  cases free <;> rfl

theorem acquire_of_ne {p : Pool} {machine : MachineId} (hm : machine ≠ p.owner) :
    p.acquire machine = (.zeroed p.capacity, p) := if_neg hm

theorem release_of_ne {p : Pool} {machine : MachineId} (hm : machine ≠ p.owner) (s : LocalStack) :
    p.release machine s = p := if_neg fun h => hm h.1

theorem stocked_pool (h : History) (n : Nat) : (h.pool n).Stocked (h.capacityAt n) n := by
  induction n with
  | zero => exact stocked_empty _ _ _
  | succ n ih =>
    cases hr : h.requests[n]? with
    | none =>
      rw [pool_succ_of_none hr, capacityAt_succ_of_none hr]
      exact ih.mono (Nat.le_succ n)
    | some r =>
      rw [pool_succ hr, capacityAt_succ hr]
      cases r with
      | acquire machine =>
        by_cases hm : machine = (h.pool n).owner
        · subst hm
          exact ih.acquire.mono (by omega)
        · rw [after, acquire_of_ne hm]
          exact ih.mono (Nat.le_succ n)
      | release machine s => exact ih.release machine s
      | reconfigure capacity => exact stocked_reconfigure _ _ _

theorem handedOut_lt (hi : h.HandedOut n i) : i < n := by
  induction n with
  | zero => exact hi.elim
  | succ n ih =>
    rcases hi with hi | ⟨-, hi, -⟩
    · exact Nat.lt_succ_of_lt (ih hi)
    · exact Nat.lt_succ_of_lt hi.1

theorem waiting_succ : h.Waiting (n + 1) i ↔
    (h.Waiting n i ∧ (∀ capacity, h.requests[n]? ≠ some (.reconfigure capacity)) ∧
      ¬ (h.requests[n]? = some (.acquire h.owner) ∧ IsGreatest {j | h.Waiting n j} i)) ∨
    i = n ∧ ∃ s, h.Retained n s := by
  constructor
  · rintro ⟨hlt, hretained, hflushed, hout⟩
    rcases Nat.lt_succ_iff_lt_or_eq.mp hlt with hlt | rfl
    · refine .inl ⟨⟨hlt, hretained, ?_, ?_⟩, ?_, ?_⟩
      · rintro ⟨j, hj, hij, hr⟩
        exact hflushed ⟨j, Nat.lt_succ_of_lt hj, hij, hr⟩
      · exact fun ho => hout (.inl ho)
      · exact fun capacity hr => hflushed ⟨n, Nat.lt_succ_self n, hlt, capacity, hr⟩
      · exact fun ho => hout (.inr ho)
    · exact .inr ⟨rfl, hretained⟩
  · rintro (⟨⟨hlt, hretained, hflushed, hout⟩, hreconfigure, hgreatest⟩ | ⟨rfl, hretained⟩)
    · refine ⟨Nat.lt_succ_of_lt hlt, hretained, ?_, ?_⟩
      · rintro ⟨j, hj, hij, capacity, hr⟩
        rcases Nat.lt_succ_iff_lt_or_eq.mp hj with hj | rfl
        · exact hflushed ⟨j, hj, hij, capacity, hr⟩
        · exact hreconfigure capacity hr
      · rintro (ho | ho)
        · exact hout ho
        · exact hgreatest ho
    · refine ⟨Nat.lt_succ_self i, hretained, ?_, ?_⟩
      · rintro ⟨j, hj, hij, -⟩
        omega
      · rintro (ho | ⟨-, ho, -⟩)
        · exact Nat.lt_irrefl i (handedOut_lt ho)
        · exact Nat.lt_irrefl i ho.1

/-- The local stacks kept are those that wait, the last one retained first. -/
def Keeps (h : History) (n : Nat) (free : List LocalStack) : Prop :=
  ∃ is : List Nat, is.Pairwise (· > ·) ∧ (∀ i, i ∈ is ↔ h.Waiting n i) ∧
    List.Forall₂ h.Retained is free

theorem isGreatest_of_sorted {is : List Nat} {P : Nat → Prop} (hsorted : (i :: is).Pairwise (· > ·))
    (hmem : ∀ j, j ∈ i :: is ↔ P j) : IsGreatest {j | P j} i := by
  refine ⟨(hmem i).mp List.mem_cons_self, ?_⟩
  intro j hj
  rcases List.mem_cons.mp ((hmem j).mpr hj) with rfl | hj
  · exact Nat.le_refl j
  · exact Nat.le_of_lt (List.rel_of_pairwise_cons hsorted hj)

theorem Keeps.of_idle {free : List LocalStack} (hk : h.Keeps n free)
    (hretained : ∀ s, ¬ h.Retained n s) (hacquire : h.requests[n]? ≠ some (.acquire h.owner))
    (hreconfigure : ∀ capacity, h.requests[n]? ≠ some (.reconfigure capacity)) :
    h.Keeps (n + 1) free := by
  obtain ⟨is, hsorted, hmem, hfree⟩ := hk
  refine ⟨is, hsorted, ?_, hfree⟩
  intro i
  rw [hmem, waiting_succ]
  simp [hretained, hacquire, hreconfigure]

theorem Keeps.acquire {free : List LocalStack} (hk : h.Keeps n free)
    (hr : h.requests[n]? = some (.acquire h.owner)) : h.Keeps (n + 1) free.tail := by
  obtain ⟨is, hsorted, hmem, hfree⟩ := hk
  have hnone (s : LocalStack) : ¬ h.Retained n s := by
    rintro ⟨hs, -⟩
    cases hr.symm.trans hs
  cases hfree with
  | nil =>
    refine ⟨[], .nil, ?_, .nil⟩
    intro i
    rw [waiting_succ, ← hmem]
    simp [hnone]
  | @cons i s is free hi hfree =>
    have hgreatest := isGreatest_of_sorted hsorted hmem
    refine ⟨is, hsorted.of_cons, ?_, hfree⟩
    intro j
    rw [waiting_succ, ← hmem, List.mem_cons]
    constructor
    · intro hj
      refine .inl ⟨.inr hj, by simp [hr], ?_⟩
      rintro ⟨-, hj'⟩
      have hlt : j < i := List.rel_of_pairwise_cons hsorted hj
      exact Nat.lt_irrefl i (hgreatest.unique hj' ▸ hlt)
    · rintro (⟨rfl | hj, -, hout⟩ | ⟨rfl, s, hs⟩)
      · exact absurd ⟨hr, hgreatest⟩ hout
      · exact hj
      · exact absurd hs (hnone s)

theorem Keeps.release {free : List LocalStack} (hk : h.Keeps n free) {s : LocalStack}
    (hs : h.Retained n s) : h.Keeps (n + 1) (s :: free) := by
  obtain ⟨is, hsorted, hmem, hfree⟩ := hk
  refine ⟨n :: is, List.pairwise_cons.mpr ⟨?_, hsorted⟩, ?_, .cons hs hfree⟩
  · intro i hi
    exact ((hmem i).mp hi).1
  · intro i
    rw [waiting_succ, List.mem_cons, hmem]
    constructor
    · rintro (rfl | hi)
      · exact .inr ⟨rfl, s, hs⟩
      · exact .inl ⟨hi, by simp [hs.1], by simp [hs.1]⟩
    · rintro (⟨hi, -⟩ | ⟨rfl, -⟩)
      · exact .inr hi
      · exact .inl rfl

theorem keeps_of_reconfigure {capacity : UInt32}
    (hr : h.requests[n]? = some (.reconfigure capacity)) : h.Keeps (n + 1) [] := by
  refine ⟨[], .nil, ?_, .nil⟩
  intro i
  rw [waiting_succ]
  simp [Retained, hr]

theorem keeps_pool (h : History) (n : Nat) : h.Keeps n (h.pool n).free := by
  induction n with
  | zero =>
    refine ⟨[], .nil, ?_, .nil⟩
    intro i
    simp [Waiting]
  | succ n ih =>
    have howner := h.owner_pool n
    have hcapacity := (h.stocked_pool n).capacity_eq
    cases hr : h.requests[n]? with
    | none =>
      rw [pool_succ_of_none hr]
      exact ih.of_idle (by simp [Retained, hr]) (by simp [hr]) (by simp [hr])
    | some r =>
      rw [pool_succ hr]
      cases r with
      | acquire machine =>
        by_cases hm : machine = (h.pool n).owner
        · rw [after, hm, acquire_owner]
          exact ih.acquire (by rw [hr, hm, howner])
        · -- A stranger neither finds nor leaves anything.
          rw [after, acquire_of_ne hm]
          refine ih.of_idle (by simp [Retained, hr]) ?_ (by simp [hr])
          rw [hr, ← howner]
          simpa using hm
      | release machine s =>
        rw [after, Pool.release, howner, hcapacity]
        split_ifs with hkept
        · exact ih.release ⟨by rw [hr, hkept.1], hkept.2⟩
        · refine ih.of_idle ?_ (by simp [hr]) (by simp [hr])
          rintro s' ⟨hs', hsize⟩
          obtain ⟨rfl, rfl⟩ := Request.release.inj (Option.some.inj (hr.symm.trans hs'))
          exact hkept ⟨rfl, hsize⟩
      | reconfigure capacity => exact keeps_of_reconfigure hr

/-- Whatever machines ask of a pool and do with the local stacks that they hold, each local stack handed out
is of the capacity in force, and requests of strangers leave what is kept. The owner gets the local stack of
the last request whose local stack was retained and neither handed out nor flushed since, as it was given
back, or a zeroed one if there is none. -/
theorem acquire_pool (h : History) (n : Nat) :
    (h.pool n).capacity = h.capacityAt n ∧
    (∀ machine, ((h.pool n).acquire machine).1.capacity = (h.capacityAt n).toNat) ∧
    (∀ machine, machine ≠ h.owner → ((h.pool n).acquire machine).2.free = (h.pool n).free ∧
      ∀ s, ((h.pool n).release machine s).free = (h.pool n).free) ∧
    ((∃ i, IsGreatest {j | h.Waiting n j} i ∧ h.Retained i ((h.pool n).acquire h.owner).1) ∨
      (∀ j, ¬ h.Waiting n j) ∧
        ((h.pool n).acquire h.owner).1 = .zeroed (h.capacityAt n)) := by
  have howner := h.owner_pool n
  obtain ⟨hcapacity, huniform, -⟩ := h.stocked_pool n
  have hzeroed : (LocalStack.zeroed (h.capacityAt n)).capacity = (h.capacityAt n).toNat := by
    simp [LocalStack.zeroed, LocalStack.capacity]
  refine ⟨hcapacity, ?_, ?_, ?_⟩
  · intro machine
    by_cases hm : machine = (h.pool n).owner
    · rw [hm, acquire_owner, hcapacity]
      cases hfree : (h.pool n).free with
      | nil => exact hzeroed
      | cons s free => exact huniform s (hfree ▸ List.mem_cons_self)
    · rw [acquire_of_ne hm, hcapacity]
      exact hzeroed
  · intro machine hm
    rw [← howner] at hm
    exact ⟨by rw [acquire_of_ne hm], fun s => by rw [release_of_ne hm]⟩
  · obtain ⟨is, hsorted, hmem, hfree⟩ := h.keeps_pool n
    rw [← howner, acquire_owner, hcapacity]
    generalize (h.pool n).free = free at hfree ⊢
    cases hfree with
    | nil => exact .inr ⟨fun j hj => List.not_mem_nil ((hmem j).mpr hj), rfl⟩
    | cons hi hfree => exact .inl ⟨_, isGreatest_of_sorted hsorted hmem, hi⟩

/-- After a new capacity, the owner gives back a local stack of the old one and a used one of the new. -/
def reconfigured : History where
  owner := ⟨1⟩
  capacity := 1
  requests := [.release ⟨1⟩ (.zeroed 1), .reconfigure 2, .release ⟨1⟩ ⟨.ofData #[7, 0], ⟨2, none⟩⟩,
    .release ⟨1⟩ (.zeroed 1), .acquire ⟨2⟩]

theorem acquire_pool_reconfigured :
    ((reconfigured.pool 5).acquire ⟨1⟩).1 = ⟨.ofData #[7, 0], ⟨2, none⟩⟩ ∧
      ∃ i, IsGreatest {j | reconfigured.Waiting 5 j} i ∧
        reconfigured.Retained i ⟨.ofData #[7, 0], ⟨2, none⟩⟩ := by
  have hstack : ((reconfigured.pool 5).acquire ⟨1⟩).1 = ⟨.ofData #[7, 0], ⟨2, none⟩⟩ := by decide
  obtain ⟨-, -, -, hwaiting | ⟨-, hzeroed⟩⟩ := reconfigured.acquire_pool 5
  · obtain ⟨i, hi, hretained⟩ := hwaiting
    exact ⟨hstack, i, hi, hstack ▸ hretained⟩
  · exact absurd (hstack.symm.trans hzeroed) (by decide)

end History

end PlcMachine.Pool
