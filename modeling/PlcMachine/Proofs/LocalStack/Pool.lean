import Mathlib.Tactic.SplitIfs
import PlcMachine.LocalStack.Pool

/-! # How many local stacks a pool keeps

A pool keeps local stacks of the capacity in force only. Handing one out leaves one less, if there is
any, and taking one back leaves at most one more.
-/

namespace PlcMachine.Pool

/-- The pool is set to a capacity, and keeps no more than `n` local stacks, all of them of that capacity. -/
structure Stocked (p : Pool) (capacity : UInt32) (n : Nat) : Prop where
  capacity_eq : p.capacity = capacity
  uniform : ∀ s ∈ p.free, s.capacity = capacity.toNat
  retained_le : p.retained ≤ n

theorem owner_acquire (p : Pool) (machine : MachineId) : (p.acquire machine).2.owner = p.owner := by
  unfold acquire
  split_ifs
  · cases p.free <;> rfl
  · rfl

theorem owner_release (p : Pool) (machine : MachineId) (s : LocalStack) :
    (p.release machine s).owner = p.owner := by
  unfold release
  split_ifs <;> rfl

theorem owner_foldl_release (p : Pool) (machine : MachineId) (ss : List LocalStack) :
    (ss.foldl (·.release machine) p).owner = p.owner := by
  induction ss generalizing p with
  | nil => rfl
  | cons s ss ih => exact (ih _).trans (p.owner_release machine s)

theorem stocked_empty (owner : MachineId) (capacity : UInt32) (n : Nat) :
    (empty owner capacity).Stocked capacity n where
  capacity_eq := rfl
  uniform := fun _ hs => (List.not_mem_nil hs).elim
  retained_le := Nat.zero_le n

theorem stocked_reconfigure (p : Pool) (capacity : UInt32) (n : Nat) :
    (p.reconfigure capacity).Stocked capacity n := stocked_empty p.owner capacity n

namespace Stocked

variable {p : Pool} {capacity : UInt32} {n : Nat}

theorem mono (h : p.Stocked capacity n) {n' : Nat} (hn : n ≤ n') : p.Stocked capacity n' :=
  ⟨h.capacity_eq, h.uniform, Nat.le_trans h.retained_le hn⟩

theorem acquire (h : p.Stocked capacity n) : (p.acquire p.owner).2.Stocked capacity (n - 1) := by
  obtain ⟨owner, capacity', free⟩ := p
  obtain ⟨rfl, huniform, hretained⟩ := h
  cases free with
  | nil =>
    rw [Pool.acquire, if_pos rfl]
    exact ⟨rfl, huniform, Nat.zero_le _⟩
  | cons s free =>
    rw [Pool.acquire, if_pos rfl]
    exact ⟨rfl, fun s' hs' => huniform s' (List.mem_cons_of_mem s hs'), Nat.le_sub_one_of_lt hretained⟩

theorem release (h : p.Stocked capacity n) (machine : MachineId) (s : LocalStack) :
    (p.release machine s).Stocked capacity (n + 1) := by
  obtain ⟨rfl, huniform, hretained⟩ := h
  unfold Pool.release
  split_ifs with hkept
  · refine ⟨rfl, ?_, Nat.succ_le_succ hretained⟩
    intro s' hs'
    rcases List.mem_cons.mp hs' with rfl | hs'
    · exact hkept.2
    · exact huniform s' hs'
  · exact ⟨rfl, huniform, Nat.le_succ_of_le hretained⟩

theorem foldl_release (h : p.Stocked capacity n) (machine : MachineId) (ss : List LocalStack) :
    (ss.foldl (·.release machine) p).Stocked capacity (n + ss.length) := by
  induction ss generalizing p n with
  | nil => exact h
  | cons s ss ih =>
    have hrest := ih (h.release machine s)
    rwa [Nat.add_assoc, Nat.add_comm 1] at hrest

end Stocked

end PlcMachine.Pool
