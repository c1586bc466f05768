import PlcMachine.Proofs.Storage.Access

/-! # Steps that have a domain

A sum has to fit its type, an index has to lie in its list, and a copy has to be as long as what it
replaces. A computation made of such steps gets stuck where one is taken outside its domain. It is compared
with a result of which some errors stand for that.
-/

namespace PlcMachine

/-- A computation that ends with a value or an error, or gets stuck. -/
abbrev Strict (ε α : Type) : Type := ExceptT ε Option α

namespace Strict

variable {ε ε' α β : Type}

def total (r : Except ε α) : Strict ε α := ExceptT.mk (some r)

/-- The result is one of the errors that stand for getting stuck. -/
def isStuck (stuck : ε → Bool) : Except ε α → Bool
  | .error e => stuck e
  | .ok _ => false

/-- The computation that ends as given, or gets stuck if the result stands for that. -/
def upTo (stuck : ε → Bool) (r : Except ε α) : Strict ε α :=
  ExceptT.mk (if isStuck stuck r then none else some r)

def unlessStuck {σ : Type} (stuck : ε → Bool) (answer : Except ε α × σ) : Option (Except ε α × σ) :=
  if isStuck stuck answer.1 then none else some answer

/-- A step that gets stuck where it has no result. -/
def step (x : Option α) : Strict ε α := ExceptT.mk (x.map .ok)

def mapError (f : ε → ε') (x : Strict ε α) : Strict ε' α :=
  ExceptT.mk ((ExceptT.run x).map (Except.mapError f))

theorem step_some (a : α) : (step (some a) : Strict ε α) = total (.ok a) := rfl

theorem total_ok_bind (a : α) (f : α → Strict ε β) : total (.ok a) >>= f = f a := rfl

theorem step_bind {x : Option α} {a : α} (h : x = some a) (f : α → Strict ε β) : step x >>= f = f a := by
  rw [h]
  rfl

theorem run_total_bind (r : Except ε α) (f : Except ε α → Option β) : (total r).run >>= f = f r := rfl

theorem some_bind (a : α) (f : α → Option β) : some a >>= f = f a := rfl

theorem bind_total {x : Strict ε α} {r : Except ε α} {f : α → Strict ε β} {g : α → Except ε β}
    (hx : x = total r) (hf : ∀ a, r = .ok a → f a = total (g a)) : x >>= f = total (r >>= g) := by
  rw [hx]
  cases r with
  | error e => rfl
  | ok a => exact hf a rfl

section UpTo

variable {stuck : ε → Bool} {r : Except ε α}

theorem isStuck_of_forall (h : ∀ e, stuck e = false) (r : Except ε α) : isStuck stuck r = false := by
  cases r with
  | ok a => rfl
  | error e => exact h e

theorem upTo_of_not_isStuck (h : isStuck stuck r = false) : upTo stuck r = total r := by
  unfold upTo
  rw [h]
  rfl

theorem run_upTo_bind (r : Except ε α) (f : Except ε α → Option β) :
    (upTo stuck r).run >>= f = if isStuck stuck r then none else f r := by
  change (if isStuck stuck r then none else some r) >>= f = _
  split_ifs <;> rfl

theorem unlessStuck_of_not_isStuck {σ : Type} {answer : Except ε α × σ}
    (h : isStuck stuck answer.1 = false) : unlessStuck stuck answer = some answer := by
  unfold unlessStuck
  rw [h]
  rfl

theorem mapError_upTo (stuck : ε' → Bool) (f : ε → ε') (r : Except ε α) :
    (upTo (fun e => stuck (f e)) r).mapError f = upTo stuck (r.mapError f) := by
  cases r with
  | ok a => rfl
  | error e =>
    change ExceptT.mk (Option.map _ (if stuck (f e) then none else some (Except.error e))) =
      ExceptT.mk (if stuck (f e) then none else some (Except.error (f e)))
    split_ifs <;> rfl

theorem bind_upTo {x : Strict ε α} {f : α → Strict ε β} {g : α → Except ε β} (hx : x = upTo stuck r)
    (hf : ∀ a, r = .ok a → f a = upTo stuck (g a)) : x >>= f = upTo stuck (r >>= g) := by
  rw [hx]
  cases r with
  | ok a => exact hf a rfl
  | error e =>
    change ExceptT.mk (if stuck e then none else some (Except.error e)) >>= f =
      ExceptT.mk (if stuck e then none else some (Except.error e))
    split_ifs <;> rfl

theorem foldlM_upTo {f : β → α → Strict ε β} {g : β → α → Except ε β} {P : β → Prop} {as : List α}
    (hf : ∀ b, ∀ a ∈ as, P b → f b a = upTo stuck (g b a))
    (hg : ∀ b, ∀ a ∈ as, P b → ∀ b', g b a = .ok b' → P b') {b : β} (hb : P b) :
    as.foldlM f b = upTo stuck (as.foldlM g b) := by
  induction as generalizing b with
  | nil => rfl
  | cons a as ih =>
    refine bind_upTo (hf b a List.mem_cons_self hb) ?_
    intro b' h
    exact ih (fun b a ha => hf b a (List.mem_cons_of_mem _ ha))
      (fun b a ha => hg b a (List.mem_cons_of_mem _ ha)) (hg b a List.mem_cons_self hb b' h)

end UpTo

def sum? (bound a b : Nat) : Option Nat := if a + b < bound then some (a + b) else none

theorem sum?_eq {bound a b : Nat} (h : a + b < bound) : sum? bound a b = some (a + b) := if_pos h

def shiftLeft? (b i : UInt8) : Option UInt8 := if i < 8 then some (b <<< i) else none

def shiftRight? (b i : UInt8) : Option UInt8 := if i < 8 then some (b >>> i) else none

def replace? (old new : List α) : Option (List α) := if old.length = new.length then some new else none

def set? (xs : Array α) (i : Nat) (x : α) : Option (Array α) :=
  if i < xs.size then some (xs.setIfInBounds i x) else none

end Strict

end PlcMachine
