import PlcMachine.Machine.Plan
import PlcMachine.Proofs.Storage.Access

/-! # Bindings in declaration order

Ordering the bindings of a call keeps each of them, with the callee's own declaration of its
parameter, and no two that are left share a declaration index.
-/

namespace PlcMachine.CallSite

variable {site : CallSite} {point : CallPoint} {b : Binding} {bs : List Binding}

/-- The binding with the callee's declaration in the place of the parameter that the call names. -/
def Declares (site : CallSite) (b b' : Binding) : Prop :=
  ∃ p, site.callee.parameter? b.parameter.name = some p ∧ b' = { b with parameter := p }

theorem declared_eq_ok {b' : Binding} :
    site.declared point b = .ok b' ↔ site.Declares b b' := by
  unfold declared Declares
  cases site.callee.parameter? b.parameter.name <;> simp [eq_comm]

theorem mapM_declared {bs' : List Binding} (h : bs.mapM (site.declared point) = .ok bs') :
    List.Forall₂ site.Declares bs bs' := by
  induction bs generalizing bs' with
  | nil =>
    rw [List.mapM_nil] at h
    cases pure_eq_ok.mp h
    exact .nil
  | cons b bs ih =>
    rw [List.mapM_cons] at h
    obtain ⟨b', hb, h⟩ := bind_eq_ok.mp h
    obtain ⟨cs, hcs, h⟩ := bind_eq_ok.mp h
    cases pure_eq_ok.mp h
    exact .cons (declared_eq_ok.mp hb) (ih hcs)

theorem exists_declared {bs' : List Binding} (h : List.Forall₂ site.Declares bs bs') (hb : b ∈ bs) :
    ∃ b' ∈ bs', site.Declares b b' := by
  induction h with
  | nil => cases hb
  | cons hd _ ih =>
    rcases List.mem_cons.mp hb with rfl | hb
    · exact ⟨_, List.mem_cons_self, hd⟩
    · obtain ⟨b', hb', hd'⟩ := ih hb
      exact ⟨b', List.mem_cons_of_mem _ hb', hd'⟩

theorem exists_binding {bs' : List Binding} {b' : Binding} (h : List.Forall₂ site.Declares bs bs')
    (hb : b' ∈ bs') : ∃ b ∈ bs, site.Declares b b' := by
  induction h with
  | nil => cases hb
  | cons hd _ ih =>
    rcases List.mem_cons.mp hb with rfl | hb
    · exact ⟨_, List.mem_cons_self, hd⟩
    · obtain ⟨b, hb, hd'⟩ := ih hb
      exact ⟨b, List.mem_cons_of_mem _ hb, hd'⟩

theorem insertBinding_perm (b : Binding) (bs : List Binding) :
    (insertBinding b bs).Perm (b :: bs) := by
  induction bs with
  | nil => exact .refl _
  | cons c cs ih =>
    unfold insertBinding
    split_ifs
    · exact .refl _
    · exact (ih.cons c).trans (.swap b c cs)

theorem foldr_insertBinding_perm (bs : List Binding) : (bs.foldr insertBinding []).Perm bs := by
  induction bs with
  | nil => exact .refl _
  | cons b bs ih => exact (insertBinding_perm b _).trans (ih.cons b)

def Sorted (bs : List Binding) : Prop := bs.Pairwise (·.parameter.index ≤ ·.parameter.index)

theorem Sorted.insertBinding (h : Sorted bs) (b : Binding) : Sorted (insertBinding b bs) := by
  induction bs with
  | nil => exact List.pairwise_singleton _ _
  | cons c cs ih =>
    obtain ⟨hc, hcs⟩ := List.pairwise_cons.mp h
    unfold CallSite.insertBinding
    split_ifs with hle
    · refine List.pairwise_cons.mpr ⟨?_, h⟩
      intro d hd
      rcases List.mem_cons.mp hd with rfl | hd
      · exact hle
      · exact UInt32.le_trans hle (hc d hd)
    · refine List.pairwise_cons.mpr ⟨?_, ih hcs⟩
      intro d hd
      rcases List.mem_cons.mp ((insertBinding_perm b cs).mem_iff.mp hd) with rfl | hd
      · exact (UInt32.le_total _ _).resolve_right hle
      · exact hc d hd

theorem sorted_foldr_insertBinding (bs : List Binding) : Sorted (bs.foldr insertBinding []) := by
  induction bs with
  | nil => exact .nil
  | cons b bs ih => exact ih.insertBinding b

theorem Sorted.strict (h : Sorted bs) (hdup : duplicate? bs = none) :
    bs.Pairwise (·.parameter.index < ·.parameter.index) := by
  induction bs with
  | nil => exact .nil
  | cons b bs ih =>
    obtain ⟨hb, hbs⟩ := List.pairwise_cons.mp h
    cases bs with
    | nil => exact List.pairwise_singleton _ _
    | cons c cs =>
      unfold duplicate? at hdup
      split_ifs at hdup with hne
      have hlt : b.parameter.index < c.parameter.index :=
        UInt32.lt_of_le_of_ne (hb c List.mem_cons_self) hne
      refine List.pairwise_cons.mpr ⟨?_, ih hbs hdup⟩
      intro d hd
      rcases List.mem_cons.mp hd with rfl | hd
      · exact hlt
      · exact UInt32.lt_of_lt_of_le hlt ((List.pairwise_cons.mp hbs).1 d hd)

/-- Ordering yields the declared bindings in another order, with increasing declaration indices. -/
theorem orderedBindings_eq_ok {ordered : List Binding}
    (h : site.orderedBindings point = .ok ordered) :
    ∃ bs, List.Forall₂ site.Declares site.bindings bs ∧ ordered.Perm bs ∧
      ordered.Pairwise (·.parameter.index < ·.parameter.index) := by
  obtain ⟨bs, hbs, h⟩ := bind_eq_ok.mp h
  dsimp only at h
  split at h
  · exact absurd h throw_ne_ok
  · next hdup =>
    cases pure_eq_ok.mp h
    exact ⟨bs, mapM_declared hbs, foldr_insertBinding_perm bs,
      (sorted_foldr_insertBinding bs).strict hdup⟩

theorem Declares.eq {b₁ b₂ : Binding} (h₁ : site.Declares b b₁) (h₂ : site.Declares b b₂) :
    b₁ = b₂ := by
  obtain ⟨p, hp, rfl⟩ := h₁
  obtain ⟨q, hq, rfl⟩ := h₂
  rw [Option.some.inj (hp.symm.trans hq)]

theorem mem_orderedBindings {ordered : List Binding} {b' : Binding}
    (h : site.orderedBindings point = .ok ordered) :
    b' ∈ ordered ↔ ∃ b ∈ site.bindings, site.Declares b b' := by
  obtain ⟨bs, hdecl, hperm, -⟩ := orderedBindings_eq_ok h
  rw [hperm.mem_iff]
  constructor
  · intro hb
    exact exists_binding hdecl hb
  · rintro ⟨b, hb, hd⟩
    obtain ⟨b'', hb'', hd'⟩ := exists_declared hdecl hb
    rwa [hd.eq hd']

theorem nodup_names {ordered : List Binding} (h : site.orderedBindings point = .ok ordered) :
    (site.bindings.map (·.parameter.name)).Nodup := by
  obtain ⟨bs, hdecl, hperm, hsorted⟩ := orderedBindings_eq_ok h
  have hne : bs.Pairwise (·.parameter.index ≠ ·.parameter.index) :=
    (hperm.pairwise_iff Ne.symm).mp (hsorted.imp UInt32.ne_of_lt)
  clear hperm
  rw [List.Nodup, List.pairwise_map]
  generalize site.bindings = bindings at hdecl
  induction hdecl with
  | nil => exact .nil
  | cons hd hds ih =>
    obtain ⟨hb, hbs⟩ := List.pairwise_cons.mp hne
    refine List.pairwise_cons.mpr ⟨?_, ih hbs⟩
    intro c hc hname
    obtain ⟨c', hc', q, hq, rfl⟩ := exists_declared hds hc
    obtain ⟨p, hp, rfl⟩ := hd
    rw [hname, hq] at hp
    exact hb _ hc' (congrArg Parameter.index (Option.some.inj hp).symm)

theorem name_eq_of_parameter? {callee : Block} {name : String} {p : Parameter}
    (h : callee.parameter? name = some p) : p.name = name := by
  simpa using List.find?_some h

/-- The call binds a parameter, as the callee declares it, to what an actual of the caller stands for. -/
structure Binds (site : CallSite) (m : Machine) (b : Binding) (p : Parameter) (actual : Operand) :
    Prop where
  mem : b ∈ site.bindings
  declared : site.callee.parameter? b.parameter.name = some p
  resolved : m.unslot b.actual = .ok actual

end PlcMachine.CallSite
