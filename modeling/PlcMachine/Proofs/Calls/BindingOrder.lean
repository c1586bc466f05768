import Mathlib.Data.List.Perm.Basic
import PlcMachine.Proofs.Machine.History

/-! # The order of bindings

A call is planned from its bindings in declaration order. Two of them never share a declaration index, so
the list that is planned from does not depend on the order in which the call names its bindings, and
neither does anything that the call leaves behind.
-/

namespace PlcMachine

namespace CallSite

variable {site : CallSite} {point : CallPoint} {bs ordered : List Binding}

/-- Every name that is bound is declared, and no two of the declarations have one index. -/
structure BindsApart (site : CallSite) : Prop where
  declared : ∀ b ∈ site.bindings, ∃ p, site.callee.parameter? b.parameter.name = some p
  apart : site.bindings.Pairwise fun b c => ∀ p q, site.callee.parameter? b.parameter.name = some p →
    site.callee.parameter? c.parameter.name = some q → p.index ≠ q.index

theorem mapM_declared_iff {bs' : List Binding} :
    bs.mapM (site.declared point) = .ok bs' ↔ List.Forall₂ site.Declares bs bs' := by
  constructor
  · exact mapM_declared
  · intro h
    induction h with
    | nil => rfl
    | cons hd _ ih => rw [List.mapM_cons, declared_eq_ok.mpr hd, ih]; rfl

theorem duplicate?_of_strict (h : bs.Pairwise (·.parameter.index < ·.parameter.index)) :
    duplicate? bs = none := by
  induction bs with
  | nil => rfl
  | cons b bs ih =>
    obtain ⟨hb, hbs⟩ := List.pairwise_cons.mp h
    cases bs with
    | nil => rfl
    | cons c cs => rw [duplicate?, if_neg (UInt32.ne_of_lt (hb c List.mem_cons_self)), ih hbs]

theorem eq_of_strict (h : bs.Perm ordered) (hbs : bs.Pairwise (·.parameter.index < ·.parameter.index))
    (hordered : ordered.Pairwise (·.parameter.index < ·.parameter.index)) : bs = ordered := by
  refine List.Perm.eq_of_pairwise (fun b c _ _ hbc hcb => ?_) hbs hordered h
  exact absurd (UInt32.lt_trans hbc hcb) (UInt32.lt_irrefl _)

theorem strict_foldr_insertBinding (h : bs.Pairwise (·.parameter.index ≠ ·.parameter.index)) :
    (bs.foldr insertBinding []).Pairwise (·.parameter.index < ·.parameter.index) := by
  have hne := ((foldr_insertBinding_perm bs).pairwise_iff Ne.symm).mpr h
  exact ((sorted_foldr_insertBinding bs).and hne).imp fun h => UInt32.lt_of_le_of_ne h.1 h.2

/-- Bindings are ordered if all are declared and their declarations can be put in increasing order. -/
theorem orderedBindings_eq_ok_iff : site.orderedBindings point = .ok ordered ↔
    ∃ bs, List.Forall₂ site.Declares site.bindings bs ∧ ordered.Perm bs ∧
      ordered.Pairwise (·.parameter.index < ·.parameter.index) := by
  constructor
  · exact orderedBindings_eq_ok
  · rintro ⟨bs, hdecl, hperm, hstrict⟩
    have hne := (hperm.pairwise_iff Ne.symm).mp (hstrict.imp UInt32.ne_of_lt)
    have heq : bs.foldr insertBinding [] = ordered :=
      eq_of_strict ((foldr_insertBinding_perm bs).trans hperm.symm) (strict_foldr_insertBinding hne) hstrict
    refine bind_eq_ok.mpr ⟨bs, mapM_declared_iff.mpr hdecl, ?_⟩
    dsimp only
    rw [heq, duplicate?_of_strict hstrict]
    rfl

theorem orderedBindings_perm (h : bs.Perm site.bindings) :
    CallSite.orderedBindings { site with bindings := bs } point = .ok ordered ↔
      site.orderedBindings point = .ok ordered := by
  have hperm : ∀ {as bs : List Binding}, as.Perm bs →
      (∃ cs, List.Forall₂ site.Declares bs cs ∧ ordered.Perm cs ∧
        ordered.Pairwise (·.parameter.index < ·.parameter.index)) →
      ∃ cs, List.Forall₂ site.Declares as cs ∧ ordered.Perm cs ∧
        ordered.Pairwise (·.parameter.index < ·.parameter.index) := by
    rintro as bs h ⟨cs, hdecl, hordered, hstrict⟩
    obtain ⟨ds, hdecl', hds⟩ := List.perm_comp_forall₂ h hdecl
    exact ⟨ds, hdecl', hordered.trans hds.symm, hstrict⟩
  rw [orderedBindings_eq_ok_iff, orderedBindings_eq_ok_iff]
  exact ⟨hperm h.symm, hperm h⟩

theorem exists_declared_apart
    (hdeclared : ∀ b ∈ bs, ∃ p, site.callee.parameter? b.parameter.name = some p)
    (hapart : bs.Pairwise fun b c => ∀ p q, site.callee.parameter? b.parameter.name = some p →
      site.callee.parameter? c.parameter.name = some q → p.index ≠ q.index) :
    ∃ cs, List.Forall₂ site.Declares bs cs ∧ cs.Pairwise (·.parameter.index ≠ ·.parameter.index) := by
  induction bs with
  | nil => exact ⟨[], .nil, .nil⟩
  | cons b bs ih =>
    obtain ⟨⟨p, hp⟩, hdeclared⟩ := List.forall_mem_cons.mp hdeclared
    obtain ⟨hb, hapart⟩ := List.pairwise_cons.mp hapart
    obtain ⟨cs, hcs, hne⟩ := ih hdeclared hapart
    refine ⟨{ b with parameter := p } :: cs, .cons ⟨p, hp, rfl⟩ hcs, List.pairwise_cons.mpr ⟨?_, hne⟩⟩
    intro c' hc'
    obtain ⟨c, hc, q, hq, rfl⟩ := exists_binding hcs hc'
    exact hb c hc p q hp hq

theorem BindsApart.exists_ordered (h : site.BindsApart) (point : CallPoint) :
    ∃ ordered, site.orderedBindings point = .ok ordered := by
  obtain ⟨cs, hdecl, hne⟩ := exists_declared_apart h.declared h.apart
  exact ⟨_, orderedBindings_eq_ok_iff.mpr
    ⟨cs, hdecl, foldr_insertBinding_perm cs, strict_foldr_insertBinding hne⟩⟩

end CallSite

namespace Machine

variable {m : Machine} {site : CallSite} {bs : List Binding}

/-- One plan is made whatever the order of the bindings, or none. -/
theorem plan_perm (h : bs.Perm site.bindings) (m : Machine) (point : CallPoint) (d : Option InstanceData)
    (plan : Plan) :
    m.plan point { site with bindings := bs } d = .ok plan ↔ m.plan point site d = .ok plan := by
  unfold Machine.plan
  by_cases hraw : site.raw = true
  · rw [if_pos hraw, if_pos hraw]
  · rw [if_neg hraw, if_neg hraw, bind_eq_ok, bind_eq_ok]
    simp only [CallSite.orderedBindings_perm h]

theorem plan_eq_of_ordered {point : CallPoint} {ordered : List Binding} (h : bs.Perm site.bindings)
    (ho : site.orderedBindings point = .ok ordered) (d : Option InstanceData) :
    m.plan point { site with bindings := bs } d = m.plan point site d := by
  unfold Machine.plan
  rw [ho, (CallSite.orderedBindings_perm h).mpr ho]

theorem enter_perm_cases (h : bs.Perm site.bindings) (m : Machine) :
    m.enter { site with bindings := bs } = m.enter site ∨
      ∃ d e e' m', m.plan (site.point m) { site with bindings := bs } d = .error e ∧
        m.plan (site.point m) site d = .error e' ∧
        m.enter { site with bindings := bs } = (.error e, m') ∧ m.enter site = (.error e', m') := by
  have hinst : m.instanceFor { site with bindings := bs } = m.instanceFor site := rfl
  have hpoint : CallSite.point { site with bindings := bs } m = site.point m := rfl
  unfold enter
  rw [hinst, hpoint]
  split_ifs with hdepth
  · exact .inl rfl
  cases m.instanceFor site with
  | error e => exact .inl rfl
  | ok d =>
    unfold enterOn
    dsimp only
    cases (m.pool.acquire m.id).1.reset m.specs.localBytes site.callee.tempBytes with
    | error e => exact .inl rfl
    | ok stack =>
      dsimp only
      simp only [point_pool, plan_pool, hpoint]
      have hplan := plan_perm h m (site.point m) d
      cases hp : m.plan (site.point m) site d with
      | ok plan =>
        rw [(hplan plan).mpr hp]
        exact .inl rfl
      | error e' =>
        cases hp' : m.plan (site.point m) { site with bindings := bs } d with
        | ok plan => cases hp.symm.trans ((hplan plan).mp hp')
        | error e => exact .inr ⟨d, e, e', _, hp', hp, rfl, rfl⟩

/-- Two calls that differ in the order of their bindings only are planned alike and leave the same
controller behind, and both succeed or both fail. They fail alike if every name that is bound is declared
and no two of the declarations have one index. -/
theorem enter_perm (h : bs.Perm site.bindings) (m : Machine) :
    (∀ point d plan, m.plan point { site with bindings := bs } d = .ok plan ↔
      m.plan point site d = .ok plan) ∧
    ((m.enter { site with bindings := bs }).1 = .ok () ↔ (m.enter site).1 = .ok ()) ∧
    (m.enter { site with bindings := bs }).2 = (m.enter site).2 ∧
    (site.BindsApart → m.enter { site with bindings := bs } = m.enter site) := by
  refine ⟨plan_perm h m, ?_⟩
  obtain heq | ⟨d, e, e', m', hp, hp', henter, henter'⟩ := enter_perm_cases h m
  · rw [heq]
    exact ⟨Iff.rfl, rfl, fun _ => rfl⟩
  · rw [henter, henter']
    refine ⟨by simp, rfl, fun hapart => ?_⟩
    obtain ⟨ordered, ho⟩ := hapart.exists_ordered (site.point m)
    rw [plan_eq_of_ordered h ho, hp'] at hp
    rw [Except.error.inj hp]

namespace BindingOrder

def count : Parameter := .scalar "count" 0 ⟨0, 0⟩ 8

def total : Parameter := .scalar "total" 1 ⟨1, 0⟩ 16

def call : CallSite where
  callee := ⟨.function, 1, "", 2, [count, total]⟩
  raw := false
  instanceBlock := none
  nestedBase := none
  bindings := [⟨total, .memory ⟨⟨.dataBlock 7, ⟨0, 0⟩, 16⟩, false⟩, .inOut⟩,
    ⟨count, .immediate (.scalar 3) 8 false, .input⟩]

def caller : Machine :=
  (ofSpecs ⟨0⟩ ⟨16, 4, 4, 1, 1, 1, 1⟩).run [.begin ⟨.organization, 1, "", 2, []⟩, .memory (.addBlock 7 2)]

theorem bindsApart : call.BindsApart where
  declared := by
    intro b hb
    simp only [call, List.mem_cons, List.not_mem_nil, or_false] at hb
    rcases hb with rfl | rfl
    · exact ⟨total, rfl⟩
    · exact ⟨count, rfl⟩
  apart := by
    refine List.pairwise_pair.mpr fun p q hp hq => ?_
    cases hp
    cases hq
    decide

end BindingOrder

open BindingOrder in
theorem enter_perm_reversed :
    caller.enter { call with bindings := call.bindings.reverse } = caller.enter call ∧
      (caller.enter call).1 = .ok () := by
  obtain ⟨-, -, -, heq⟩ := enter_perm call.bindings.reverse_perm caller
  exact ⟨heq bindsApart, by decide +kernel⟩

end Machine

end PlcMachine
