import UdtKernel.Lib.SortedMap

set_option autoImplicit false

/-! The full join of two sorted lists. -/

namespace UdtKernel.Lib

variable {κ ν μ : Type} [LinearOrder κ]

/-- One entry of the first list, and then those of the others as `rest` says. -/
def pairStep (n : κ × ν) (rest : List (κ × μ) → List (κ × Option ν × Option μ)) :
    List (κ × μ) → List (κ × Option ν × Option μ)
  | [] => (n.1, some n.2, none) :: rest []
  | o :: os =>
    if n.1 < o.1 then (n.1, some n.2, none) :: rest (o :: os)
    else if o.1 < n.1 then (o.1, none, some o.2) :: pairStep n rest os
    else (n.1, some n.2, some o.2) :: rest os

def pairUp : List (κ × ν) → List (κ × μ) → List (κ × Option ν × Option μ)
  | [], os => os.map fun o => (o.1, none, some o.2)
  | n :: ns, os => pairStep n (pairUp ns) os

open SortedMap

/-- `l` is the full join of `ns` and `os`, in the order of the keys. -/
def Joins (ns : List (κ × ν)) (os : List (κ × μ)) (l : List (κ × Option ν × Option μ)) : Prop :=
  l.Pairwise (fun p q => p.1 < q.1) ∧
    ∀ k a b, (k, a, b) ∈ l ↔ a = lookup k ns ∧ b = lookup k os ∧ (a.isSome ∨ b.isSome)

/-- A key before all others comes first, with what either list has for it. -/
theorem Joins.cons {ns ns' : List (κ × ν)} {os os' : List (κ × μ)}
    {l : List (κ × Option ν × Option μ)} (hl : Joins ns os l) {k₀ : κ} {x : Option ν}
    {y : Option μ} (hsome : x.isSome ∨ y.isSome) (hns : ∀ p ∈ ns, k₀ < p.1)
    (hos : ∀ p ∈ os, k₀ < p.1)
    (hns' : ∀ k, lookup k ns' = if k = k₀ then x else lookup k ns)
    (hos' : ∀ k, lookup k os' = if k = k₀ then y else lookup k os) :
    Joins ns' os' ((k₀, x, y) :: l) := by
  obtain ⟨hsorted, hmem⟩ := hl
  have hlater : ∀ k a b, (k, a, b) ∈ l → k₀ < k := by
    intro k a b hp
    obtain ⟨ha, hb, hs⟩ := (hmem k a b).1 hp
    by_contra hle
    rw [lookup_eq_none_of_forall_lt fun p hp => lt_of_le_of_lt (not_lt.1 hle) (hns p hp)] at ha
    rw [lookup_eq_none_of_forall_lt fun p hp => lt_of_le_of_lt (not_lt.1 hle) (hos p hp)] at hb
    simp [ha, hb] at hs
  refine ⟨List.pairwise_cons.2 ⟨fun p hp => hlater p.1 p.2.1 p.2.2 hp, hsorted⟩,
    fun k a b => ?_⟩
  rw [List.mem_cons, hns', hos']
  by_cases hk : k = k₀
  · subst hk
    rw [if_pos rfl, if_pos rfl]
    constructor
    · rintro (heq | hp)
      · cases heq
        exact ⟨rfl, rfl, hsome⟩
      · exact absurd (hlater k a b hp) (lt_irrefl k)
    · rintro ⟨rfl, rfl, -⟩
      exact .inl rfl
  · rw [if_neg hk, if_neg hk, ← hmem]
    constructor
    · rintro (heq | hp)
      · exact absurd (Prod.mk.inj heq).1 hk
      · exact hp
    · exact .inr

/-- A key before all those of a list is not looked up there. -/
theorem lookup_eq_ite {α : Type} {l : List (κ × α)} {k₀ : κ} (hl : ∀ p ∈ l, k₀ < p.1) (k : κ) :
    lookup k l = if k = k₀ then none else lookup k l := by
  split_ifs with hk
  · exact hk ▸ lookup_eq_none_of_forall_lt hl
  · rfl

theorem pairStep_spec {n : κ × ν} {ns : List (κ × ν)} (hns : ∀ p ∈ ns, n.1 < p.1)
    {rest : List (κ × μ) → List (κ × Option ν × Option μ)}
    (hrest : ∀ os : List (κ × μ), os.Pairwise (fun p q => p.1 < q.1) → Joins ns os (rest os))
    (os : List (κ × μ)) (hos : os.Pairwise fun p q => p.1 < q.1) :
    Joins (n :: ns) os (pairStep n rest os) := by
  -- `n` comes before all of `os`
  have hfirst : ∀ (os : List (κ × μ)), os.Pairwise (fun p q => p.1 < q.1) →
      (∀ p ∈ os, n.1 < p.1) → Joins (n :: ns) os ((n.1, some n.2, none) :: rest os) :=
    fun os hos hlt => (hrest os hos).cons (.inl rfl) hns hlt (fun _ => rfl)
      (lookup_eq_ite hlt)
  induction os with
  | nil => exact hfirst [] List.Pairwise.nil (by simp)
  | cons o os ih =>
    obtain ⟨ho, hos'⟩ := List.pairwise_cons.1 hos
    unfold pairStep
    split_ifs with hlt hgt
    · refine hfirst (o :: os) hos fun p hp => ?_
      rcases List.mem_cons.1 hp with rfl | hp
      · exact hlt
      · exact lt_trans hlt (ho p hp)
    · have hgt' : ∀ p ∈ n :: ns, o.1 < p.1 := fun p hp => by
        rcases List.mem_cons.1 hp with rfl | hp
        · exact hgt
        · exact lt_trans hgt (hns p hp)
      exact (ih hos').cons (.inr rfl) hgt' ho (lookup_eq_ite hgt') fun _ => rfl
    · have heq : o.1 = n.1 := le_antisymm (not_lt.1 hlt) (not_lt.1 hgt)
      exact (hrest os hos').cons (.inl rfl) hns (heq ▸ ho) (fun _ => rfl)
        fun _ => heq ▸ rfl

theorem pairUp_spec {ns : List (κ × ν)} {os : List (κ × μ)}
    (hns : ns.Pairwise fun p q => p.1 < q.1) (hos : os.Pairwise fun p q => p.1 < q.1) :
    Joins ns os (pairUp ns os) := by
  induction ns generalizing os with
  | nil =>
    refine ⟨List.pairwise_map.2 hos, fun k a b => ?_⟩
    have hm := mem_entries_iff (⟨os, hos⟩ : SortedMap κ μ) k
    simp only [pairUp, List.mem_map, Prod.mk.injEq, lookup]
    constructor
    · rintro ⟨⟨k', v⟩, hv, rfl, rfl, rfl⟩
      exact ⟨rfl, ((hm v).1 hv).symm, .inr rfl⟩
    · rintro ⟨rfl, hb, hs⟩
      rcases hs with hs | hs
      · cases hs
      · obtain ⟨v, rfl⟩ := Option.isSome_iff_exists.1 hs
        exact ⟨(k, v), (hm v).2 hb.symm, rfl, rfl, rfl⟩
  | cons n ns ih =>
    obtain ⟨hn, hns'⟩ := List.pairwise_cons.1 hns
    exact pairStep_spec hn (fun os hos => ih hns' hos) os hos

end UdtKernel.Lib
