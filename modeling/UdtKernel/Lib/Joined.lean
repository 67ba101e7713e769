import Mathlib.Data.List.Basic
import Mathlib.Tactic.SplitIfs

set_option autoImplicit false

/-! Parts that are joined with a separator between them. -/

namespace UdtKernel.Lib

variable {α : Type} {s : α} {cs ds : List (List α)}

def Parts (s : α) (cs : List (List α)) : Prop := ∀ c ∈ cs, c ≠ [] ∧ s ∉ c

namespace Parts

theorem append_right (h : Parts s (cs ++ ds)) : Parts s ds := fun c hc =>
  h c (List.mem_append_right cs hc)

theorem intercalate_eq_nil_iff (h : Parts s cs) : [s].intercalate cs = [] ↔ cs = [] := by
  cases cs with
  | nil => exact ⟨fun _ => rfl, fun _ => rfl⟩
  | cons c cs =>
    obtain ⟨x, c, rfl⟩ := List.exists_cons_of_ne_nil (h c List.mem_cons_self).1
    rw [List.intercalate_cons_cons_left]
    constructor
    · intro hnil
      exact (List.cons_ne_nil _ _ hnil).elim
    · intro hnil
      exact (List.cons_ne_nil _ _ hnil).elim

end Parts

theorem intercalate_append (hcs : cs ≠ []) (hds : ds ≠ []) :
    [s].intercalate (cs ++ ds) = [s].intercalate cs ++ s :: [s].intercalate ds := by
  induction cs with
  | nil => exact absurd rfl hcs
  | cons c cs ih =>
    cases cs with
    | nil =>
      rw [List.singleton_append, List.intercalate_cons_of_ne_nil hds, List.intercalate_singleton,
        List.append_assoc]
      rfl
    | cons c' cs =>
      have hne : c' :: cs ++ ds ≠ [] := List.cons_ne_nil _ _
      rw [List.cons_append, List.intercalate_cons_of_ne_nil hne, ih (List.cons_ne_nil _ _),
        List.intercalate_cons_cons, List.append_assoc, List.append_assoc, List.append_assoc]

/-- What joined parts have comes from a part or from between them. -/
theorem mem_intercalate {sep : List α} {x : α} (hx : x ∈ sep.intercalate cs) :
    ∃ c ∈ cs, x ∈ c ∨ x ∈ sep := by
  induction cs with
  | nil =>
    rw [List.intercalate_nil] at hx
    exact absurd hx List.not_mem_nil
  | cons c cs ih =>
    by_cases hcs : cs = []
    · rw [hcs, List.intercalate_singleton] at hx
      exact ⟨c, List.mem_cons_self, Or.inl hx⟩
    · rw [List.intercalate_cons_of_ne_nil hcs, List.mem_append, List.mem_append] at hx
      rcases hx with (hx | hx) | hx
      · exact ⟨c, List.mem_cons_self, Or.inl hx⟩
      · exact ⟨c, List.mem_cons_self, Or.inr hx⟩
      · obtain ⟨d, hd, hmem⟩ := ih hx
        exact ⟨d, List.mem_cons_of_mem c hd, hmem⟩

variable [DecidableEq α]

theorem not_mem_splitOn {l c : List α} (hc : c ∈ l.splitOn s) : s ∉ c := by
  induction l generalizing c with
  | nil =>
    rw [List.splitOn_nil, List.mem_singleton] at hc
    rw [hc]
    exact List.not_mem_nil
  | cons x l ih =>
    rw [List.splitOn_cons_eq_if_modifyHead] at hc
    obtain ⟨d, ds, hsplit⟩ := List.exists_cons_of_ne_nil (List.splitOn_ne_nil s l)
    rw [hsplit] at hc ih
    split_ifs at hc with hx
    · rcases List.mem_cons.1 hc with rfl | hc
      · exact List.not_mem_nil
      · exact ih hc
    · rcases List.mem_cons.1 hc with rfl | hc
      · rw [List.mem_cons, not_or]
        exact ⟨fun heq => hx (beq_iff_eq.2 heq.symm), ih List.mem_cons_self⟩
      · exact ih (List.mem_cons_of_mem d hc)

theorem Parts.intercalate_injective (hcs : Parts s cs) (hds : Parts s ds)
    (heq : [s].intercalate cs = [s].intercalate ds) : cs = ds := by
  by_cases hnil : cs = []
  · rw [hnil, List.intercalate_nil] at heq
    rw [hnil, hds.intercalate_eq_nil_iff.1 heq.symm]
  · have hnil' : ds ≠ [] := by
      rintro rfl
      rw [List.intercalate_nil] at heq
      exact hnil (hcs.intercalate_eq_nil_iff.1 heq)
    rw [← List.splitOn_intercalate s (fun c hc => (hcs c hc).2) hnil, heq,
      List.splitOn_intercalate s (fun c hc => (hds c hc).2) hnil']

/-- There is a separator less than there are parts. -/
theorem Parts.count_intercalate (h : Parts s cs) (hne : cs ≠ []) :
    ([s].intercalate cs).count s + 1 = cs.length := by
  induction cs with
  | nil => exact absurd rfl hne
  | cons c cs ih =>
    have hc : c.count s = 0 := List.count_eq_zero.2 (h c List.mem_cons_self).2
    cases cs with
    | nil =>
      rw [List.intercalate_singleton, hc]
      rfl
    | cons c' cs =>
      have hrest := ih (fun d hd => h d (List.mem_cons_of_mem c hd)) (List.cons_ne_nil _ _)
      rw [List.intercalate_cons_cons, List.count_append, List.count_append, hc,
        List.count_singleton, List.length_cons]
      simp only [beq_self_eq_true, if_true]
      omega

/-- What follows the first parts begins with a separator, and has one for each other part. -/
theorem Parts.exists_rest {k : List (List α)} (h : Parts s (ds ++ k)) (hne : ds ≠ []) :
    ∃ rest, [s].intercalate (ds ++ k) = [s].intercalate ds ++ rest ∧
      (rest = [] ∨ rest.head? = some s) ∧ rest.count s = k.length := by
  by_cases hk : k = []
  · subst hk
    rw [List.append_nil]
    exact ⟨[], (List.append_nil _).symm, Or.inl rfl, rfl⟩
  · have hcount := h.append_right.count_intercalate hk
    refine ⟨s :: [s].intercalate k, intercalate_append hne hk, Or.inr rfl, ?_⟩
    rw [List.count_cons_self, hcount]

/-- A beginning of joined parts that ends where a part does is one of parts. -/
theorem Parts.exists_append (hcs : Parts s cs) (hds : Parts s ds) (hne : ds ≠ []) {rest : List α}
    (heq : [s].intercalate cs = [s].intercalate ds ++ rest)
    (hrest : rest = [] ∨ rest.head? = some s) : ∃ k, cs = ds ++ k ∧ rest.count s = k.length := by
  have hsplit : ∃ k, cs = ds ++ k := by
    cases rest with
    | nil =>
      rw [List.append_nil] at heq
      exact ⟨[], by rw [List.append_nil]; exact hcs.intercalate_injective hds heq⟩
    | cons x rest =>
      obtain rfl : x = s := Option.some.inj (hrest.resolve_left (List.cons_ne_nil _ _))
      have hcsne : cs ≠ [] := by
        rintro rfl
        rw [List.intercalate_nil] at heq
        exact List.cons_ne_nil _ _ (List.append_eq_nil_iff.1 heq.symm).2
      have hparts := List.splitOn_intercalate x (fun c hc => (hcs c hc).2) hcsne
      rw [heq, List.splitOn_append_cons_self,
        List.splitOn_intercalate x (fun c hc => (hds c hc).2) hne] at hparts
      exact ⟨_, hparts.symm⟩
  obtain ⟨k, rfl⟩ := hsplit
  obtain ⟨rest', heq', -, hcount⟩ := hcs.exists_rest hne
  rw [heq'] at heq
  rw [← List.append_cancel_left heq]
  exact ⟨k, rfl, hcount⟩

end UdtKernel.Lib
