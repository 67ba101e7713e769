import Mathlib.Data.Int.Order.Basic
import Mathlib.Order.Bounds.Basic
import Mathlib.Algebra.Group.Int.Defs

set_option autoImplicit false

/-! Ways along the weighted edges of a graph. -/

namespace UdtKernel.Lib

variable {α : Type} {weight : α → α → Option ℤ}

/-- A way from one vertex to another: the vertices after the first and the sum of the weights. -/
inductive Walk (weight : α → α → Option ℤ) : α → List α → α → ℤ → Prop where
  | nil (u : α) : Walk weight u [] u 0
  | cons {u v t : α} {p : List α} {c d : ℤ} (edge : weight u v = some c)
      (tail : Walk weight v p t d) : Walk weight u (v :: p) t (c + d)

/-- `t` can be reached from `u`. -/
def Reachable (weight : α → α → Option ℤ) (u t : α) : Prop := ∃ p d, Walk weight u p t d

/-- The sums of the weights of all ways from one vertex to another. -/
def totals (weight : α → α → Option ℤ) (u t : α) : Set ℤ := {d | ∃ p, Walk weight u p t d}

namespace Walk

theorem concat {u v t : α} {p : List α} {c d : ℤ} (h : Walk weight u p v d)
    (edge : weight v t = some c) : Walk weight u (p ++ [t]) t (d + c) := by
  induction h with
  | nil u => simpa using Walk.cons edge (.nil t)
  | cons hedge _ ih =>
    rw [Int.add_assoc]
    exact .cons hedge (ih edge)

/-- Labels that grow along an edge by no more than its weight bound every way from below. -/
theorem label_le {label : α → Option ℤ}
    (hlabel : ∀ u d, label u = some d → ∀ v c, weight u v = some c →
      ∃ d', label v = some d' ∧ d' ≤ d + c)
    {u t : α} {p : List α} {c : ℤ} (h : Walk weight u p t c) {d : ℤ} (hu : label u = some d) :
    ∃ d', label t = some d' ∧ d' ≤ d + c := by
  induction h generalizing d with
  | nil u => exact ⟨d, hu, by omega⟩
  | cons hedge _ ih =>
    obtain ⟨d', hd', hle⟩ := hlabel _ d hu _ _ hedge
    obtain ⟨d'', hd'', hle'⟩ := ih hd'
    exact ⟨d'', hd'', by omega⟩

/-- Labels that fall along an edge by at least its weight bound every way from above. -/
theorem add_le_label (label : α → ℤ)
    (hlabel : ∀ u v c, weight u v = some c → c + label v ≤ label u)
    {u t : α} {p : List α} {c : ℤ} (h : Walk weight u p t c) : c + label t ≤ label u := by
  induction h with
  | nil u => omega
  | @cons u v t p c d hedge _ ih =>
    have := hlabel u v c hedge
    omega

theorem nonneg (hweight : ∀ u v c, weight u v = some c → 0 ≤ c) {u t : α} {p : List α} {c : ℤ}
    (h : Walk weight u p t c) : 0 ≤ c := by
  induction h with
  | nil u => exact le_refl 0
  | cons hedge _ ih => exact Int.add_nonneg (hweight _ _ _ hedge) ih

/-- A way to a vertex that is not done passes a labelled one that is not done either. -/
theorem le_of_frontier (hweight : ∀ u v c, weight u v = some c → 0 ≤ c) {label : α → Option ℤ}
    {done : α → Prop} {m : ℤ}
    (hdone : ∀ u d, done u → label u = some d → ∀ v c, weight u v = some c →
      ∃ d', label v = some d' ∧ d' ≤ d + c)
    (hm : ∀ u d, label u = some d → ¬ done u → m ≤ d)
    {u t : α} {p : List α} {c : ℤ} (h : Walk weight u p t c) (ht : ¬ done t) {d : ℤ}
    (hu : label u = some d) : m ≤ d + c := by
  induction h generalizing d with
  | nil u => simpa using hm u d hu ht
  | @cons u v t p c d' hedge tail ih =>
    by_cases hd : done u
    · obtain ⟨l, hl, hle⟩ := hdone u d hd hu v c hedge
      have := ih ht hl
      omega
    · have := hm u d hu hd
      have := hweight u v c hedge
      have := tail.nonneg hweight
      omega

/-- A way as long as such a label is a shortest one. -/
theorem isLeast {label : α → Option ℤ}
    (hlabel : ∀ u d, label u = some d → ∀ v c, weight u v = some c →
      ∃ d', label v = some d' ∧ d' ≤ d + c)
    {u t : α} {p : List α} {d : ℤ} (h : Walk weight u p t d) (hu : label u = some 0)
    (ht : label t = some d) : IsLeast (totals weight u t) d := by
  refine ⟨⟨p, h⟩, ?_⟩
  rintro c ⟨q, hq⟩
  obtain ⟨d', hd', hle⟩ := hq.label_le hlabel hu
  rw [ht] at hd'
  cases hd'
  omega

end Walk

end UdtKernel.Lib
