import Mathlib.Data.List.Nodup
import Mathlib.Algebra.GroupWithZero.Nat

set_option autoImplicit false

/-! Lists that are linked through their nodes. -/

namespace UdtKernel.Lib

variable {α β : Type} {ptr : α → β} {next : α → β}

/-- The nodes `l`, each of which points to the following one, lead from `p` to `q`. -/
def Linked (ptr : α → β) (next : α → β) : β → List α → β → Prop
  | p, [], q => p = q
  | p, a :: l, q => p = ptr a ∧ Linked ptr next (next a) l q

namespace Linked

theorem congr {next' : α → β} {p q : β} {l : List α} (h : Linked ptr next p l q)
    (hnext : ∀ a ∈ l, next' a = next a) : Linked ptr next' p l q := by
  induction l generalizing p with
  | nil => exact h
  | cons a l ih =>
    obtain ⟨hp, htail⟩ := h
    refine ⟨hp, ?_⟩
    rw [hnext a List.mem_cons_self]
    exact ih htail fun b hb => hnext b (List.mem_cons_of_mem a hb)

theorem append {p q : β} {l₁ l₂ : List α} :
    Linked ptr next p (l₁ ++ l₂) q ↔
      ∃ m, Linked ptr next p l₁ m ∧ Linked ptr next m l₂ q := by
  induction l₁ generalizing p with
  | nil =>
    constructor
    · intro h
      exact ⟨p, rfl, h⟩
    · rintro ⟨m, rfl, h⟩
      exact h
  | cons a l₁ ih =>
    constructor
    · rintro ⟨hp, h⟩
      obtain ⟨m, h₁, h₂⟩ := ih.1 h
      exact ⟨m, ⟨hp, h₁⟩, h₂⟩
    · rintro ⟨m, ⟨hp, h₁⟩, h₂⟩
      exact ⟨hp, ih.2 ⟨m, h₁, h₂⟩⟩

theorem concat {p q : β} {l : List α} {a : α} :
    Linked ptr next p (l ++ [a]) q ↔ Linked ptr next p l (ptr a) ∧ next a = q := by
  rw [append]
  constructor
  · rintro ⟨m, hl, rfl, hq⟩
    exact ⟨hl, hq⟩
  · rintro ⟨hl, hq⟩
    exact ⟨ptr a, hl, rfl, hq⟩

/-- The pointer between two parts is that of the last node before it, or the first one. -/
theorem append_getLast? {p q : β} {l₁ l₂ : List α} (h : Linked ptr next p (l₁ ++ l₂) q) :
    Linked ptr next ((l₁.getLast?.map next).getD p) l₂ q ∧
      Linked ptr next p l₁ ((l₁.getLast?.map next).getD p) := by
  obtain ⟨m, h₁, h₂⟩ := append.1 h
  rcases List.eq_nil_or_concat' l₁ with rfl | ⟨l, a, rfl⟩
  · cases h₁
    exact ⟨h₂, rfl⟩
  · obtain ⟨-, rfl⟩ := concat.1 h₁
    rw [List.getLast?_concat]
    exact ⟨h₂, h₁⟩

/-- A node is taken out: the one before it leads to the one behind it. -/
theorem bypass (next' : α → β) {p q : β} {l₁ l₂ : List α} {a : α}
    (h : Linked ptr next p (l₁ ++ a :: l₂) q)
    (hnodup : (l₁ ++ a :: l₂).Nodup) (hlast : ∀ s ∈ l₁.getLast?, next' s = next a)
    (hnext : ∀ b ∈ l₁ ++ l₂, b ∉ l₁.getLast? → next' b = next b) :
    Linked ptr next' (if l₁ = [] then next a else p) (l₁ ++ l₂) q := by
  obtain ⟨m, h₁, -, h₂⟩ := append.1 h
  rw [List.nodup_append] at hnodup
  obtain ⟨hnodup₁, -, hdisjoint⟩ := hnodup
  have h₂' : Linked ptr next' (next a) l₂ q := by
    refine h₂.congr fun b hb => hnext b (List.mem_append_right l₁ hb) fun hlast => ?_
    exact hdisjoint b (List.mem_of_getLast? hlast) b (List.mem_cons_of_mem a hb) rfl
  rcases List.eq_nil_or_concat' l₁ with rfl | ⟨l, s, rfl⟩
  · rw [if_pos rfl]
    exact h₂'
  · rw [if_neg (by simp), List.append_assoc]
    obtain ⟨hl, -⟩ := concat.1 h₁
    rw [List.getLast?_concat] at hlast hnext
    have hl' : Linked ptr next' p l (ptr s) := by
      refine hl.congr fun b hb => hnext b (by simp [hb]) fun heq => ?_
      cases heq
      rw [List.nodup_append] at hnodup₁
      exact hnodup₁.2.2 s hb s (List.mem_singleton_self s) rfl
    refine append.2 ⟨ptr s, hl', rfl, ?_⟩
    rw [hlast s rfl]
    exact h₂'

/-- A node is put between two others. -/
theorem insert (next' : α → β) {p q : β} {l₁ l₂ : List α} {a : α}
    (h : Linked ptr next p (l₁ ++ l₂) q)
    (hnodup : (l₁ ++ l₂).Nodup) (hfresh : a ∉ l₁ ++ l₂)
    (hnode : next' a = (l₁.getLast?.map next).getD p)
    (hlast : ∀ s ∈ l₁.getLast?, next' s = ptr a)
    (hnext : ∀ b ∈ l₁ ++ l₂, b ∉ l₁.getLast? → next' b = next b) :
    Linked ptr next' (if l₁ = [] then ptr a else p) (l₁ ++ a :: l₂) q := by
  obtain ⟨h₂, h₁⟩ := append_getLast? h
  rw [List.nodup_append] at hnodup
  obtain ⟨hnodup₁, -, hdisjoint⟩ := hnodup
  have h₂' : Linked ptr next' (next' a) l₂ q := by
    rw [hnode]
    refine h₂.congr fun b hb => hnext b (List.mem_append_right l₁ hb) fun hlast => ?_
    exact hdisjoint b (List.mem_of_getLast? hlast) b hb rfl
  rcases List.eq_nil_or_concat' l₁ with rfl | ⟨l, s, rfl⟩
  · rw [if_pos rfl]
    exact ⟨rfl, h₂'⟩
  · rw [if_neg (by simp), List.append_assoc]
    obtain ⟨hl, -⟩ := concat.1 h₁
    rw [List.getLast?_concat] at hlast hnext
    have hl' : Linked ptr next' p l (ptr s) := by
      refine hl.congr fun b hb => hnext b (by simp [hb]) fun heq => ?_
      cases heq
      rw [List.nodup_append] at hnodup₁
      exact hnodup₁.2.2 s hb s (List.mem_singleton_self s) rfl
    refine append.2 ⟨ptr s, hl', rfl, ?_⟩
    rw [hlast s rfl]
    exact ⟨rfl, h₂'⟩

section Ascending

variable {ends : ℕ → ℕ} {p q : ℕ} {l : List ℕ}

theorem le (h : Linked id ends p l q) (hends : ∀ a, a < ends a) : p ≤ q := by
  induction l generalizing p with
  | nil => exact Nat.le_of_eq h
  | cons a l ih =>
    have hp : p = a := h.1
    rw [hp]
    exact Nat.le_trans (Nat.le_of_lt (hends a)) (ih h.2)

theorem bounds (h : Linked id ends p l q) (hends : ∀ a, a < ends a) :
    ∀ a ∈ l, p ≤ a ∧ ends a ≤ q := by
  induction l generalizing p with
  | nil =>
    intro a ha
    cases ha
  | cons b l ih =>
    have hp : p = b := h.1
    intro a ha
    rw [hp]
    rcases List.mem_cons.1 ha with rfl | ha
    · exact ⟨Nat.le_refl a, h.2.le hends⟩
    · obtain ⟨hle, hq⟩ := ih h.2 a ha
      exact ⟨Nat.le_trans (Nat.le_of_lt (hends b)) hle, hq⟩

/-- Each begins where the one before it has ended. -/
theorem pairwise (h : Linked id ends p l q) (hends : ∀ a, a < ends a) :
    l.Pairwise fun a b => ends a ≤ b := by
  induction l generalizing p with
  | nil => exact List.Pairwise.nil
  | cons a l ih =>
    exact List.Pairwise.cons (fun b hb => (h.2.bounds hends b hb).1) (ih h.2)

theorem length_le (h : Linked id ends p l q) (hends : ∀ a, a < ends a) : p + l.length ≤ q := by
  induction l generalizing p with
  | nil => exact Nat.le_of_eq h
  | cons a l ih =>
    have hp : p = a := h.1
    have hle := ih h.2
    have hlt := hends a
    rw [List.length_cons]
    omega

end Ascending

/-- Nodes that count up. -/
theorem range' {next : ℕ → ℕ} {n : ℕ} (i : ℕ) (hnext : ∀ j, i ≤ j → j < i + n → next j = j + 1) :
    Linked id next i (List.range' i n) (i + n) := by
  induction n generalizing i with
  | zero => exact rfl
  | succ n ih =>
    rw [List.range'_succ]
    refine ⟨rfl, ?_⟩
    rw [hnext i (Nat.le_refl i) (by omega), Nat.add_comm n 1, ← Nat.add_assoc]
    exact ih (i + 1) fun j hle hlt => hnext j (by omega) (by omega)

end Linked

end UdtKernel.Lib
