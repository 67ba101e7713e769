import Mathlib.Data.List.Basic

set_option autoImplicit false

/-! Cutting a stream into items while it comes in chunks: what is left of one chunk is put in front
of the next one. -/

namespace UdtKernel.Lib

variable {α μ : Type}

/-- The items at the front of a text, and the rest, in which no more of them are seen. -/
structure Cutter (α μ : Type) where
  items : List α → List μ
  text : μ → List α
  rest : List α → List α
  whole : ∀ l, (items l).flatMap text ++ rest l = l

namespace Cutter

variable (c : Cutter α μ)

/-- More of the text changes no item, and what comes behind an item does not depend on it. -/
def Incremental : Prop := ∀ l l', c.items (l ++ l') = c.items l ++ c.items (c.rest l ++ l')

/-- The items of the chunks, behind what is left from before, and what is left then. -/
def feed : List α → List (List α) → List μ × List α
  | left, [] => ([], left)
  | left, chunk :: chunks =>
    let l := left ++ chunk
    let (items, last) := feed (c.rest l) chunks
    (c.items l ++ items, last)

variable {c}

theorem rest_of_items_nil {l : List α} (h : c.items l = []) : c.rest l = l := by
  have hwhole := c.whole l
  rwa [h, List.flatMap_nil, List.nil_append] at hwhole

theorem Incremental.rest (h : c.Incremental) (l l' : List α) :
    c.rest (l ++ l') = c.rest (c.rest l ++ l') := by
  have hleft := c.whole (l ++ l')
  have hright := c.whole (c.rest l ++ l')
  rw [h l l', List.flatMap_append, List.append_assoc] at hleft
  have hall : (c.items l).flatMap c.text ++ (c.rest l ++ l') = l ++ l' := by
    rw [← List.append_assoc, c.whole]
  rw [← hright] at hall
  exact List.append_cancel_left (List.append_cancel_left (hleft.trans hall.symm))

theorem Incremental.items_rest (h : c.Incremental) (l : List α) : c.items (c.rest l) = [] := by
  have happend := h l []
  rw [List.append_nil, List.append_nil] at happend
  exact List.self_eq_append_right.1 happend

/-- The chunks give the items of the whole text, and the same is left. -/
theorem Incremental.feed_eq (h : c.Incremental) {left : List α} (hleft : c.items left = [])
    (chunks : List (List α)) :
    c.feed left chunks = (c.items (left ++ chunks.flatten), c.rest (left ++ chunks.flatten)) := by
  induction chunks generalizing left with
  | nil =>
    rw [List.flatten_nil, List.append_nil, hleft, rest_of_items_nil hleft]
    rfl
  | cons chunk chunks ih =>
    have hrest := ih (h.items_rest (left ++ chunk))
    simp only [feed, hrest]
    rw [List.flatten_cons, ← List.append_assoc, h (left ++ chunk), h.rest (left ++ chunk)]

theorem Incremental.items_feed (h : c.Incremental) {left : List α} (hleft : c.items left = [])
    (chunks : List (List α)) : c.items (c.feed left chunks).2 = [] := by
  rw [h.feed_eq hleft]
  exact h.items_rest _

end Cutter

end UdtKernel.Lib
