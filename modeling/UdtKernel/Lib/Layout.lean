import Mathlib.Algebra.Order.Group.Nat
import Mathlib.Algebra.BigOperators.Group.List.Basic
import Mathlib.Algebra.GroupWithZero.Nat

set_option autoImplicit false

/-! Fields that stand one behind the other. -/

namespace UdtKernel.Lib

variable {α : Type}

def offsetOf (fs : List (List α)) (i : ℕ) : ℕ := ((fs.take i).map List.length).sum

theorem offsetOf_succ {fs : List (List α)} {i : ℕ} {f : List α} (h : fs[i]? = some f) :
    offsetOf fs (i + 1) = offsetOf fs i + f.length := by
  unfold offsetOf
  rw [List.take_add_one, h, List.map_append, List.sum_append]
  rfl

theorem offsetOf_length (fs : List (List α)) : offsetOf fs fs.length = fs.flatten.length := by
  unfold offsetOf
  rw [List.take_length, List.length_flatten]

theorem drop_offsetOf (fs : List (List α)) (tail : List α) (i : ℕ) :
    (fs.flatten ++ tail).drop (offsetOf fs i) = (fs.drop i).flatten ++ tail := by
  unfold offsetOf
  induction fs generalizing i with
  | nil => simp
  | cons f fs ih =>
    cases i with
    | zero => rfl
    | succ i =>
      rw [List.take_succ_cons, List.map_cons, List.sum_cons, List.flatten_cons, List.append_assoc,
        ← List.drop_drop, List.drop_left, List.drop_succ_cons]
      exact ih i

/-- A field is where it begins. -/
theorem drop_offsetOf_eq {fs : List (List α)} (tail : List α) {i : ℕ} {f : List α}
    (h : fs[i]? = some f) :
    (fs.flatten ++ tail).drop (offsetOf fs i) = f ++ ((fs.drop (i + 1)).flatten ++ tail) := by
  obtain ⟨hlt, hget⟩ := List.getElem?_eq_some_iff.1 h
  rw [drop_offsetOf, List.drop_eq_getElem_cons hlt, hget, List.flatten_cons, List.append_assoc]

theorem take_drop_offsetOf {fs : List (List α)} (tail : List α) {i : ℕ} {f : List α}
    (h : fs[i]? = some f) : ((fs.flatten ++ tail).drop (offsetOf fs i)).take f.length = f := by
  rw [drop_offsetOf_eq tail h, List.take_left]

/-- Items of one width, read one after the other; none where they end too soon. -/
def readItems (n : ℕ) : ℕ → List α → Option (List (List α))
  | 0, _ => some []
  | count + 1, l =>
    if l.length < n then none
    else (readItems n count (l.drop n)).map (l.take n :: ·)

theorem readItems_flatMap {β : Type} {n : ℕ} {f : β → List α} (hf : ∀ b, (f b).length = n)
    (items : List β) (tail : List α) :
    readItems n items.length (items.flatMap f ++ tail) = some (items.map f) := by
  induction items with
  | nil => rfl
  | cons b items ih =>
    have htake : (f b ++ (items.flatMap f ++ tail)).take n = f b := by rw [← hf b, List.take_left]
    have hdrop : (f b ++ (items.flatMap f ++ tail)).drop n = items.flatMap f ++ tail := by
      rw [← hf b, List.drop_left]
    rw [List.length_cons, readItems, List.flatMap_cons, List.append_assoc, htake, hdrop, ih,
      if_neg]
    · rfl
    · rw [List.length_append, hf b]
      omega

end UdtKernel.Lib
