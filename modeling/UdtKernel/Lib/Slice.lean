import Mathlib.Data.List.Range
import Mathlib.Algebra.GroupWithZero.Nat

set_option autoImplicit false

/-! Parts of a memory, and what moves and writes make of them. -/

namespace UdtKernel.Lib

variable {α : Type}

/-- What a memory holds in `n` places from `p` on. -/
def slice (m : ℕ → α) (p n : ℕ) : List α := (List.range n).map fun i => m (p + i)

/-- `n` places from `s` on are copied to `d`. -/
def moveTo (m : ℕ → α) (d s n : ℕ) : ℕ → α := fun i =>
  if d ≤ i ∧ i < d + n then m (s + (i - d)) else m i

def writeAt (m : ℕ → α) (p : ℕ) (l : List α) : ℕ → α := fun i =>
  if p ≤ i then (l[i - p]?).getD (m i) else m i

theorem slice_length (m : ℕ → α) (p n : ℕ) : (slice m p n).length = n := by
  unfold slice
  rw [List.length_map, List.length_range]

theorem slice_getElem (m : ℕ → α) (p n : ℕ) {i : ℕ} (hi : i < (slice m p n).length) :
    (slice m p n)[i] = m (p + i) := by
  simp [slice]

theorem slice_congr {m m' : ℕ → α} {p p' n : ℕ} (h : ∀ i < n, m' (p' + i) = m (p + i)) :
    slice m' p' n = slice m p n :=
  List.map_congr_left fun i hi => h i (List.mem_range.1 hi)

theorem slice_add (m : ℕ → α) (p n k : ℕ) :
    slice m p (n + k) = slice m p n ++ slice m (p + n) k := by
  unfold slice
  rw [List.range_add, List.map_append, List.map_map]
  refine congrArg _ (List.map_congr_left fun i _ => ?_)
  exact congrArg m (Nat.add_assoc p n i).symm

theorem slice_take (m : ℕ → α) (p : ℕ) {n k : ℕ} (h : k ≤ n) :
    (slice m p n).take k = slice m p k := by
  obtain ⟨j, rfl⟩ := Nat.exists_eq_add_of_le h
  rw [slice_add, List.take_left' (slice_length m p k)]

theorem slice_drop (m : ℕ → α) (p : ℕ) {n k : ℕ} (h : k ≤ n) :
    (slice m p n).drop k = slice m (p + k) (n - k) := by
  obtain ⟨j, rfl⟩ := Nat.exists_eq_add_of_le h
  rw [slice_add, List.drop_left' (slice_length m p k), Nat.add_sub_cancel_left]

theorem slice_moveTo_self (m : ℕ → α) (d s n : ℕ) : slice (moveTo m d s n) d n = slice m s n := by
  refine slice_congr fun i hi => ?_
  unfold moveTo
  rw [if_pos ⟨Nat.le_add_right d i, Nat.add_lt_add_left hi d⟩, Nat.add_sub_cancel_left]

theorem slice_moveTo_of_disjoint (m : ℕ → α) {d s n p k : ℕ} (h : p + k ≤ d ∨ d + n ≤ p) :
    slice (moveTo m d s n) p k = slice m p k := by
  refine slice_congr fun i hi => ?_
  unfold moveTo
  rw [if_neg]
  omega

/-- The last `k` places first, then the others, as their targets may overlap the last ones. -/
theorem slice_moveTo_moveTo (m : ℕ → α) {d p n k : ℕ} (hk : k ≤ n) (hd : p ≤ d) :
    slice (moveTo (moveTo m (d + (n - k)) (p + (n - k)) k) d p (n - k)) d n = slice m p n := by
  obtain ⟨j, rfl⟩ := Nat.exists_eq_add_of_le' hk
  rw [Nat.add_sub_cancel, slice_add _ d, slice_add m p, slice_moveTo_self,
    slice_moveTo_of_disjoint _ (Or.inl (Nat.add_le_add_right hd j)),
    slice_moveTo_of_disjoint _ (Or.inr (Nat.le_refl _)), slice_moveTo_self]

theorem slice_writeAt_self (m : ℕ → α) (p : ℕ) (l : List α) :
    slice (writeAt m p l) p l.length = l := by
  refine List.ext_getElem (slice_length _ _ _) fun i _ hi => ?_
  rw [slice_getElem]
  unfold writeAt
  rw [if_pos (Nat.le_add_right p i), Nat.add_sub_cancel_left, List.getElem?_eq_getElem hi]
  rfl

theorem slice_writeAt_singleton (m : ℕ → α) (p n k : ℕ) (x : α) :
    slice (writeAt m (p + k) [x]) p n = (slice m p n).set k x := by
  refine List.ext_getElem ?_ fun i _ _ => ?_
  · rw [List.length_set, slice_length, slice_length]
  · rw [slice_getElem, List.getElem_set, slice_getElem]
    unfold writeAt
    rcases Nat.lt_trichotomy i k with hlt | rfl | hgt
    · rw [if_neg (by omega), if_neg (by omega)]
    · rw [if_pos (Nat.le_refl _), if_pos rfl, Nat.sub_self]
      rfl
    · rw [if_pos (by omega), if_neg (by omega), List.getElem?_eq_none]
      · rfl
      · rw [List.length_singleton]
        omega

theorem slice_writeAt_of_disjoint (m : ℕ → α) {p q k : ℕ} {l : List α}
    (h : q + k ≤ p ∨ p + l.length ≤ q) : slice (writeAt m p l) q k = slice m q k := by
  refine slice_congr fun i hi => ?_
  unfold writeAt
  split_ifs with hle
  · rw [List.getElem?_eq_none (by omega)]
    rfl
  · rfl

end UdtKernel.Lib
