import Mathlib.Algebra.Order.Floor.Div
import UdtKernel.Divisor.Cross

set_option autoImplicit false

/-! When `MSplit` makes pieces that the limit and the fields of a piece can take. -/

namespace UdtKernel.Pieces
open UdtKernel.Divisor UdtKernel.Plan UdtKernel.Cross

/-- The least even number of parts with which parts of `p` bytes, or of one byte less than the
    data, are enough. -/
def numParts (n p : ℕ) : ℕ := 2 * (n ⌈/⌉ (2 * min p (n - 1)))

structure SplitsWell (d : UserData) (p : ℕ) (ps : List UserData) : Prop where
  two : 2 ≤ d.data.length → 2 ≤ ps.length
  nonempty : ∀ x ∈ ps, x.data ≠ []
  limited : ∀ x ∈ ps, x.data.length ≤ p
  bytes : bytes ps = d.data
  consecutive : ∀ i x y, ps[i]? = some x → ps[i + 1]? = some y →
    y.dataId.split.counter = x.dataId.split.counter + 1
  onlyLast : ∀ i x, ps[i]? = some x → i + 1 < ps.length → x.dataId.split.isLast = false
  fit : ∀ (i : ℕ) x, ps[i]? = some x →
    (x.dataId.split.counter : ℤ) =
      d.dataId.split.counter * ps.length - ps.length + 1 + (i : ℕ) ∧
    x.dataId.split.coefficient = d.dataId.split.coefficient * ps.length

/-- The last part, which takes the rest, keeps to the limit, and the numbers of the parts keep to
    their fields. -/
structure Splittable (d : UserData) (p : ℕ) : Prop where
  two : 2 ≤ d.data.length
  limited : d.data.length / numParts d.data.length p + d.data.length % numParts d.data.length p ≤ p
  counter_pos : 1 ≤ d.dataId.split.counter
  counter : d.dataId.split.counter * numParts d.data.length p < 2 ^ 16
  coefficient : d.dataId.split.coefficient * numParts d.data.length p < 2 ^ 16

theorem clipPartSize_eq {n p : ℕ} : clipPartSize n p = min p (n - 1) := by
  unfold clipPartSize
  split_ifs <;> omega

theorem numPart_le_iff {n q c : ℕ} (hq : 0 < q) :
    (if n % q = 0 then n / q else n / q + 1) ≤ c ↔ n ≤ q * c := by
  have hn := Nat.div_add_mod n q
  split_ifs with hr
  · rw [hr, Nat.add_zero] at hn
    rw [← Nat.mul_le_mul_left_iff hq, hn]
  · have hne : n ≠ q * c := fun h => hr (h ▸ Nat.mul_mod_right q c)
    rw [Nat.succ_le_iff, Nat.div_lt_iff_lt_mul hq, Nat.mul_comm c q]
    omega

/-- Rounding the number of parts up to an even one. -/
theorem validNumPart_eq {n q : ℕ} (hq : 0 < q) : validNumPart n q = 2 * (n ⌈/⌉ (2 * q)) := by
  have hhalf : validNumPart n q = 2 * (((if n % q = 0 then n / q else n / q + 1) + 1) / 2) := by
    unfold validNumPart
    dsimp only
    split_ifs <;> omega
  rw [hhalf]
  congr 1
  refine eq_of_forall_ge_iff fun c => ?_
  have hle := numPart_le_iff (n := n) (c := 2 * c) hq
  rw [ceilDiv_le_iff_le_mul (by omega), Nat.mul_assoc, Nat.mul_left_comm, ← hle]
  omega

theorem two_le_numParts {n p : ℕ} (hn : 2 ≤ n) (hp : 0 < p) : 2 ≤ numParts n p := by
  have hq : 0 < min p (n - 1) := by omega
  unfold numParts
  rw [← validNumPart_eq hq]
  exact two_le_validNumPart hq (by omega)

/-- The call, where it is one: there is a byte for each part, and the parts are all as long as the
    first, but for the last. -/
theorem split_eq {d : UserData} {p : ℕ} {ps : List UserData} :
    split d p = .ok ps ↔ (2 ≤ d.data.length ∧ 0 < p ∧ numParts d.data.length p ≤ d.data.length) ∧
      ps = (List.range (numParts d.data.length p)).map
        (part d (numParts d.data.length p) (d.data.length / numParts d.data.length p)) := by
  have hsplit := split_eq_ite d p
  dsimp only at hsplit
  rw [hsplit]
  split_ifs with h₀ h₁ h₂
  · simp only [false_iff, not_and]
    omega
  · rw [clipPartSize_eq] at h₁
    simp only [false_iff, not_and]
    omega
  · rw [clipPartSize_eq] at h₁ h₂
    rw [validNumPart_eq (Nat.pos_of_ne_zero h₁)] at h₂
    have hlt : d.data.length < numParts d.data.length p :=
      (Nat.div_eq_zero_iff.1 h₂).resolve_left (by
        have := two_le_numParts (n := d.data.length) (p := p) (by omega) (by omega)
        unfold numParts at this
        omega)
    simp only [false_iff, not_and]
    omega
  · rw [clipPartSize_eq] at h₁ h₂ ⊢
    rw [validNumPart_eq (Nat.pos_of_ne_zero h₁)] at h₂ ⊢
    have hle : numParts d.data.length p ≤ d.data.length := by
      by_contra hlt
      exact h₂ (Nat.div_eq_of_lt (not_le.1 hlt))
    rw [Except.ok.injEq, and_iff_right ⟨by omega, by omega, hle⟩]
    exact eq_comm

theorem getElem?_parts {d : UserData} {n size i : ℕ} {x : UserData} :
    ((List.range n).map (part d n size))[i]? = some x ↔ i < n ∧ part d n size i = x := by
  rw [List.getElem?_map]
  by_cases h : i < n
  · simp [h]
  · simp [h]

theorem toUint16_eq_iff {z : ℤ} : (toUint16 z : ℤ) = z ↔ 0 ≤ z ∧ z < 2 ^ 16 := by
  unfold toUint16
  omega

/-- All parts of a packet are short enough if and only if the last one is. -/
theorem parts_limited {d : UserData} {n p : ℕ} (hn : 0 < n) :
    (∀ i < n, (part d n (d.data.length / n) i).data.length ≤ p) ↔
      d.data.length / n + d.data.length % n ≤ p := by
  constructor
  · intro h
    have hlast := h (n - 1) (by omega)
    rwa [part_data_length (by omega), if_pos (by omega)] at hlast
  · intro h i hi
    rw [part_data_length hi]
    split_ifs <;> omega

theorem map_part_length {d : UserData} {n size : ℕ} :
    ((List.range n).map (part d n size)).length = n := by simp

/-- The numbers of the parts, as integers, keep to their fields. -/
theorem parts_fit {d : UserData} {n size : ℕ} (hn : 2 ≤ n) :
    (∀ i < n, ((part d n size i).dataId.split.counter : ℤ) =
        d.dataId.split.counter * n - n + 1 + (i : ℕ) ∧
      (part d n size i).dataId.split.coefficient = d.dataId.split.coefficient * n) ↔
    1 ≤ d.dataId.split.counter ∧ d.dataId.split.counter * n < 2 ^ 16 ∧
      d.dataId.split.coefficient * n < 2 ^ 16 := by
  have hcounter : ∀ i, (part d n size i).dataId.split.counter =
      toUint16 (d.dataId.split.counter * n - n + 1 + i) := fun i => rfl
  have hcoefficient : ∀ i, (part d n size i).dataId.split.coefficient =
      d.dataId.split.coefficient * n % 2 ^ 16 := fun i => by
    rw [← toUint16_natCast]
    simp [part]
  have hcast : (d.dataId.split.counter : ℤ) * n = (d.dataId.split.counter * n : ℕ) :=
    (Nat.cast_mul _ _).symm
  simp only [hcounter, hcoefficient, toUint16_eq_iff, Nat.mod_eq_iff_lt (by norm_num : 2 ^ 16 ≠ 0)]
  rw [hcast]
  constructor
  · intro h
    obtain ⟨⟨hfirst, -⟩, hcoef⟩ := h 0 (by omega)
    obtain ⟨⟨-, hlast⟩, -⟩ := h (n - 1) (by omega)
    refine ⟨?_, by omega, hcoef⟩
    by_contra hzero
    have hmul : d.dataId.split.counter * n = 0 := by
      rw [Nat.lt_one_iff.1 (not_le.1 hzero), Nat.zero_mul]
    omega
  · rintro ⟨hpos, hcount, hcoef⟩ i hi
    have hle : n ≤ d.dataId.split.counter * n := Nat.le_mul_of_pos_left n hpos
    exact ⟨⟨by omega, by omega⟩, hcoef⟩

theorem splittable_of_splitsWell {d : UserData} {p : ℕ} {ps : List UserData}
    (hps : split d p = .ok ps) (h : SplitsWell d p ps) : Splittable d p := by
  obtain ⟨⟨hn, hp, -⟩, rfl⟩ := split_eq.1 hps
  have hm := two_le_numParts hn hp
  have hfit := (parts_fit hm).1 fun i hi => by
    have hi' := h.fit i _ (getElem?_parts.2 ⟨hi, rfl⟩)
    rw [map_part_length] at hi'
    exact hi'
  refine ⟨hn, (parts_limited (by omega)).1 fun i hi => ?_, hfit.1, hfit.2.1, hfit.2.2⟩
  exact h.limited _ (List.mem_map_of_mem (List.mem_range.2 hi))

/-- The parts in between are not empty, unless the limit is one byte and the data odd. -/
theorem numParts_le {d : UserData} {p : ℕ} (h : Splittable d p) :
    numParts d.data.length p ≤ d.data.length := by
  by_contra hlt
  have hlimit := h.limited
  rw [Nat.div_eq_of_lt (not_le.1 hlt), Nat.mod_eq_of_lt (not_le.1 hlt), Nat.zero_add] at hlimit
  have htwo := h.two
  have hceil : d.data.length ⌈/⌉ (2 * min p (d.data.length - 1)) ≤ 1 :=
    (ceilDiv_le_iff_le_mul (by omega)).2 (by omega)
  unfold numParts at hlt
  omega

theorem splitsWell_of_splittable {d : UserData} {p : ℕ} (h : Splittable d p) :
    ∃ ps, split d p = .ok ps ∧ SplitsWell d p ps := by
  have htwo := h.two
  have hle := numParts_le h
  have hp : 0 < p := by
    by_contra hzero
    have hlimit := h.limited
    obtain rfl : p = 0 := by omega
    have hnone : numParts d.data.length 0 = 0 := by simp [numParts]
    rw [hnone, Nat.div_zero, Nat.mod_zero] at hlimit
    omega
  have hm := two_le_numParts h.two hp
  have hfit := (@parts_fit d _ (d.data.length / numParts d.data.length p) hm).2
    ⟨h.counter_pos, h.counter, h.coefficient⟩
  refine ⟨_, split_eq.2 ⟨⟨h.two, hp, hle⟩, rfl⟩, fun _ => ?_, fun x hx => ?_, fun x hx => ?_, ?_,
    fun i x y hx hy => ?_, fun i x hx hi => ?_, fun i x hx => ?_⟩
  · rw [map_part_length]
    exact hm
  · obtain ⟨i, hi, rfl⟩ := List.mem_map.1 hx
    have hpos : 0 < d.data.length / numParts d.data.length p := Nat.div_pos hle (by omega)
    refine List.ne_nil_of_length_pos ?_
    rw [part_data_length (List.mem_range.1 hi)]
    omega
  · obtain ⟨i, hi, rfl⟩ := List.mem_map.1 hx
    exact (parts_limited (by omega)).2 h.limited i (List.mem_range.1 hi)
  · obtain ⟨m, hm'⟩ : ∃ m, numParts d.data.length p = m + 1 :=
      ⟨numParts d.data.length p - 1, by omega⟩
    rw [hm']
    exact bytes_map_part d _ m
  · obtain ⟨hi, rfl⟩ := getElem?_parts.1 hx
    obtain ⟨hj, rfl⟩ := getElem?_parts.1 hy
    have h₁ := (hfit i hi).1
    have h₂ := (hfit (i + 1) hj).1
    push_cast at h₂
    omega
  · obtain ⟨-, rfl⟩ := getElem?_parts.1 hx
    rw [map_part_length] at hi
    simp [part, hi.ne]
  · obtain ⟨hi, rfl⟩ := getElem?_parts.1 hx
    rw [map_part_length]
    exact hfit i hi

/-- `MSplit` does its work exactly when there are two bytes, the last part takes no more than the
    limit, and the counters and the coefficient of the parts are 16-bit numbers. -/
theorem split_splitsWell_iff (d : UserData) (p : ℕ) :
    (∃ ps, split d p = .ok ps ∧ SplitsWell d p ps) ↔ Splittable d p :=
  ⟨fun ⟨_, hps, h⟩ => splittable_of_splitsWell hps h, splitsWell_of_splittable⟩

def tenBytes : UserData :=
  ⟨⟨1, [], 0, [], [], [], ⟨⟨3, []⟩, [5]⟩, .default, shareEndian, ⟨⟨0, 0, 0⟩, []⟩⟩,
    [0, 1, 2, 3, 4, 5, 6, 7, 8, 9]⟩

/-- Ten bytes and a limit of three: the fourth piece has four bytes. -/
theorem splitsWell_false_of_rest :
    3 < SplitInfo.dataSize ⟨false, true, 3, none⟩ tenBytes ∧
      ¬ ∃ ps, split tenBytes 3 = .ok ps ∧ SplitsWell tenBytes 3 ps := by
  refine ⟨by decide, ?_⟩
  rintro ⟨ps, hps, h⟩
  have hsplit : split tenBytes 3 = .ok ((List.range 4).map (part tenBytes 4 2)) := rfl
  obtain rfl := Except.ok.inj (hsplit.symm.trans hps)
  exact absurd (h.limited (part tenBytes 4 2 3) (List.mem_map_of_mem (by decide)))
    (by decide)

end UdtKernel.Pieces
