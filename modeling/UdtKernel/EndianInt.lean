import Mathlib.Data.List.FinRange
import UdtKernel.Datagram.Head
import UdtKernel.Lib.Digits

set_option autoImplicit false

/-! `little_endian_t` and `big_endian_t`: numbers that keep their bytes in the order of one kind of
machines on all of them. -/

namespace UdtKernel

open Lib

/-- `little_endian_t<T>` and `big_endian_t<T>`, where a `T` has `n` bytes. -/
structure EndianInt (me : Endian) (n : ℕ) where
  bytes : Fin n → Byte

abbrev LittleEndian (n : ℕ) := EndianInt .little n

abbrev BigEndian (n : ℕ) := EndianInt .big n

namespace EndianInt
variable {me : Endian} {n : ℕ}

/-- The places in the order of the loops, `i` or `sizeof(T) - 1 - i`. -/
def places (me : Endian) (n : ℕ) : List (Fin n) :=
  match me with
  | .little => List.finRange n
  | .big => (List.finRange n).map Fin.rev

/-- `t |= T(bytes[i]) << (i << 3)`, place by place. -/
def readLoop (bytes : Fin n → Byte) : List (Fin n) → ℕ → ℕ → ℕ
  | [], _, t => t
  | k :: ks, i, t => readLoop bytes ks (i + 1) (t ||| ((bytes k).val <<< (i <<< 3)) % 2 ^ (8 * n))

/-- `bytes[i] = t >> (i << 3)`, place by place. -/
def writeLoop (t : ℕ) : List (Fin n) → ℕ → (Fin n → Byte) → Fin n → Byte
  | [], _, bytes => bytes
  | k :: ks, i, bytes =>
    writeLoop t ks (i + 1) (Function.update bytes k (Fin.ofNat 256 (t >>> (i <<< 3))))

def value (x : EndianInt me n) : ℕ := readLoop x.bytes (places me n) 0 0

def assign (x : EndianInt me n) (t : ℕ) : EndianInt me n :=
  ⟨writeLoop t (places me n) 0 x.bytes⟩

/-- The constructor of `big_endian_t` from a `little_endian_t`. -/
def toBig (t : LittleEndian n) : BigEndian n := ⟨fun i => t.bytes i.rev⟩

/-- The constructor of `little_endian_t` from a `big_endian_t`. -/
def toLittle (t : BigEndian n) : LittleEndian n := ⟨fun i => t.bytes i.rev⟩

def preIncrement (x : EndianInt me n) : EndianInt me n :=
  ⟨changeAt (· + 1) (· ≠ 0) (places me n) x.bytes⟩

/-- `operator ++ (int)`: what it returns, and what the object is then. -/
def postIncrement (x : EndianInt me n) : EndianInt me n × EndianInt me n := (x, x.preIncrement)

/-- `operator -- ()`: `(T)(-1)` is the greatest of the `T`. -/
def preDecrement (x : EndianInt me n) : EndianInt me n :=
  ⟨changeAt (· - 1) (fun b => b.val ≠ 2 ^ (8 * n) - 1) (places me n) x.bytes⟩

def postDecrement (x : EndianInt me n) : EndianInt me n × EndianInt me n := (x, x.preDecrement)

def digits (x : EndianInt me n) : List Byte := (places me n).map x.bytes

theorem nodup_places (me : Endian) (n : ℕ) : (places me n).Nodup := by
  cases me with
  | little => exact List.nodup_finRange n
  | big => exact (List.nodup_finRange n).map Fin.rev_injective

theorem length_places (me : Endian) (n : ℕ) : (places me n).length = n := by
  cases me with
  | little => exact List.length_finRange
  | big => rw [places, List.length_map, List.length_finRange]

theorem length_digits (x : EndianInt me n) : x.digits.length = n := by
  rw [digits, List.length_map, length_places]

theorem two_pow_shift (i : ℕ) : 2 ^ (i <<< 3) = 256 ^ i := by
  rw [Nat.shiftLeft_eq, Nat.mul_comm, Nat.pow_mul]

/-- A byte is set in its place of the number, above what is read yet. -/
theorem readLoop_eq (bytes : Fin n → Byte) (ks : List (Fin n)) {i t : ℕ} (ht : t < 256 ^ i)
    (hle : i + ks.length ≤ n) :
    readLoop bytes ks i t = t + 256 ^ i * ofDigits (ks.map bytes) := by
  induction ks generalizing i t with
  | nil => rfl
  | cons k ks ih =>
    rw [List.length_cons] at hle
    have hbyte := (bytes k).isLt
    have hnext : t + 256 ^ i * (bytes k).val < 256 ^ (i + 1) := by
      have hmul : 256 ^ i * ((bytes k).val + 1) ≤ 256 ^ i * 256 := Nat.mul_le_mul_left _ hbyte
      rw [Nat.mul_succ] at hmul
      rw [Nat.pow_succ]
      omega
    have hwidth : 256 ^ i * (bytes k).val < 2 ^ (8 * n) := by
      have hmono : 256 ^ (i + 1) ≤ 256 ^ n := Nat.pow_le_pow_right (by decide) (by omega)
      rw [Nat.pow_mul]
      exact lt_of_le_of_lt (Nat.le_add_left _ t) (lt_of_lt_of_le hnext hmono)
    have hshift : ((bytes k).val <<< (i <<< 3)) % 2 ^ (8 * n) = 256 ^ i * (bytes k).val := by
      rw [Nat.shiftLeft_eq, two_pow_shift, Nat.mul_comm, Nat.mod_eq_of_lt hwidth]
    have hor : t ||| 256 ^ i * (bytes k).val = t + 256 ^ i * (bytes k).val := by
      have hlow : t < 2 ^ (i <<< 3) := by rwa [two_pow_shift]
      rw [← two_pow_shift, Nat.or_comm, ← Nat.two_pow_add_eq_or_of_lt hlow, Nat.add_comm]
    rw [readLoop, hshift, hor, ih hnext (by omega), List.map_cons, ofDigits, Nat.pow_succ]
    ring

/-- What is read is the number of the bytes, which is one of the type. -/
theorem value_eq (x : EndianInt me n) : x.value = ofDigits x.digits := by
  have hread := readLoop_eq x.bytes (places me n) (i := 0) (t := 0) (by decide)
    (by rw [length_places, Nat.zero_add])
  rw [value, hread, Nat.zero_add, Nat.pow_zero, Nat.one_mul, digits]

theorem writeLoop_of_notMem {ks : List (Fin n)} {k : Fin n} (hk : k ∉ ks) (t i : ℕ)
    (bytes : Fin n → Byte) : writeLoop t ks i bytes k = bytes k := by
  induction ks generalizing i bytes with
  | nil => rfl
  | cons j ks ih =>
    obtain ⟨hne, hks⟩ := not_or.1 (mt List.mem_cons.2 hk)
    rw [writeLoop, ih hks, Function.update_of_ne hne]

theorem map_writeLoop {ks : List (Fin n)} (hks : ks.Nodup) (t i : ℕ) (bytes : Fin n → Byte) :
    ks.map (writeLoop t ks i bytes) = toDigits 256 ks.length (t / 256 ^ i) := by
  induction ks generalizing i bytes with
  | nil => rfl
  | cons k ks ih =>
    obtain ⟨hk, hnodup⟩ := List.nodup_cons.1 hks
    rw [List.map_cons, writeLoop, writeLoop_of_notMem hk, Function.update_self, ih hnodup,
      List.length_cons, toDigits, Nat.shiftRight_eq_div_pow, two_pow_shift,
      Nat.div_div_eq_div_mul, Nat.pow_succ]

theorem digits_assign (x : EndianInt me n) (t : ℕ) : (x.assign t).digits = toDigits 256 n t := by
  have hmap := map_writeLoop (nodup_places me n) t 0 x.bytes
  rw [length_places, Nat.pow_zero, Nat.div_one] at hmap
  exact hmap

/-- The bytes are those that a machine of this byte order writes. -/
theorem ofFn_assign (x : EndianInt me n) (t : ℕ) :
    List.ofFn (x.assign t).bytes = me.bytes n t := by
  have hdigits := digits_assign x t
  rw [digits] at hdigits
  cases me with
  | little => rw [List.ofFn_eq_map, Endian.bytes, ← hdigits, places]
  | big =>
    rw [List.ofFn_eq_map, Endian.bytes, ← hdigits, places, ← List.finRange_reverse,
      List.map_reverse, List.reverse_reverse]

theorem digits_toBig (t : LittleEndian n) : (toBig t).digits = t.digits := by
  rw [digits, digits, places, places, List.map_map]
  exact List.map_congr_left fun i _ => congrArg t.bytes (Fin.rev_rev i)

theorem digits_toLittle (t : BigEndian n) : (toLittle t).digits = t.digits := by
  rw [digits, digits, places, places, List.map_map]
  rfl

theorem digits_preIncrement (x : EndianInt me n) :
    x.preIncrement.digits = changeUntil (· + 1) (· ≠ 0) x.digits :=
  map_changeAt _ _ (nodup_places me n) x.bytes

theorem greatest_of_two_le (h : 2 ≤ n) : 256 < 2 ^ (8 * n) - 1 := by
  have hpow : 2 ^ (8 * 2) ≤ 2 ^ (8 * n) := Nat.pow_le_pow_right (by decide) (by omega)
  omega

/-- One byte is never the greatest number of a longer type, so nothing is borrowed from the bytes
    above the lowest one. -/
theorem digits_preDecrement {x : EndianInt me n} {d : Byte} {l : List Byte}
    (h : x.digits = d :: l) : x.preDecrement.digits = (d - 1) :: l := by
  have hlen := x.length_digits
  have hmap : x.preDecrement.digits =
      changeUntil (· - 1) (fun b => b.val ≠ 2 ^ (8 * n) - 1) x.digits :=
    map_changeAt _ _ (nodup_places me n) x.bytes
  rw [h, List.length_cons] at hlen
  rw [hmap, h, changeUntil]
  split_ifs with hstop
  · rfl
  · cases l with
    | nil => rfl
    | cons e l =>
      have hbyte := (d - 1).isLt
      have hgreatest := greatest_of_two_le (n := n) (by
        rw [List.length_cons] at hlen
        omega)
      rw [decide_eq_true_eq, not_not] at hstop
      omega

theorem val_sub_one (d : Byte) : (d - 1).val = if d.val = 0 then 255 else d.val - 1 := by
  have hsub : (d - 1).val = (256 - 1 + d.val) % 256 := rfl
  have hd := d.isLt
  split_ifs <;> omega

theorem value_preDecrement (hn : 1 ≤ n) (x : EndianInt me n) :
    x.preDecrement.value = if x.value % 256 = 0 then x.value + 255 else x.value - 1 := by
  obtain ⟨d, l, h⟩ : ∃ d l, x.digits = d :: l := List.exists_cons_of_length_pos (by
    rw [length_digits]
    exact hn)
  have hd := d.isLt
  rw [value_eq, value_eq, digits_preDecrement h, h, ofDigits, ofDigits, val_sub_one]
  split_ifs <;> omega

/-- What an integer of some byte order is for: it keeps the number it is given, also in the other
    order, and counts as the type does. -/
structure CountsRight (me : Endian) (n v : ℕ) : Prop where
  kept : ∀ x : EndianInt me n, (x.assign v).value = v
  toBig : ∀ x : LittleEndian n, (toBig (x.assign v)).value = v
  toLittle : ∀ x : BigEndian n, (toLittle (x.assign v)).value = v
  preIncrement : ∀ x : EndianInt me n, (x.assign v).preIncrement.value = (v + 1) % 2 ^ (8 * n)
  postIncrement : ∀ x : EndianInt me n, (x.assign v).postIncrement.1.value = v ∧
    (x.assign v).postIncrement.2.value = (v + 1) % 2 ^ (8 * n)
  preDecrement : ∀ x : EndianInt me n,
    (x.assign v).preDecrement.value = (v + 2 ^ (8 * n) - 1) % 2 ^ (8 * n)
  postDecrement : ∀ x : EndianInt me n, (x.assign v).postDecrement.1.value = v ∧
    (x.assign v).postDecrement.2.value = (v + 2 ^ (8 * n) - 1) % 2 ^ (8 * n)

section Exact
variable {v : ℕ}

theorem value_assign (hv : v < 2 ^ (8 * n)) (x : EndianInt me n) : (x.assign v).value = v := by
  rw [Nat.pow_mul] at hv
  rw [value_eq, digits_assign]
  exact ofDigits_toDigits_of_lt hv

theorem value_preIncrement (x : EndianInt me n) :
    x.preIncrement.value = (x.value + 1) % 2 ^ (8 * n) := by
  rw [value_eq, digits_preIncrement, ofDigits_increment, length_digits, value_eq, Nat.pow_mul]

theorem pred_mod (hv : v < 2 ^ (8 * n)) (hne : v ≠ 0) :
    (v + 2 ^ (8 * n) - 1) % 2 ^ (8 * n) = v - 1 := by
  have hsum : v + 2 ^ (8 * n) - 1 = v - 1 + 2 ^ (8 * n) := by omega
  rw [hsum, Nat.add_mod_right, Nat.mod_eq_of_lt (by omega)]

theorem value_preDecrement_iff (hn : 1 ≤ n) {x : EndianInt me n} (hx : x.value = v)
    (hv : v < 2 ^ (8 * n)) :
    x.preDecrement.value = (v + 2 ^ (8 * n) - 1) % 2 ^ (8 * n) ↔ n = 1 ∨ v % 256 ≠ 0 := by
  rw [value_preDecrement hn, hx]
  by_cases hlow : v % 256 = 0
  · rw [if_pos hlow, or_iff_left (not_not_intro hlow)]
    by_cases hone : n = 1
    · subst hone
      have hzero : v = 0 := by omega
      rw [hzero]
      exact iff_of_true rfl rfl
    · refine iff_of_false (fun heq => ?_) hone
      have hgreatest := greatest_of_two_le (n := n) (by omega)
      by_cases hzero : v = 0
      · rw [hzero, Nat.zero_add, Nat.zero_add, Nat.mod_eq_of_lt (by omega)] at heq
        omega
      · rw [pred_mod hv hzero] at heq
        omega
  · have hne : v ≠ 0 := fun hzero => hlow (by rw [hzero])
    rw [if_neg hlow, pred_mod hv hne]
    exact iff_of_true rfl (.inr hlow)

/-- The integers of both byte orders are right up to the decrement, which is right just for one
    byte, and about the numbers whose lowest byte is not zero. -/
theorem countsRight_iff (hn : 1 ≤ n) (hv : v < 2 ^ (8 * n)) :
    CountsRight me n v ↔ n = 1 ∨ v % 256 ≠ 0 := by
  constructor
  · intro h
    have hdec := h.preDecrement ⟨fun _ => 0⟩
    rwa [value_preDecrement_iff hn (value_assign hv _) hv] at hdec
  · intro h
    have hdec : ∀ x : EndianInt me n,
        (x.assign v).preDecrement.value = (v + 2 ^ (8 * n) - 1) % 2 ^ (8 * n) := fun x =>
      (value_preDecrement_iff hn (value_assign hv x) hv).2 h
    have hinc : ∀ x : EndianInt me n,
        (x.assign v).preIncrement.value = (v + 1) % 2 ^ (8 * n) := fun x => by
      rw [value_preIncrement, value_assign hv]
    exact {
      kept := value_assign hv
      toBig := fun x => by rw [value_eq, digits_toBig, ← value_eq, value_assign hv]
      toLittle := fun x => by rw [value_eq, digits_toLittle, ← value_eq, value_assign hv]
      preIncrement := hinc
      postIncrement := fun x => ⟨value_assign hv x, hinc x⟩
      preDecrement := hdec
      postDecrement := fun x => ⟨value_assign hv x, hdec x⟩ }

theorem countsRight_iff_word : CountsRight .big 2 0x0100 ↔ 2 = 1 ∨ 0x0100 % 256 ≠ 0 :=
  countsRight_iff (by decide) (by decide)

/-- Below 0x0100 comes 0x01ff, in both orders. -/
theorem preDecrement_borrow :
    ((⟨fun _ => 0⟩ : LittleEndian 2).assign 0x0100).preDecrement.value = 0x01ff ∧
      ((⟨fun _ => 0⟩ : BigEndian 2).assign 0x0100).preDecrement.value = 0x01ff ∧
      (0x0100 + 2 ^ (8 * 2) - 1) % 2 ^ (8 * 2) = 0x00ff := by
  decide

end Exact

end EndianInt

end UdtKernel
