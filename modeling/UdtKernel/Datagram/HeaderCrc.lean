import UdtKernel.Datagram.Whole
import UdtKernel.Lib.Remainder

set_option autoImplicit false

/-! The table of `crc8_t`, the division that it stands for, and the damages of a header that its
checksum finds. -/

namespace UdtKernel
open UdtKernel.Lib Head Polynomial

/-- A polynomial of eight bits, of which the lowest is set. -/
structure Polynom where
  val : ℕ
  lt : val < 2 ^ 8
  odd : val.testBit 0 = true

/-- The inner loop of `sMakeCRCTable`. -/
def fillRow (i remaind : ℕ) (crctab : ℕ → ℕ) : ℕ → ℕ → ℕ
  | 0 => crctab
  | j + 1 =>
    let crctab' := fillRow i remaind crctab j
    Function.update crctab' (i + j) ((crctab' j ^^^ remaind) % 2 ^ 8)

/-- The loop of `sMakeCRCTable` from `i = 2 ^ n` on. -/
def fillRows (polynom n remaind : ℕ) (crctab : ℕ → ℕ) : ℕ → ℕ :=
  if 2 ^ n < 256 then
    let remaind' := (remaind <<< 1) % 2 ^ 32 ^^^ (if remaind &&& 0x80 ≠ 0 then polynom else 0)
    fillRows polynom (n + 1) remaind' (fillRow (2 ^ n) remaind' crctab (2 ^ n))
  else crctab
termination_by 256 - 2 ^ n
decreasing_by
  have hpos := Nat.two_pow_pos n
  rw [pow_succ]
  omega

/-- `sMakeCRCTable` of `make_t<TPolyType, false>`, into some memory. -/
def makeCrcTable (polynom : ℕ) (crctab : ℕ → ℕ) : ℕ → ℕ :=
  fillRows polynom 0 0x80 (Function.update crctab 0 0)

def calcNextCrc (crctab : ℕ → ℕ) (aCrc8 : ℕ) (aNextVal : Byte) : ℕ :=
  crctab (aCrc8 ^^^ aNextVal.val)

def calcCrcOfBuf (crctab : ℕ → ℕ) (aOffset : Byte) (l : List Byte) : ℕ :=
  l.foldl (calcNextCrc crctab) aOffset.val

def bitsOfBytes (l : List Byte) : List Bool := l.flatMap fun b => bitsOf 8 b.val

def divideBytes (polynom : ℕ) (initial : Byte) (l : List Byte) : ℕ :=
  (bitsOfBytes l).foldl (divideBit 8 polynom) initial.val

def damaged (l errors : List Byte) : List Byte :=
  List.zipWith (fun a b => byteOf (a.val ^^^ b.val)) l errors

/-- Errors in a head that are within eight bits. -/
def Burst (errors : List Byte) : Prop :=
  errors.length = sizeofHead ∧ true ∈ bitsOfBytes errors ∧
    ∃ k, ∀ i, (bitsOfBytes errors)[i]? = some true → k ≤ i ∧ i < k + 8

/-- The checksum of the table is that of the division, and is found again behind the bytes. -/
structure Checks (polynom : Polynom) (crctab : ℕ → ℕ) (initial : Byte) (l : List Byte) : Prop where
  divided : calcCrcOfBuf crctab initial l = divideBytes polynom.val initial l
  remainder : polyOf 8 (calcCrcOfBuf crctab initial l) =
    (X ^ (bitsOfBytes l).length * polyOf 8 initial.val + ofBits (bitsOfBytes l) * X ^ 8) %ₘ
      divisor 8 polynom.val
  found : ∀ c : Byte, calcCrcOfBuf crctab initial (l ++ [c]) =
    calcNextCrc crctab initial.val initial ↔ c.val = calcCrcOfBuf crctab initial l

theorem and_msbit (r : ℕ) : r &&& 0x80 ≠ 0 ↔ r.testBit 7 = true := by
  have hand := Nat.and_two_pow r 7
  change r &&& 2 ^ 7 ≠ 0 ↔ _
  rw [hand]
  cases r.testBit 7 <;> simp

theorem divideBytes_append (polynom : ℕ) (initial : Byte) (l : List Byte) (c : Byte) :
    divideBytes polynom initial (l ++ [c]) =
      (bitsOf 8 c.val).foldl (divideBit 8 polynom) (divideBytes polynom initial l) := by
  unfold divideBytes bitsOfBytes
  rw [List.flatMap_append, List.foldl_append, List.flatMap_singleton]

theorem fillRow_eq (remaind : ℕ) (crctab : ℕ → ℕ) {i j : ℕ} (hj : j ≤ i) (k : ℕ) :
    fillRow i remaind crctab j k =
      if i ≤ k ∧ k < i + j then (crctab (k - i) ^^^ remaind) % 2 ^ 8 else crctab k := by
  induction j generalizing k with
  | zero => rw [fillRow, if_neg (by omega)]
  | succ j ih =>
    rw [fillRow]
    by_cases hk : k = i + j
    · subst hk
      rw [Function.update_self, ih (by omega), if_neg (by omega), if_pos (by omega),
        Nat.add_sub_cancel_left]
    · rw [Function.update_of_ne hk, ih (by omega)]
      refine if_congr ?_ rfl rfl
      omega

section
variable {polynom : ℕ} (hlt : polynom < 2 ^ 8)
include hlt

theorem crcRemaind_lt (n : ℕ) : crcRemaind 0x80 polynom n < 2 ^ (n + 8) := by
  induction n with
  | zero =>
    rw [crcRemaind]
    decide
  | succ n ih =>
    rw [crcRemaind]
    refine Nat.xor_lt_two_pow ?_ ?_
    · rw [Nat.shiftLeft_eq, pow_one, Nat.add_right_comm, pow_succ]
      omega
    · have hle : 2 ^ 8 ≤ 2 ^ (n + 1 + 8) := Nat.pow_le_pow_right (by decide) (by omega)
      split_ifs
      · omega
      · omega

/-- The lowest bits of the remainder are those of the register. -/
theorem crcRemaind_mod (n : ℕ) :
    crcRemaind 0x80 polynom (n + 1) % 2 ^ 8 =
      shift 8 polynom (crcRemaind 0x80 polynom n % 2 ^ 8) := by
  have hbit : (crcRemaind 0x80 polynom n % 2 ^ 8).testBit 7 =
      (crcRemaind 0x80 polynom n).testBit 7 := by
    rw [Nat.testBit_mod_two_pow]
    rfl
  rw [crcRemaind, shift, Nat.xor_mod_two_pow, Nat.shiftLeft_eq, pow_one, Nat.mul_mod_mod,
    Nat.mul_comm 2]
  congr 1
  simp only [and_msbit, hbit]
  split_ifs
  · exact Nat.mod_eq_of_lt hlt
  · rfl

theorem isRemainder_crcRemaind (n : ℕ) :
    IsRemainder 8 polynom (crcRemaind 0x80 polynom n % 2 ^ 8) (X ^ (n + 7)) := by
  induction n with
  | zero =>
    have hpoly : polyOf 8 (2 ^ 7) = X ^ 7 := polyOf_two_pow (by decide)
    rw [Nat.zero_add, ← hpoly]
    exact IsRemainder.of_lt polynom (Nat.mod_lt _ (by decide))
  | succ n ih =>
    have hstep := ih.shift (by decide) hlt
    rw [← pow_succ', Nat.add_right_comm] at hstep
    rw [crcRemaind_mod hlt]
    exact hstep

/-- An entry of the table is the remainder of its byte. -/
theorem isRemainder_crcEntry {n k : ℕ} (hn : n ≤ 8) (hk : k < 2 ^ n) :
    IsRemainder 8 polynom (crcEntry 0x80 polynom n k) (X ^ 8 * polyOf 8 k) := by
  induction n generalizing k with
  | zero =>
    obtain rfl : k = 0 := by simpa using hk
    rw [crcEntry, polyOf_zero, mul_zero, ← polyOf_zero 8]
    exact IsRemainder.of_lt polynom (by decide)
  | succ n ih =>
    rw [crcEntry]
    split_ifs with hle
    · obtain ⟨j, rfl⟩ := Nat.exists_eq_add_of_le hle
      have hj : j < 2 ^ n := by
        rw [pow_succ] at hk
        omega
      have hlow := ih (by omega) hj
      have hsum := hlow.xor (isRemainder_crcRemaind hlt (n + 1))
      have hmod : (crcEntry 0x80 polynom n j ^^^ crcRemaind 0x80 polynom (n + 1)) % (2 * 0x80) =
          crcEntry 0x80 polynom n j ^^^ crcRemaind 0x80 polynom (n + 1) % 2 ^ 8 := by
        change _ % 2 ^ 8 = _
        rw [Nat.xor_mod_two_pow, Nat.mod_eq_of_lt hlow.lt]
      have hpoly : X ^ 8 * polyOf 8 j + X ^ (n + 1 + 7) = X ^ 8 * polyOf 8 (2 ^ n + j) := by
        rw [polyOf_two_pow_add (by omega) hj, mul_add, ← pow_add]
        congr 2
        omega
      rw [Nat.add_sub_cancel_left, hmod, ← hpoly]
      exact hsum
    · exact ih (by omega) (by omega)

/-- The rows fill in what the recursion over them says. -/
theorem fillRows_eq {n remaind : ℕ} {crctab : ℕ → ℕ} (hn : n ≤ 8)
    (hremaind : remaind = crcRemaind 0x80 polynom n)
    (hcrctab : ∀ k < 2 ^ n, crctab k = crcEntry 0x80 polynom n k) {k : ℕ} (hk : k < 2 ^ 8) :
    fillRows polynom n remaind crctab k = crcEntry 0x80 polynom 8 k := by
  induction hm : 8 - n generalizing n remaind crctab with
  | zero =>
    obtain rfl : n = 8 := by omega
    rw [fillRows, if_neg (by decide)]
    exact hcrctab k hk
  | succ m ih =>
    have hlt' : 2 ^ n < 256 := Nat.pow_lt_pow_right (m := n) (n := 8) (by decide) (by omega)
    have hbound : remaind <<< 1 < 2 ^ 32 := by
      have hr := crcRemaind_lt hlt n
      have hle : 2 ^ (n + 8) ≤ 2 ^ 16 := Nat.pow_le_pow_right (by decide) (by omega)
      rw [Nat.shiftLeft_eq, hremaind]
      omega
    rw [fillRows, if_pos hlt']
    refine ih (by omega) ?_ ?_ (by omega)
    · rw [Nat.mod_eq_of_lt hbound, hremaind, crcRemaind]
    · intro j hj
      rw [pow_succ] at hj
      rw [fillRow_eq _ _ le_rfl, crcEntry, Nat.mod_eq_of_lt hbound, hremaind]
      by_cases hle : 2 ^ n ≤ j
      · rw [if_pos ⟨hle, by omega⟩, if_pos hle, hcrctab _ (by omega), crcRemaind]
        rfl
      · rw [if_neg (fun h => hle h.1), if_neg hle, hcrctab j (by omega)]

/-- The table, whatever the memory held. -/
theorem makeCrcTable_eq (crctab : ℕ → ℕ) {k : ℕ} (hk : k < 2 ^ 8) :
    makeCrcTable polynom crctab k = crcEntry 0x80 polynom 8 k := by
  refine fillRows_eq hlt (by decide) rfl ?_ hk
  intro j hj
  obtain rfl : j = 0 := by
    rw [pow_zero] at hj
    omega
  exact Function.update_self _ _ _

/-- A byte is looked up as its bits are divided. -/
theorem calcNextCrc_eq (crctab : ℕ → ℕ) {s : ℕ} (hs : s < 2 ^ 8) (b : Byte) :
    calcNextCrc (makeCrcTable polynom crctab) s b =
      (bitsOf 8 b.val).foldl (divideBit 8 polynom) s := by
  have hxor : s ^^^ b.val < 2 ^ 8 := Nat.xor_lt_two_pow hs b.isLt
  have hentry := isRemainder_crcEntry hlt le_rfl hxor
  have hbits := (IsRemainder.of_lt polynom hs).divideBits (by decide) hlt (bitsOf 8 b.val)
  rw [length_bitsOf, ofBits_bitsOf, mul_comm (polyOf 8 b.val), ← mul_add, ← polyOf_xor] at hbits
  unfold calcNextCrc
  rw [makeCrcTable_eq hlt crctab hxor]
  exact hentry.unique hbits

/-- Dividing some bytes leaves a remainder. -/
theorem isRemainder_divideBytes (initial : Byte) (l : List Byte) :
    IsRemainder 8 polynom (divideBytes polynom initial l)
      (X ^ (bitsOfBytes l).length * polyOf 8 initial.val + ofBits (bitsOfBytes l) * X ^ 8) :=
  (IsRemainder.of_lt polynom initial.isLt).divideBits (by decide) hlt (bitsOfBytes l)

theorem calcCrcOfBuf_eq (crctab : ℕ → ℕ) (initial : Byte) (l : List Byte) :
    calcCrcOfBuf (makeCrcTable polynom crctab) initial l = divideBytes polynom initial l := by
  induction l using List.reverseRecOn with
  | nil => rfl
  | append_singleton l c ih =>
    have hlast := calcNextCrc_eq hlt crctab (isRemainder_divideBytes hlt initial l).lt c
    unfold calcCrcOfBuf at ih ⊢
    rw [List.foldl_append, ih, divideBytes_append]
    exact hlast

end

/-- The byte behind some bytes gives nothing just when it is their checksum. -/
theorem divideBytes_append_eq_zero_iff (p : Polynom) (initial : Byte) (l : List Byte) (c : Byte) :
    divideBytes p.val initial (l ++ [c]) = 0 ↔ c.val = divideBytes p.val initial l := by
  have hlt := (isRemainder_divideBytes p.lt initial l).lt
  have hxor := Nat.xor_lt_two_pow hlt c.isLt
  have hentry := isRemainder_crcEntry p.lt le_rfl hxor
  have hlast := calcNextCrc_eq p.lt (fun _ => 0) hlt c
  unfold calcNextCrc at hlast
  rw [makeCrcTable_eq p.lt _ hxor] at hlast
  rw [divideBytes_append, ← hlast, hentry.eq_zero_iff, mul_comm]
  constructor
  · intro hdvd
    have hbyte := (isCoprime_divisor (by decide) p.odd 8).dvd_of_dvd_mul_right hdvd
    have hzero := (IsRemainder.of_lt p.val hxor).eq_zero_iff.2 hbyte
    exact (Nat.xor_eq_zero_iff.1 hzero).symm
  · rintro heq
    rw [heq, Nat.xor_self, polyOf_zero, zero_mul]
    exact dvd_zero _

theorem checkingConstant_eq (p : Polynom) (crctab : ℕ → ℕ) (initial : Byte) :
    calcNextCrc (makeCrcTable p.val crctab) initial.val initial = 0 := by
  unfold calcNextCrc
  rw [Nat.xor_self, makeCrcTable_eq p.lt crctab (by decide)]
  have hentry := isRemainder_crcEntry p.lt le_rfl (show 0 < 2 ^ 8 by decide)
  rw [hentry.eq_zero_iff, polyOf_zero, mul_zero]
  exact dvd_zero _

theorem checks (p : Polynom) (crctab : ℕ → ℕ) (initial : Byte) (l : List Byte) :
    Checks p (makeCrcTable p.val crctab) initial l := by
  refine ⟨calcCrcOfBuf_eq p.lt crctab initial l, ?_, fun c => ?_⟩
  · rw [calcCrcOfBuf_eq p.lt]
    exact (isRemainder_divideBytes p.lt initial l).polyOf_eq
  · rw [calcCrcOfBuf_eq p.lt, calcCrcOfBuf_eq p.lt, checkingConstant_eq,
      divideBytes_append_eq_zero_iff]

/-- The polynomial of `udt_protocol_header_crc_t`. -/
def headerPolynom : Polynom := ⟨0x97, by decide, by decide⟩

theorem headerCrc_eq (crctab : ℕ → ℕ) (l : List Byte) :
    headerCrc l = calcCrcOfBuf (makeCrcTable 0x97 crctab) 1 l := by
  have hlt := headerPolynom.lt
  induction l using List.reverseRecOn with
  | nil => rfl
  | append_singleton l c ih =>
    have hs := (isRemainder_divideBytes hlt 1 l).lt
    rw [← calcCrcOfBuf_eq hlt crctab] at hs
    unfold headerCrc calcCrcOfBuf at ih ⊢
    rw [List.foldl_append, List.foldl_append, ih]
    exact (makeCrcTable_eq hlt crctab (Nat.xor_lt_two_pow hs c.isLt)).symm

theorem headerCrc_eq_divideBytes (l : List Byte) :
    headerCrc l = divideBytes headerPolynom.val 1 l := by
  rw [headerCrc_eq (fun _ => 0)]
  exact calcCrcOfBuf_eq headerPolynom.lt _ 1 l

theorem headerConstant_eq : checkingConstant = 0 := by
  have hzero := checkingConstant_eq headerPolynom (fun _ => 0) 1
  unfold calcNextCrc at hzero
  rw [makeCrcTable_eq headerPolynom.lt _ (by decide)] at hzero
  exact hzero

theorem isValidProtocol_iff {head : List Byte} (hlen : head.length = sizeofHead)
    (tail : List Byte) : isValidProtocol (head ++ tail) = true ↔ headerCrc head = 0 := by
  unfold isValidProtocol
  rw [Bool.and_eq_true, List.take_left' hlen, headerConstant_eq, beq_iff_eq, decide_eq_true_eq,
    List.length_append]
  exact and_iff_right (by omega)

theorem bitsOfBytes_cons (b : Byte) (l : List Byte) :
    bitsOfBytes (b :: l) = bitsOf 8 b.val ++ bitsOfBytes l := List.flatMap_cons

theorem length_bitsOfBytes (l : List Byte) : (bitsOfBytes l).length = 8 * l.length := by
  induction l with
  | nil => rfl
  | cons b l ih =>
    rw [bitsOfBytes_cons, List.length_append, length_bitsOf, ih, List.length_cons]
    omega

theorem length_damaged {l errors : List Byte} (hlen : errors.length = l.length) :
    (damaged l errors).length = l.length := by
  unfold damaged
  rw [List.length_zipWith, hlen, Nat.min_self]

/-- What is damaged is the sum of what it was and the errors. -/
theorem ofBits_damaged {l errors : List Byte} (hlen : errors.length = l.length) :
    ofBits (bitsOfBytes (damaged l errors)) =
      ofBits (bitsOfBytes l) + ofBits (bitsOfBytes errors) := by
  induction l generalizing errors with
  | nil =>
    rw [List.eq_nil_of_length_eq_zero hlen]
    exact (add_zero 0).symm
  | cons a l ih =>
    obtain ⟨b, errors, rfl⟩ := List.exists_cons_of_length_eq_add_one hlen
    have hrest : errors.length = l.length := by simpa using hlen
    have hxor : a.val ^^^ b.val < 2 ^ 8 := Nat.xor_lt_two_pow a.isLt b.isLt
    have hbyte : (byteOf (a.val ^^^ b.val)).val = a.val ^^^ b.val := Nat.mod_eq_of_lt hxor
    change ofBits (bitsOfBytes (byteOf (a.val ^^^ b.val) :: damaged l errors)) = _
    rw [bitsOfBytes_cons, bitsOfBytes_cons, bitsOfBytes_cons, ofBits_append, ofBits_append,
      ofBits_append, ofBits_bitsOf, ofBits_bitsOf, ofBits_bitsOf, hbyte, polyOf_xor, ih hrest,
      length_bitsOfBytes, length_bitsOfBytes, length_bitsOfBytes, length_damaged hrest, hrest]
    ring

/-- A head with a checksum of its own is not accepted after errors within eight bits. -/
theorem headerCrc_damaged {head errors : List Byte} (hlen : head.length = sizeofHead)
    (hvalid : headerCrc head = 0) (hburst : Burst errors) :
    headerCrc (damaged head errors) ≠ 0 := by
  obtain ⟨hsize, hmem, k, hin⟩ := hburst
  have heq := hsize.trans hlen.symm
  intro hzero
  rw [headerCrc_eq_divideBytes] at hvalid hzero
  have hlt := headerPolynom.lt
  have hhead := (isRemainder_divideBytes hlt 1 head).eq_zero_iff.1 hvalid
  have hdamaged := (isRemainder_divideBytes hlt 1 (damaged head errors)).eq_zero_iff.1 hzero
  rw [ofBits_damaged heq, length_bitsOfBytes, length_damaged heq, ← length_bitsOfBytes, add_mul,
    ← add_assoc] at hdamaged
  have herrors := (dvd_add_right hhead).1 hdamaged
  have hword := (isCoprime_divisor (by decide) headerPolynom.odd 8).dvd_of_dvd_mul_right herrors
  exact not_dvd_ofBits (by decide) headerPolynom.odd hin hmem hword

/-- The checksum of a head is its last byte. -/
theorem headerCrc_fillDgHeadOf (me : Endian) (stamp : Stamp)
    (major minor msgType flags fullSize : ℕ) (body : List Byte) (isNeedCrc : Bool) :
    headerCrc (fillDgHeadOf me stamp major minor msgType flags fullSize body isNeedCrc).flatten =
      0 := by
  unfold fillDgHeadOf
  dsimp only
  rw [List.flatten_append, List.flatten_singleton, headerCrc_eq_divideBytes,
    divideBytes_append_eq_zero_iff, headerCrc_eq_divideBytes]
  exact Nat.mod_eq_of_lt (isRemainder_divideBytes headerPolynom.lt 1 _).lt

/-- The checksums of every polynomial with its lowest bit set, and the heads that they guard. -/
theorem header_checked :
    (∀ (p : Polynom) (crctab : ℕ → ℕ) (initial : Byte) (l : List Byte),
      Checks p (makeCrcTable p.val crctab) initial l) ∧
    (∀ (crctab : ℕ → ℕ) (l : List Byte),
      headerCrc l = calcCrcOfBuf (makeCrcTable 0x97 crctab) 0x01 l) ∧
    ∀ (me : Endian) (stamp : Stamp) (major minor msgType flags fullSize : ℕ) (body : List Byte)
      (isNeedCrc : Bool) (tail : List Byte),
      let head :=
        (fillDgHeadOf me stamp major minor msgType flags fullSize body isNeedCrc).flatten
      isValidProtocol (head ++ tail) = true ∧
        ∀ errors, Burst errors → isValidProtocol (damaged head errors ++ tail) = false := by
  refine ⟨checks, headerCrc_eq, ?_⟩
  intro me stamp major minor msgType flags fullSize body isNeedCrc tail head
  have hlen : head.length = sizeofHead :=
    length_fillDgHeadOf me stamp major minor msgType flags fullSize body isNeedCrc
  have hvalid : headerCrc head = 0 :=
    headerCrc_fillDgHeadOf me stamp major minor msgType flags fullSize body isNeedCrc
  refine ⟨(isValidProtocol_iff hlen tail).2 hvalid, fun errors hburst => ?_⟩
  have hsize := length_damaged (hburst.1.trans hlen.symm)
  rw [← Bool.not_eq_true, isValidProtocol_iff (hsize.trans hlen)]
  exact headerCrc_damaged hlen hvalid hburst

/-- A head in whose checksum the lowest bit is turned. -/
theorem header_checked_lastBit : isValidProtocol (damaged
    (fillDgHeadOf .little ⟨0, 0, 0, 0, 0⟩ 0 2 21 0 33 [] false).flatten
      (List.replicate 31 0 ++ [1]) ++ []) = false := by
  refine (header_checked.2.2 .little ⟨0, 0, 0, 0, 0⟩ 0 2 21 0 33 [] false []).2 _ ⟨rfl, ?_, 248, ?_⟩
  · decide
  · intro i hi
    have hlt := (List.getElem?_eq_some_iff.1 hi).1
    rw [length_bitsOfBytes] at hlt
    change i < 256 at hlt
    have hall : ∀ i < 256, (bitsOfBytes (List.replicate 31 0 ++ [1]))[i]? = some true →
        248 ≤ i := by
      decide +kernel
    exact ⟨hall i hlt hi, hlt⟩

end UdtKernel
