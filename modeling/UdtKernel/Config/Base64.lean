import UdtKernel.Types

set_option autoImplicit false

/-! How the header of a message is written as a text. -/

namespace UdtKernel.Config

/-- The table of `from_6_bit`. -/
def sextetChar (v : ℕ) : Char :=
  Char.ofNat (if v < 26 then 65 + v else if v < 52 then 97 + (v - 26)
    else if v < 62 then 48 + (v - 52) else if v = 62 then 43 else 47)

/-- The table of `to_6_bit`. -/
def sextet (c : Char) : Option ℕ :=
  let t := c.toNat
  if 65 ≤ t ∧ t ≤ 90 then some (t - 65)
  else if 97 ≤ t ∧ t ≤ 122 then some (t - 97 + 26)
  else if 48 ≤ t ∧ t ≤ 57 then some (t - 48 + 52)
  else if t = 43 then some 62
  else if t = 47 then some 63
  else none

def base64Encode : List Byte → Text
  | a :: b :: c :: l =>
    sextetChar (a.val / 4) :: sextetChar (a.val % 4 * 16 + b.val / 16) ::
      sextetChar (b.val % 16 * 4 + c.val / 64) :: sextetChar (c.val % 64) :: base64Encode l
  | [a, b] =>
    [sextetChar (a.val / 4), sextetChar (a.val % 4 * 16 + b.val / 16),
      sextetChar (b.val % 16 * 4), '=']
  | [a] => [sextetChar (a.val / 4), sextetChar (a.val % 4 * 16), '=', '=']
  | [] => []

/-- `base64_decode` of so many bytes; `rest` is what is left of `bits` bits already read. It ends
    at a character that is not of the table. -/
def base64Decode : ℕ → ℕ → ℕ → Text → List Byte
  | 0, _, _, _ => []
  | _ + 1, _, _, [] => []
  | n + 1, bits, rest, c :: l => match sextet c with
    | none => []
    | some v =>
      let sum := rest * 64 + v
      if bits < 2 then base64Decode (n + 1) (bits + 6) sum l
      else Fin.ofNat 256 (sum / 2 ^ (bits - 2)) ::
        base64Decode n (bits - 2) (sum % 2 ^ (bits - 2)) l

theorem sextet_sextetChar {v : ℕ} (h : v < 64) : sextet (sextetChar v) = some v := by
  have hall : ∀ v < 64, sextet (sextetChar v) = some v := by decide
  exact hall v h

section
variable {v : ℕ} (hv : v < 64) (n rest : ℕ) (l : Text)
include hv

theorem base64Decode_start :
    base64Decode (n + 1) 0 rest (sextetChar v :: l) =
      base64Decode (n + 1) 6 (rest * 64 + v) l := by
  rw [base64Decode, sextet_sextetChar hv]
  rfl

theorem base64Decode_next {bits : ℕ} (h : 2 ≤ bits) :
    base64Decode (n + 1) bits rest (sextetChar v :: l) =
      Fin.ofNat 256 ((rest * 64 + v) / 2 ^ (bits - 2)) ::
        base64Decode n (bits - 2) ((rest * 64 + v) % 2 ^ (bits - 2)) l := by
  rw [base64Decode, sextet_sextetChar hv]
  exact if_neg (Nat.not_lt.2 h)

end

theorem ofNat_of_eq {a : Byte} {v : ℕ} (h : v = a.val) : Fin.ofNat 256 v = a :=
  Fin.ext (by rw [h, Fin.val_ofNat, Nat.mod_eq_of_lt a.isLt])

/-- A byte comes with its second character, and leaves four bits of it. -/
theorem base64Decode_first (a : Byte) {v : ℕ} (hv : v < 16) (n : ℕ) (l : Text) :
    base64Decode (n + 1) 0 0
        (sextetChar (a.val / 4) :: sextetChar (a.val % 4 * 16 + v) :: l) =
      a :: base64Decode n 4 v l := by
  have ha := a.isLt
  rw [base64Decode_start (by omega), base64Decode_next (by omega) _ _ _ (by decide),
    ofNat_of_eq (a := a) (by omega)]
  congr 2
  omega

theorem base64Decode_second (b : Byte) {v : ℕ} (hv : v < 4) (n : ℕ) (l : Text) :
    base64Decode (n + 1) 4 (b.val / 16) (sextetChar (b.val % 16 * 4 + v) :: l) =
      b :: base64Decode n 2 v l := by
  have hb := b.isLt
  rw [base64Decode_next (by omega) _ _ _ (by decide), ofNat_of_eq (a := b) (by omega)]
  congr 2
  omega

theorem base64Decode_third (c : Byte) (n : ℕ) (l : Text) :
    base64Decode (n + 1) 2 (c.val / 64) (sextetChar (c.val % 64) :: l) =
      c :: base64Decode n 0 0 l := by
  have hc := c.isLt
  rw [base64Decode_next (by omega) _ _ _ (by decide), ofNat_of_eq (a := c) (by omega)]
  congr 2
  omega

/-- Bytes that are written are read back. -/
theorem base64Decode_encode (l : List Byte) : base64Decode l.length 0 0 (base64Encode l) = l := by
  fun_induction base64Encode l with
  | case1 a b c l ih =>
    have hb : b.val / 16 < 16 := by omega
    have hc : c.val / 64 < 4 := by omega
    rw [List.length_cons, base64Decode_first a hb, List.length_cons, base64Decode_second b hc,
      List.length_cons, base64Decode_third, ih]
  | case2 a b =>
    have hb : b.val / 16 < 16 := by omega
    rw [List.length_cons, base64Decode_first a hb, List.length_singleton]
    exact congrArg (List.cons a) (base64Decode_second b (by decide : 0 < 4) 0 ['='])
  | case3 a => exact base64Decode_first a (by decide : 0 < 16) 0 ['=', '=']
  | case4 => rfl

end UdtKernel.Config
