import UdtKernel.Text.Order
import UdtKernel.Datagram.Wire
import Mathlib.Data.Prod.Lex

set_option autoImplicit false

/-! What the comparisons of texts are orders of. -/

namespace UdtKernel.CText
open Lib

/-- The comparisons order some texts: as lists, with the overloads in agreement; but for the case;
    and in some way. -/
structure Orders (T : Set (List ℕ)) : Prop where
  compare : TotalPreorder T compareAll (· = ·)
  overloads : ∀ a ∈ T, ∀ b ∈ T, (∀ c ∈ b, isCodeValid c = true) →
    compareAllStd a (encode b) = compareAll a b ∧ compareAllCStr a (encode b) = compareAll a b
  noCase : TotalPreorder T mCompareNoCase fun a b => a.map ucs4Tolower = b.map ucs4Tolower
  fastLess : ∀ (me : Endian) (sameBuf : List ℕ → List ℕ → Bool),
    (∀ a b, sameBuf a b = true → a = b) →
    StrictTotal T fun a b => cStringFastLessCompare me (sameBuf a b) a b

def textsOver (A : Set ℕ) (withEmpty : Bool) : Set (List ℕ) :=
  {t | t.length < maxSize ∧ (∀ c ∈ t, c ∈ A) ∧ (t = [] → withEmpty = true)}

/-- No code of an alphabet is between the two cases of a letter in it. -/
def KeepsCases (A : Set ℕ) : Prop :=
  ∀ x ∈ A, ∀ y ∈ A, ∀ z ∈ A, x < y → y < z → ucs4Tolower x = ucs4Tolower z →
    ucs4Tolower y = ucs4Tolower z

section Fast
variable (me : Endian) {n : ℕ} {a b : List ℕ}

theorem flatMap_bytes_inj (ha : ∀ c ∈ a, c < 256 ^ n) (hb : ∀ c ∈ b, c < 256 ^ n)
    (hlen : a.length = b.length) (h : a.flatMap (me.bytes n) = b.flatMap (me.bytes n)) : a = b := by
  induction a generalizing b with
  | nil => exact (List.length_eq_zero_iff.1 hlen.symm).symm
  | cons x a ih =>
    cases b with
    | nil => exact absurd hlen (Nat.succ_ne_zero _)
    | cons y b =>
      rw [List.flatMap_cons, List.flatMap_cons] at h
      obtain ⟨hhead, htail⟩ := List.append_inj h (by rw [me.length_bytes, me.length_bytes])
      have hxy : x = y := by
        rw [← me.value_bytes (ha x List.mem_cons_self), hhead,
          me.value_bytes (hb y List.mem_cons_self)]
      rw [hxy, ih (fun c hc => ha c (List.mem_cons_of_mem x hc))
        (fun c hc => hb c (List.mem_cons_of_mem y hc)) (Nat.succ.inj hlen) htail]

def fastKey (a : List ℕ) : ℕ ×ₗ List ℕ :=
  toLex (a.length, (a.flatMap (me.bytes 4)).map Fin.val)

theorem fastKey_inj (ha : ∀ c ∈ a, c < 2 ^ 32) (hb : ∀ c ∈ b, c < 2 ^ 32)
    (h : fastKey me a = fastKey me b) : a = b := by
  obtain ⟨hlen, hbytes⟩ := Prod.mk.inj (toLex.injective h)
  exact flatMap_bytes_inj me ha hb hlen (List.map_injective_iff.2 Fin.val_injective hbytes)

theorem memcmp_rank {l m : List Byte} (h : l.length = m.length) :
    memcmp l m = rank (l.map Fin.val) (m.map Fin.val) := by
  rw [← firstDiff_rank, List.length_map, List.length_map, h, lengthOrder,
    if_neg (Nat.lt_irrefl _), if_pos rfl]
  rfl

theorem cStringFastLessCompare_iff {sameBuf : Bool} (hsame : sameBuf = true → a = b) :
    cStringFastLessCompare me sameBuf a b = true ↔ fastKey me a < fastKey me b := by
  rw [cStringFastLessCompare, fastKey, fastKey, Prod.Lex.toLex_lt_toLex]
  by_cases hlen : a.length = b.length
  · by_cases hzero : a.length = 0
    · have ha : a = [] := List.length_eq_zero_iff.1 hzero
      have hb : b = [] := List.length_eq_zero_iff.1 (hlen ▸ hzero)
      subst ha hb
      simp
    · rw [if_pos ⟨hlen, hzero⟩]
      cases sameBuf with
      | true =>
        rw [hsame rfl]
        simp
      | false =>
        have hbytes : (a.flatMap (me.bytes 4)).length = (b.flatMap (me.bytes 4)).length := by
          rw [me.length_flatMap_bytes, me.length_flatMap_bytes, hlen]
        simp only [Bool.false_eq_true, if_false, decide_eq_true_eq, memcmp_rank hbytes, rank_neg,
          hlen, Nat.lt_irrefl, false_or, true_and]
  · rw [if_neg fun h => hlen h.1]
    simp [hlen]

end Fast

section Cases
variable {A : Set ℕ}

/-- The least code of an alphabet that is the same letter. -/
noncomputable def caseKey (A : Set ℕ) (c : ℕ) : ℕ :=
  sInf {d | d ∈ A ∧ ucs4Tolower d = ucs4Tolower c}

theorem caseKey_spec {c : ℕ} (hc : c ∈ A) :
    caseKey A c ∈ A ∧ ucs4Tolower (caseKey A c) = ucs4Tolower c ∧ caseKey A c ≤ c :=
  have hmem : c ∈ {d | d ∈ A ∧ ucs4Tolower d = ucs4Tolower c} := ⟨hc, rfl⟩
  have hleast := Nat.sInf_mem ⟨c, hmem⟩
  ⟨hleast.1, hleast.2, Nat.sInf_le hmem⟩

theorem caseKey_congr {x y : ℕ} (h : ucs4Tolower x = ucs4Tolower y) :
    caseKey A x = caseKey A y := by rw [caseKey, caseKey, h]

theorem caseKey_lt (hA : KeepsCases A) {x y : ℕ} (hx : x ∈ A) (hy : y ∈ A)
    (hne : ucs4Tolower x ≠ ucs4Tolower y) (hlt : x < y) : caseKey A x < caseKey A y := by
  obtain ⟨-, -, hxle⟩ := caseKey_spec hx
  obtain ⟨hymem, hysame, -⟩ := caseKey_spec hy
  refine Nat.lt_of_le_of_lt hxle (Nat.lt_of_not_le fun hle => ?_)
  -- else `x` would be between `y` and the other case of it
  rcases Nat.eq_or_lt_of_le hle with heq | hbelow
  · exact hne (heq ▸ hysame)
  · exact hne (hA _ hymem x hx y hy hbelow hlt hysame)

/-- Two codes that differ but for the case are ranked as their least cases are. -/
theorem codeOrder_caseKey (hA : KeepsCases A) {x y : ℕ} (hx : x ∈ A) (hy : y ∈ A)
    (hne : ucs4Tolower x ≠ ucs4Tolower y) :
    codeOrder x y = codeOrder (caseKey A x) (caseKey A y) := by
  have hxy : x ≠ y := fun heq => hne (congrArg ucs4Tolower heq)
  rcases Nat.lt_or_gt_of_ne hxy with hlt | hgt
  · rw [codeOrder, if_pos hlt, codeOrder, if_pos (caseKey_lt hA hx hy hne hlt)]
  · have hkey := caseKey_lt hA hy hx (Ne.symm hne) hgt
    rw [codeOrder, if_neg (Nat.lt_asymm hgt), codeOrder, if_neg (Nat.lt_asymm hkey)]

theorem diffBy_caseKey (hA : KeepsCases A) {l m : List ℕ} (hl : ∀ c ∈ l, c ∈ A)
    (hm : ∀ c ∈ m, c ∈ A) :
    diffBy ucs4Tolower l m = firstDiff (l.map (caseKey A)) (m.map (caseKey A)) := by
  induction l generalizing m with
  | nil => rfl
  | cons x l ih =>
    cases m with
    | nil => rfl
    | cons y m =>
      have hx := hl x List.mem_cons_self
      have hy := hm y List.mem_cons_self
      have hrest := ih (fun c hc => hl c (List.mem_cons_of_mem x hc))
        fun c hc => hm c (List.mem_cons_of_mem y hc)
      rw [List.map_cons, List.map_cons, diffBy, firstDiff]
      by_cases hsame : ucs4Tolower x = ucs4Tolower y
      · rw [if_neg (not_not_intro hsame), if_neg (not_not_intro (caseKey_congr hsame)), hrest]
      · have hkey : caseKey A x ≠ caseKey A y := fun heq => hsame <| by
          rw [← (caseKey_spec hx).2.1, heq, (caseKey_spec hy).2.1]
        rw [if_pos hsame, if_pos hkey, codeOrder_caseKey hA hx hy hsame]

theorem map_caseKey_iff {l m : List ℕ} (hl : ∀ c ∈ l, c ∈ A) (hm : ∀ c ∈ m, c ∈ A) :
    l.map (caseKey A) = m.map (caseKey A) ↔ l.map ucs4Tolower = m.map ucs4Tolower := by
  have hlower : ∀ {t : List ℕ}, (∀ c ∈ t, c ∈ A) →
      (t.map (caseKey A)).map ucs4Tolower = t.map ucs4Tolower := fun ht => by
    rw [List.map_map]
    exact List.map_congr_left fun c hc => (caseKey_spec (ht c hc)).2.1
  have hleast : ∀ t : List ℕ, t.map (caseKey A) =
      (t.map ucs4Tolower).map fun f => sInf {d | d ∈ A ∧ ucs4Tolower d = f} := fun t => by
    rw [List.map_map]
    rfl
  constructor
  · intro h
    rw [← hlower hl, h, hlower hm]
  · intro h
    rw [hleast, h, ← hleast]

theorem mCompareNoCase_rank (hA : KeepsCases A) {a b : List ℕ} (hempty : a = [] ↔ b = [])
    (ha : ∀ c ∈ a, c ∈ A) (hb : ∀ c ∈ b, c ∈ A) :
    mCompareNoCase a b = .ok (rank (a.map (caseKey A)) (b.map (caseKey A))) := by
  rw [mCompareNoCase_eq hempty, diffBy_caseKey hA ha hb, ← firstDiff_rank, List.length_map,
    List.length_map]

end Cases

section Exact
variable {A : Set ℕ} {withEmpty : Bool}

theorem orders_of_keeps (hA : ∀ c ∈ A, c < 2 ^ 32) (hempty : withEmpty = true → A = ∅)
    (hnull : 0 ∉ A) (hcases : KeepsCases A) : Orders (textsOver A withEmpty) where
  compare := totalPreorder_of_rank (fun a _ b _ => compareAll_eq a b) fun _ _ _ _ => Iff.rfl
  overloads a ha b hb hvalid := by
    obtain ⟨text, rfl⟩ := codePoints_of_valid hvalid fun hmem => hnull (hb.2.1 0 hmem)
    have hcodes : a.length < npos := lt_trans ha.1 (by decide)
    have htext : text.length < npos := by
      rw [← List.length_map (f := Subtype.val)]
      exact lt_trans hb.1 (by decide)
    rw [compareAll_eq]
    exact ⟨compareAllStd_eq hcodes htext, compareAllCStr_eq hcodes htext⟩
  noCase := by
    -- with the empty text there is no other one
    have hnil : ∀ t ∈ textsOver A withEmpty, withEmpty = true → t = [] := fun t ht h =>
      List.eq_nil_iff_forall_not_mem.2 fun c hc =>
        Set.eq_empty_iff_forall_notMem.1 (hempty h) c (ht.2.1 c hc)
    refine totalPreorder_of_rank (fun a ha b hb => mCompareNoCase_rank hcases ?_ ha.2.1 hb.2.1)
      fun a ha b hb => map_caseKey_iff ha.2.1 hb.2.1
    exact ⟨fun h => hnil b hb (ha.2.2 h), fun h => hnil a ha (hb.2.2 h)⟩
  fastLess me sameBuf hsame := strictTotal_of_key
    (fun a _ b _ => cStringFastLessCompare_iff me (hsame a b)) fun a ha b hb =>
      fastKey_inj me (fun c hc => hA c (ha.2.1 c hc)) fun c hc => hA c (hb.2.1 c hc)

theorem singleton_mem {c : ℕ} (hc : c ∈ A) : [c] ∈ textsOver A withEmpty :=
  ⟨by rw [List.length_singleton]; decide, fun _ hd => List.mem_singleton.1 hd ▸ hc, nofun⟩

theorem mCompareNoCase_singleton (x y : ℕ) : mCompareNoCase [x] [y] =
    .ok (if ucs4Tolower x ≠ ucs4Tolower y then codeOrder x y else 0) := by
  rw [mCompareNoCase_eq (iff_of_false (List.cons_ne_nil x []) (List.cons_ne_nil y [])), diffBy]
  split_ifs <;> rfl

/-- Three letters, one of them between the two cases of another, go round. -/
theorem keepsCases_of_trans
    (h : TotalPreorder (textsOver A withEmpty) mCompareNoCase fun a b =>
      a.map ucs4Tolower = b.map ucs4Tolower) : KeepsCases A := by
  intro x hx y hy z hz hxy hyz hsame
  by_contra hne
  have hyx : ucs4Tolower x ≠ ucs4Tolower y := fun heq => hne (heq.symm.trans hsame)
  have hzx : NotAbove mCompareNoCase [z] [x] := by
    refine ⟨0, ?_, Int.le_refl 0⟩
    rw [mCompareNoCase_singleton, if_neg (not_not_intro hsame.symm)]
  have hxy' : NotAbove mCompareNoCase [x] [y] := by
    refine ⟨-1, ?_, by decide⟩
    rw [mCompareNoCase_singleton, if_pos hyx, codeOrder, if_pos hxy]
  obtain ⟨r, hr, hle⟩ := h.trans _ (singleton_mem hz) _ (singleton_mem hx) _ (singleton_mem hy)
    hzx hxy'
  rw [mCompareNoCase_singleton, if_pos (Ne.symm hne), codeOrder, if_neg (Nat.lt_asymm hyz)] at hr
  rw [← Except.ok.inj hr] at hle
  exact absurd hle (by decide)

/-- The comparisons order the texts over an alphabet just when it has no null, no code between the
    two cases of a letter, and nothing at all with the empty text among them. -/
theorem orders_iff (hA : ∀ c ∈ A, c < 2 ^ 32) (withEmpty : Bool) :
    Orders (textsOver A withEmpty) ↔
      (withEmpty = true → A = ∅) ∧ 0 ∉ A ∧ KeepsCases A := by
  constructor
  · intro h
    refine ⟨fun hempty => ?_, fun hnull => ?_, keepsCases_of_trans h.noCase⟩
    · refine Set.eq_empty_iff_forall_notMem.2 fun c hc => ?_
      have hnil : [] ∈ textsOver A withEmpty :=
        ⟨by decide, List.forall_mem_nil _, fun _ => hempty⟩
      obtain ⟨r, hr⟩ := h.noCase.total [] hnil [c] (singleton_mem hc)
      rw [mCompareNoCase_nil (List.cons_ne_nil c [])] at hr
      exact nomatch hr
    · have hvalid : ∀ c ∈ [0], isCodeValid c = true := by decide
      have hover := (h.overloads _ (singleton_mem hnull) _ (singleton_mem hnull) hvalid).1
      exact absurd hover (by decide)
  · rintro ⟨hempty, hnull, hcases⟩
    exact orders_of_keeps hA hempty hnull hcases

theorem orders_iff_small :
    Orders (textsOver {c | 0x61 ≤ c ∧ c ≤ 0x7a} false) ↔
      (false = true → {c | 0x61 ≤ c ∧ c ≤ 0x7a} = (∅ : Set ℕ)) ∧
        0 ∉ {c | 0x61 ≤ c ∧ c ≤ 0x7a} ∧ KeepsCases {c | 0x61 ≤ c ∧ c ≤ 0x7a} :=
  orders_iff (fun c hc => lt_of_le_of_lt hc.2 (by decide)) false

/-- `A` is before `B` and `B` before `a`, which is as `A`; the empty text cannot be compared at
    all; and behind a null a `std::string` is not looked at. -/
theorem mCompareNoCase_cycle :
    mCompareNoCase [0x41] [0x42] = .ok (-1) ∧ mCompareNoCase [0x42] [0x61] = .ok (-1) ∧
      mCompareNoCase [0x61] [0x41] = .ok 0 ∧ mCompareNoCase [] [0x61] = .error .check ∧
      compareAll [0x61, 0] [0x61, 0] = .ok 0 ∧ compareAllStd [0x61, 0] (encode [0x61, 0]) = .ok 1 :=
  ⟨rfl, rfl, rfl, rfl, rfl, rfl⟩

end Exact

end UdtKernel.CText
