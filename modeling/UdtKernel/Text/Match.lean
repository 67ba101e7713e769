import UdtKernel.Text.Store
import UdtKernel.Lib.Wildcard

set_option autoImplicit false

/-! The wild cards of `MIsMatch`. -/

namespace UdtKernel.CText
open Lib

def backslash : ℕ := 0x5c

def questionMark : ℕ := 0x3f

def asterisk : ℕ := 0x2a

/-- The loop for `'*'`, over the places that are not the end. -/
def matchLoop (isMatch : List ℕ → Except Fault Bool) : List ℕ → Except Fault Bool
  | [] => .ok false
  | c :: it => do if ← isMatch (c :: it) then return true else matchLoop isMatch it

/-- `sMIsMatch`, with what is left of the pattern and of the text; a read behind the text, where
    only the null of the buffer stands, is one outside. -/
def sMIsMatch : List ℕ → Bool → List ℕ → Except Fault Bool
  | [], _, it => .ok it.isEmpty
  | c :: pat, isEscape, it =>
    if isEscape = false ∧ c = backslash then sMIsMatch pat true it
    else if isEscape = false ∧ c = questionMark then
      match it with
      | [] => .ok false
      | _ :: it => sMIsMatch pat false it
    else if isEscape = false ∧ c = asterisk then
      if pat = [] then .ok true else matchLoop (sMIsMatch pat false) it
    else
      match it with
      | [] => .error .outside
      | d :: it => if c ≠ d then .ok false else sMIsMatch pat false it

def mIsMatch (codes aStr : List ℕ) : Except Fault Bool := do
  check (aStr ≠ [])
  sMIsMatch aStr false codes

/-- What the characters of a pattern stand for, the first one of them quoted or not. -/
def wilds : Bool → List ℕ → List (Wild ℕ)
  | _, [] => []
  | true, c :: pat => .lit c :: wilds false pat
  | false, c :: pat =>
    if c = backslash then wilds true pat
    else if c = questionMark then .one :: wilds false pat
    else if c = asterisk then .any :: wilds false pat
    else .lit c :: wilds false pat

/-- A pattern ends with a backslash that quotes nothing. -/
def endsQuoting : Bool → List ℕ → Bool
  | isEscape, [] => isEscape
  | true, _ :: pat => endsQuoting false pat
  | false, c :: pat => endsQuoting (c = backslash) pat

/-- The matcher on what the characters of the pattern stand for. -/
def matchWilds (closed : Bool) : List (Wild ℕ) → List ℕ → Except Fault Bool
  | [], it => .ok it.isEmpty
  | .one :: _, [] => .ok false
  | .one :: q, _ :: it => matchWilds closed q it
  | .any :: q, it =>
    if q = [] ∧ closed = false then .ok true else matchLoop (matchWilds closed q) it
  | .lit _ :: _, [] => .error .outside
  | .lit c :: q, d :: it => if c ≠ d then .ok false else matchWilds closed q it

section Wilds
variable {pat : List ℕ}

/-- Nothing is left of a pattern when no wild card and no quote is. -/
theorem wilds_eq_nil : wilds false pat = [] ∧ endsQuoting false pat = false ↔ pat = [] := by
  cases pat with
  | nil => exact iff_of_true ⟨rfl, rfl⟩ rfl
  | cons c pat =>
    refine iff_of_false (fun ⟨hwilds, hends⟩ => ?_) (List.cons_ne_nil c pat)
    rw [wilds] at hwilds
    rw [endsQuoting] at hends
    split_ifs at hwilds with hquote
    rw [decide_eq_true hquote] at hends
    cases pat with
    | nil => exact nomatch hends
    | cons d pat => exact nomatch hwilds

theorem sMIsMatch_eq (isEscape : Bool) (it : List ℕ) :
    sMIsMatch pat isEscape it = matchWilds (endsQuoting isEscape pat) (wilds isEscape pat) it := by
  induction pat generalizing isEscape it with
  | nil => rfl
  | cons c pat ih =>
    have hlit : ∀ it, (match it with
        | [] => Except.error Fault.outside
        | d :: it => if c ≠ d then .ok false else sMIsMatch pat false it) =
        matchWilds (endsQuoting false pat) (.lit c :: wilds false pat) it := by
      intro it
      cases it with
      | nil => rfl
      | cons d it => rw [matchWilds, ← ih false it]
    cases isEscape with
    | true =>
      rw [sMIsMatch.eq_def]
      simp only [Bool.true_eq_false, false_and, if_false, endsQuoting, wilds]
      exact hlit it
    | false =>
      rw [sMIsMatch.eq_def]
      simp only [true_and, endsQuoting, wilds]
      split_ifs with hquote hone hany hnil
      · rw [decide_eq_true hquote]
        exact ih true it
      · rw [decide_eq_false hquote]
        cases it with
        | nil => rfl
        | cons d it => exact ih false it
      · rw [decide_eq_false hquote, matchWilds, if_pos (wilds_eq_nil.2 hnil)]
      · rw [decide_eq_false hquote, matchWilds, if_neg (mt wilds_eq_nil.1 hnil)]
        exact congrArg (fun f => matchLoop f it) (funext fun u => ih false u)
      · rw [decide_eq_false hquote]
        exact hlit it

end Wilds

section Results
variable {closed : Bool} {q : List (Wild ℕ)} {it : List ℕ}

inductive Result (closed : Bool) (q : List (Wild ℕ)) (it : List ℕ) : Except Fault Bool → Prop
  | found (h : Wild.Leaving closed q it) : Result closed q it (.ok true)
  | outside (h : ¬Wild.Leaving closed q it) (hout : Wild.Exhausts q it) :
    Result closed q it (.error .outside)
  | none (h : ¬Wild.Leaving closed q it) (hin : ¬Wild.Exhausts q it) :
    Result closed q it (.ok false)

theorem matchLoop_result (hsome : q ≠ [] ∨ closed = true)
    (h : ∀ u, Result closed q u (matchWilds closed q u)) (it : List ℕ) :
    Result closed (.any :: q) it (matchLoop (matchWilds closed q) it) := by
  induction it with
  | nil =>
    refine .none ?_ ?_
    · rintro ⟨u, hu, hne, -⟩
      exact hne hsome (List.suffix_nil.1 hu)
    · rintro ⟨u, hu, hne, -⟩
      exact hne (List.suffix_nil.1 hu)
  | cons c it ih =>
    rw [matchLoop]
    have hhere := h (c :: it)
    generalize matchWilds closed q (c :: it) = r at hhere
    cases hhere with
    | found hleaving => exact .found ⟨c :: it, List.suffix_rfl, fun _ => nofun, hleaving⟩
    | outside hleaving hout =>
      refine .outside ?_ ⟨c :: it, List.suffix_rfl, nofun, hout⟩
      rintro ⟨u, hu, -, hu'⟩
      exact hleaving (hout.leaving hu' hu)
    | none hleaving hin =>
      change Result closed (.any :: q) (c :: it) (matchLoop (matchWilds closed q) it)
      generalize matchLoop (matchWilds closed q) it = r at ih
      cases ih with
      | found hrest => exact .found (hrest.any_of_suffix (List.suffix_cons c it))
      | outside hrest hout =>
        obtain ⟨u, hu, hne, hu'⟩ := hout
        exact .outside (fun h => hrest (h.any_tail hleaving))
          ⟨u, hu.trans (List.suffix_cons c it), hne, hu'⟩
      | none hrest hin' =>
        exact .none (fun h => hrest (h.any_tail hleaving)) fun h => hin' (h.any_tail hin)

/-- The matcher finds a text in which every `'*'` leaves a character to what is behind it, and
    looks behind the end of one that runs out before an ordinary character. -/
theorem matchWilds_result : Result closed q it (matchWilds closed q it) := by
  induction q generalizing it with
  | nil =>
    cases it with
    | nil => exact .found rfl
    | cons d it => exact .none nofun id
  | cons x q ih =>
    cases x with
    | one =>
      cases it with
      | nil => exact .none (fun ⟨_, _, h, _⟩ => nomatch h) fun ⟨_, _, h, _⟩ => nomatch h
      | cons d it =>
        have hrest : Result closed q it (matchWilds closed q it) := ih
        rw [matchWilds]
        generalize matchWilds closed q it = r at hrest
        cases hrest with
        | found h => exact .found (Wild.leaving_one_cons.2 h)
        | outside h hout =>
          exact .outside (mt Wild.leaving_one_cons.1 h) (Wild.exhausts_one_cons.2 hout)
        | none h hin =>
          exact .none (mt Wild.leaving_one_cons.1 h) (mt Wild.exhausts_one_cons.1 hin)
    | any =>
      rw [matchWilds]
      split_ifs with hlast
      · obtain ⟨rfl, rfl⟩ := hlast
        exact .found ⟨[], List.nil_suffix, fun h => h.elim (absurd rfl) nofun, rfl⟩
      · have hsome : q ≠ [] ∨ closed = true := by
          rw [not_and_or, Bool.not_eq_false] at hlast
          exact hlast
        exact matchLoop_result hsome (fun u => ih) it
    | lit c =>
      cases it with
      | nil => exact .outside (fun ⟨_, h, _⟩ => nomatch h) (.inl rfl)
      | cons d it =>
        rw [matchWilds]
        split_ifs with hne
        · exact .none (fun h => hne (Wild.leaving_lit_cons.1 h).1)
            fun h => hne (Wild.exhausts_lit_cons.1 h).1
        · have hrest : Result closed q it (matchWilds closed q it) := ih
          rw [not_not] at hne
          generalize matchWilds closed q it = r at hrest
          cases hrest with
          | found h => exact .found (Wild.leaving_lit_cons.2 ⟨hne, h⟩)
          | outside h hout =>
            exact .outside (fun h' => h (Wild.leaving_lit_cons.1 h').2)
              (Wild.exhausts_lit_cons.2 ⟨hne, hout⟩)
          | none h hin =>
            exact .none (fun h' => h (Wild.leaving_lit_cons.1 h').2)
              fun h' => hin (Wild.exhausts_lit_cons.1 h').2

theorem Result.right_iff {r : Except Fault Bool} (h : Result closed q it r) :
    (∃ b, r = .ok b ∧ (b = true ↔ Wild.Language q it)) ↔
      (Wild.Language q it → Wild.Leaving closed q it) ∧
        (¬Wild.Language q it → ¬Wild.RunsOut q it) := by
  cases h with
  | found h =>
    have hin := h.language
    exact iff_of_true ⟨true, rfl, iff_of_true rfl hin⟩ ⟨fun _ => h, fun hout => absurd hin hout⟩
  | outside h hout =>
    refine iff_of_false (fun ⟨_, hr, _⟩ => nomatch hr) fun ⟨hin, hruns⟩ => ?_
    exact hruns (mt hin h) (Wild.exhausts_iff.1 hout)
  | none h hin =>
    constructor
    · rintro ⟨b, hb, hright⟩
      obtain rfl := Except.ok.inj hb
      have hnot : ¬Wild.Language q it := fun h' => nomatch hright.2 h'
      exact ⟨fun h' => absurd h' hnot, fun _ => mt Wild.exhausts_iff.2 hin⟩
    · rintro ⟨hleaving, -⟩
      exact ⟨false, rfl, iff_of_false (fun h' => nomatch h') (mt hleaving h)⟩

end Results

/-- `MIsMatch` reads nothing behind the text and tells whether it is one that the pattern stands
    for just when such a text can leave a character to whatever follows a `'*'`, and another one
    never ends, with all before it in order, where an ordinary character is due. -/
theorem mIsMatch_iff (codes : List ℕ) {aStr : List ℕ} (hne : aStr ≠ []) :
    (∃ b, mIsMatch codes aStr = .ok b ∧ (b = true ↔ Wild.Language (wilds false aStr) codes)) ↔
      (Wild.Language (wilds false aStr) codes →
        Wild.Leaving (endsQuoting false aStr) (wilds false aStr) codes) ∧
      (¬Wild.Language (wilds false aStr) codes → ¬Wild.RunsOut (wilds false aStr) codes) := by
  have hcheck : check (aStr ≠ []) = .ok () := if_pos hne
  rw [mIsMatch, hcheck]
  change (∃ b, sMIsMatch aStr false codes = .ok b ∧ _) ↔ _
  rw [sMIsMatch_eq]
  exact matchWilds_result.right_iff

theorem mIsMatch_iff_quoted :
    (∃ b, mIsMatch [asterisk] [backslash, asterisk] = .ok b ∧
      (b = true ↔ Wild.Language (wilds false [backslash, asterisk]) [asterisk])) ↔
      (Wild.Language (wilds false [backslash, asterisk]) [asterisk] →
        Wild.Leaving (endsQuoting false [backslash, asterisk])
          (wilds false [backslash, asterisk]) [asterisk]) ∧
      (¬Wild.Language (wilds false [backslash, asterisk]) [asterisk] →
        ¬Wild.RunsOut (wilds false [backslash, asterisk]) [asterisk]) :=
  mIsMatch_iff [asterisk] (List.cons_ne_nil _ _)

/-- The text `a` is not found by `a**`, and the pattern `a` reads behind the empty text. -/
theorem mIsMatch_twoStars :
    Wild.Language (wilds false [0x61, asterisk, asterisk]) [0x61] ∧
      mIsMatch [0x61] [0x61, asterisk, asterisk] = .ok false ∧
      mIsMatch [] [0x61] = .error .outside :=
  ⟨⟨[], rfl, [], List.suffix_rfl, [], List.suffix_rfl, rfl⟩, rfl, rfl⟩

end UdtKernel.CText
