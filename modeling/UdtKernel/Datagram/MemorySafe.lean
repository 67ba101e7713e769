import UdtKernel.Datagram.Safe

set_option autoImplicit false

namespace UdtKernel
open UdtKernel.Lib Head

namespace Receives
variable {P : Receives} {l : List Byte}

/-- A turn advances to a position that is not behind the end, or returns one. -/
def Inside (l : List Byte) : ParseTurn → Prop
  | .next n _ => 0 < n ∧ n ≤ l.length
  | .stop n => n ≤ l.length

instance (l : List Byte) : DecidablePred (Inside l)
  | .next n _ => inferInstanceAs (Decidable (0 < n ∧ n ≤ l.length))
  | .stop n => inferInstanceAs (Decidable (n ≤ l.length))

theorem TurnAt.inside {t : ParseTurn} (h : P.TurnAt l t) : Inside l t := by
  cases h with
  | short _ => exact Nat.zero_le _
  | noHead _ _ _ => exact Nat.sub_le _ _
  | badSize h _ _ => exact ⟨Nat.one_pos, Nat.le_trans (by decide) h⟩
  | wait _ _ _ _ _ => exact Nat.zero_le _
  | wrong h _ _ last hhead _ _ =>
    have hlong : last ≤ l.length := by
      cases hhead with
      | first _ _ => exact Nat.zero_le _
      | later _ _ h _ _ _ => omega
    have h32 : sizeofHead = 32 := rfl
    unfold Inside
    dsimp only
    split_ifs <;> omega
  | unknown _ hsize _ _ _ hlong =>
    refine ⟨?_, hlong⟩
    rw [sizeKd, hsize, sizeofHead]
    omega
  | received _ hsize _ _ _ hlong =>
    refine ⟨?_, hlong⟩
    rw [sizeKd, hsize, sizeofHead]
    omega

/-! The loop of `MAnalizeBuffer`. -/

theorem analizeTurn_nil (passed : List (List Byte)) :
    P.analizeTurn (passed, []) = .ok (.inr (passed, [])) := if_pos rfl

theorem analizeTurn_next {s : Parsed} (hs : s.2 ≠ []) {n : ℕ} {passed : List (List Byte)}
    (h : P.turn s.2 = .ok (.next n passed)) :
    P.analizeTurn s = .ok (.inl (s.1 ++ passed, s.2.drop n)) := by
  unfold analizeTurn
  rw [if_neg hs, h]
  rfl

theorem analizeTurn_stop {s : Parsed} (hs : s.2 ≠ []) {n : ℕ}
    (h : P.turn s.2 = .ok (.stop n)) : P.analizeTurn s = .ok (.inr (s.1, s.2.drop n)) := by
  unfold analizeTurn
  rw [if_neg hs, h]
  rfl

theorem analizeTurn_error {s : Parsed} (hs : s.2 ≠ []) {e : Abort} (h : P.turn s.2 = .error e) :
    P.analizeTurn s = .error e := by
  unfold analizeTurn
  rw [if_neg hs, h]
  rfl

/-- A turn fails outside, goes on with fewer bytes, or returns a suffix. -/
theorem analizeTurn_spec (s : Parsed) :
    (¬P.Safe s.2 ∧ ∃ e, Outside e ∧ P.analizeTurn s = .error e) ∨
    (P.Safe s.2 ∧ ∃ x, P.analizeTurn s = .ok x ∧
      Sum.elim (fun s' => s'.2 <:+ s.2 ∧ s'.2.length < s.2.length) (fun s' => s'.2 <:+ s.2) x) := by
  by_cases hs : s.2 = []
  · right
    obtain ⟨passed, l⟩ := s
    subst hs
    exact ⟨fun h => absurd h (Nat.not_succ_le_zero _), _, analizeTurn_nil passed,
      List.suffix_refl _⟩
  · rcases turn_spec P s.2 with ⟨hsafe, e, he, hturn⟩ | ⟨hsafe, t, hturn, hat⟩
    · exact .inl ⟨hsafe, e, he, analizeTurn_error hs hturn⟩
    · right
      refine ⟨hsafe, ?_⟩
      cases t with
      | next n passed =>
        refine ⟨_, analizeTurn_next hs hturn, List.drop_suffix _ _, ?_⟩
        rw [List.length_drop]
        exact Nat.sub_lt (List.length_pos_iff.2 hs) hat.inside.1
      | stop n => exact ⟨_, analizeTurn_stop hs hturn, List.drop_suffix _ _⟩

theorem analizeTurn_ok {s : Parsed} {x : Parsed ⊕ Parsed} (h : P.analizeTurn s = .ok x) :
    P.Safe s.2 := by
  rcases analizeTurn_spec s with ⟨-, e, -, he⟩ | ⟨hsafe, -⟩
  · cases h.symm.trans he
  · exact hsafe

theorem analizeTurn_lt {s s' : Parsed} (h : P.analizeTurn s = .ok (.inl s')) :
    s'.2.length < s.2.length := by
  rcases analizeTurn_spec (P := P) s with ⟨-, e, -, he⟩ | ⟨-, x, hx, hlt⟩
  · cases h.symm.trans he
  · cases h.symm.trans hx
    exact hlt.2

/-- The loop ends. -/
theorem loop_analizeTurn (l : List Byte) :
    loop P.analizeTurn (l.length + 1) ([], l) = some (P.analizeBuffer l) := by
  obtain ⟨x, hx⟩ := loop_ends (fun _ _ => analizeTurn_lt (P := P)) (s := ([], l))
    (Nat.lt_succ_self l.length)
  unfold analizeBuffer
  rw [hx]
  rfl

variable (P) (l)

def EverySafe : Prop := EveryTurn P.analizeTurn (fun s => P.Safe s.2) (l.length + 1) ([], l)

instance : Decidable (P.EverySafe l) := decidableEveryTurn _ _ _ _

/-- Every look is inside of the bytes, every turn advances or returns, and what is returned is a
    position of the bytes. -/
def MemorySafe : Prop :=
  (∃ passed rest, P.analizeBuffer l = .ok (passed, rest) ∧ rest <:+ l) ∧
  EveryTurn P.analizeTurn (fun s => s.2 ≠ [] → ∃ t, P.turn s.2 = .ok t ∧ Inside s.2 t)
    (l.length + 1) ([], l)

variable {P} {l}

/-- Without a safe turn the parser fails outside. -/
theorem analizeBuffer_outcome :
    Outcome Outside (fun t => t.2 <:+ l) (P.analizeBuffer l) := by
  refine loop_outcome (I := fun s => s.2 <:+ l) (P := fun _ => True) (fun s hs _ => ?_)
    (List.suffix_refl l)
    (everyTurn_of_forall (fun _ _ => trivial) (fun _ _ _ _ => trivial) _ trivial)
    (loop_analizeTurn l)
  rcases analizeTurn_spec s with ⟨-, e, he, hturn⟩ | ⟨-, x, hturn, hx⟩
  · rw [hturn]
    exact he
  · rw [hturn]
    cases x with
    | inl s' => exact hx.1.trans hs
    | inr s' => exact hx.trans hs

theorem analizeBuffer_ok (h : P.EverySafe l) :
    ∃ passed rest, P.analizeBuffer l = .ok (passed, rest) ∧ rest <:+ l := by
  have hout : Outcome (fun _ => False) (fun t => t.2 <:+ l) (P.analizeBuffer l) := by
    refine loop_outcome (I := fun s => s.2 <:+ l) (fun s hs hsafe => ?_) (List.suffix_refl l) h
      (loop_analizeTurn l)
    rcases analizeTurn_spec s with ⟨hbad, -⟩ | ⟨-, x, hturn, hx⟩
    · exact absurd hsafe hbad
    · rw [hturn]
      cases x with
      | inl s' => exact hx.1.trans hs
      | inr s' => exact hx.trans hs
  cases hx : P.analizeBuffer l with
  | error e =>
    rw [hx] at hout
    exact hout.elim
  | ok x =>
    rw [hx] at hout
    exact ⟨x.1, x.2, rfl, hout⟩

theorem analizeBuffer_ne_hang (P : Receives) (l : List Byte) :
    P.analizeBuffer l ≠ .error .hang := by
  intro hang
  have hout := analizeBuffer_outcome (P := P) (l := l)
  rw [hang] at hout
  rcases hout with h | h <;> cases h

theorem everySafe_of_memorySafe (h : P.MemorySafe l) : P.EverySafe l := by
  obtain ⟨⟨passed, rest, hok, -⟩, -⟩ := h
  refine everyTurn_of_loop_ok (fun _ _ => analizeTurn_ok) ?_ (t := (passed, rest))
  rw [loop_analizeTurn, hok]

theorem memorySafe_of_everySafe (h : P.EverySafe l) : P.MemorySafe l := by
  refine ⟨analizeBuffer_ok h, EveryTurn.mono (fun s hsafe hs => ?_) h⟩
  rcases turn_spec P s.2 with ⟨hbad, -⟩ | ⟨-, t, hturn, hat⟩
  · exact absurd hsafe hbad
  · exact ⟨t, hturn, hat.inside⟩

/-- The parser ends on all bytes; it is memory-safe just when each turn of its loop begins with
    bytes that can be looked at. -/
theorem analizeBuffer_memorySafe_iff (P : Receives) (l : List Byte) :
    P.analizeBuffer l ≠ .error .hang ∧ (P.MemorySafe l ↔ P.EverySafe l) :=
  ⟨analizeBuffer_ne_hang P l, everySafe_of_memorySafe, memorySafe_of_everySafe⟩

/-- Just as many bytes as a header takes that are none, and a header whose size is no `int`. -/
theorem memorySafe_false_of_no_head :
    ¬Receives.MemorySafe ⟨.little, fun _ => none⟩ (List.replicate 32 0) ∧
    ¬Receives.MemorySafe ⟨.little, fun _ => some (0, 1)⟩
      [32, 0, 0, 0, 0, 1, 0, 0, 255, 255, 255, 255, 1, 0, 0, 0, 5, 0, 0, 0, 0, 0, 0, 0, 0, 0, 2, 0,
        0, 0, 0, 94] :=
  ⟨mt everySafe_of_memorySafe (by decide +kernel),
    mt everySafe_of_memorySafe (by decide +kernel)⟩

end Receives

end UdtKernel
