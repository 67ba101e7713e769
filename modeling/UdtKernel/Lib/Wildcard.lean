import Mathlib.Data.List.Infix

set_option autoImplicit false

/-! Patterns with wild cards, and the texts they stand for. -/

namespace UdtKernel.Lib

inductive Wild (α : Type) where
  | one
  | any
  | lit (c : α)

namespace Wild
variable {α : Type}

def Language : List (Wild α) → List α → Prop
  | [], t => t = []
  | one :: q, t => ∃ c u, t = c :: u ∧ Language q u
  | lit c :: q, t => ∃ u, t = c :: u ∧ Language q u
  | any :: q, t => ∃ u, u <:+ t ∧ Language q u

/-- The same where `any` leaves a character at least for what comes behind it: the rest of the
    pattern, or what closes it. -/
def Leaving (closed : Bool) : List (Wild α) → List α → Prop
  | [], t => t = []
  | one :: q, t => ∃ c u, t = c :: u ∧ Leaving closed q u
  | lit c :: q, t => ∃ u, t = c :: u ∧ Leaving closed q u
  | any :: q, t => ∃ u, u <:+ t ∧ (q ≠ [] ∨ closed = true → u ≠ []) ∧ Leaving closed q u

/-- A text ends before a literal of the pattern, none of its characters having been found wrong. -/
def Exhausts : List (Wild α) → List α → Prop
  | [], _ => False
  | one :: q, t => ∃ c u, t = c :: u ∧ Exhausts q u
  | lit c :: q, t => t = [] ∨ ∃ u, t = c :: u ∧ Exhausts q u
  | any :: q, t => ∃ u, u <:+ t ∧ u ≠ [] ∧ Exhausts q u

/-- A part of the pattern before a literal, and not behind `any`, stands for the text. -/
def RunsOut (q : List (Wild α)) (t : List α) : Prop :=
  ∃ front c rest, q = front ++ lit c :: rest ∧ front.getLast? ≠ some any ∧ Language front t

variable {closed : Bool} {q : List (Wild α)} {t u : List α}

theorem Leaving.language (h : Leaving closed q t) : Language q t := by
  induction q generalizing t with
  | nil => exact h
  | cons x q ih =>
    cases x with
    | one =>
      obtain ⟨c, u, ht, hu⟩ := h
      exact ⟨c, u, ht, ih hu⟩
    | lit c =>
      obtain ⟨u, ht, hu⟩ := h
      exact ⟨u, ht, ih hu⟩
    | any =>
      obtain ⟨u, ht, -, hu⟩ := h
      exact ⟨u, ht, ih hu⟩

/-- What `any` takes may be longer. -/
theorem Leaving.any_of_suffix (h : Leaving closed (any :: q) u) (hut : u <:+ t) :
    Leaving closed (any :: q) t := by
  obtain ⟨v, hvu, hne, hv⟩ := h
  exact ⟨v, hvu.trans hut, hne, hv⟩

/-- What `any` takes is not empty where the whole text is not what comes behind it. -/
theorem Leaving.any_tail {c : α} (h : Leaving closed (any :: q) (c :: t))
    (hne : ¬Leaving closed q (c :: t)) : Leaving closed (any :: q) t := by
  obtain ⟨u, hu, hleft, hrest⟩ := h
  rcases List.suffix_cons_iff.1 hu with rfl | hu
  · exact absurd hrest hne
  · exact ⟨u, hu, hleft, hrest⟩

theorem Exhausts.any_tail {c : α} (h : Exhausts (any :: q) (c :: t))
    (hne : ¬Exhausts q (c :: t)) : Exhausts (any :: q) t := by
  obtain ⟨u, hu, hleft, hrest⟩ := h
  rcases List.suffix_cons_iff.1 hu with rfl | hu
  · exact absurd hrest hne
  · exact ⟨u, hu, hleft, hrest⟩

theorem leaving_one_cons {c : α} : Leaving closed (one :: q) (c :: t) ↔ Leaving closed q t :=
  ⟨fun ⟨_, _, h, hu⟩ => (List.cons.inj h).2 ▸ hu, fun h => ⟨c, t, rfl, h⟩⟩

theorem exhausts_one_cons {c : α} : Exhausts (one :: q) (c :: t) ↔ Exhausts q t :=
  ⟨fun ⟨_, _, h, hu⟩ => (List.cons.inj h).2 ▸ hu, fun h => ⟨c, t, rfl, h⟩⟩

theorem leaving_lit_cons {c d : α} :
    Leaving closed (lit c :: q) (d :: t) ↔ c = d ∧ Leaving closed q t := by
  constructor
  · rintro ⟨u, h, hu⟩
    obtain ⟨rfl, rfl⟩ := List.cons.inj h
    exact ⟨rfl, hu⟩
  · rintro ⟨rfl, h⟩
    exact ⟨t, rfl, h⟩

theorem exhausts_lit_cons {c d : α} :
    Exhausts (lit c :: q) (d :: t) ↔ c = d ∧ Exhausts q t := by
  constructor
  · rintro (h | ⟨u, h, hu⟩)
    · exact nomatch h
    · obtain ⟨rfl, rfl⟩ := List.cons.inj h
      exact ⟨rfl, hu⟩
  · rintro ⟨rfl, h⟩
    exact .inr ⟨t, rfl, h⟩

theorem suffix_of_cons {c d : α} (h : d :: u <:+ c :: t) : u <:+ t := by
  rcases List.suffix_cons_iff.1 h with heq | hsuffix
  · rw [(List.cons.inj heq).2]
  · exact (List.suffix_cons d u).trans hsuffix

/-- A text that ends too early is in the language if an end of it is. -/
theorem Exhausts.leaving (h : Exhausts q t) (hu : Leaving closed q u) (hut : u <:+ t) :
    Leaving closed q t := by
  induction q generalizing t u with
  | nil => exact h.elim
  | cons x q ih =>
    cases x with
    | one =>
      obtain ⟨c, t, rfl, ht⟩ := h
      obtain ⟨d, u, rfl, hu⟩ := hu
      exact ⟨c, t, rfl, ih ht hu (suffix_of_cons hut)⟩
    | lit c =>
      obtain ⟨u, rfl, hu⟩ := hu
      rcases h with rfl | ⟨t, rfl, ht⟩
      · exact nomatch List.suffix_nil.1 hut
      · exact ⟨t, rfl, ih ht hu (suffix_of_cons hut)⟩
    | any => exact hu.any_of_suffix hut

theorem not_language_nil {front : List (Wild α)} (hne : front ≠ [])
    (hlast : front.getLast? ≠ some any) : ¬Language front [] := by
  induction front with
  | nil => exact absurd rfl hne
  | cons x front ih =>
    cases x with
    | one => exact fun ⟨_, _, h, _⟩ => nomatch h
    | lit c => exact fun ⟨_, h, _⟩ => nomatch h
    | any =>
      cases front with
      | nil => exact absurd rfl hlast
      | cons y front =>
        rintro ⟨u, hu, hlanguage⟩
        rw [List.suffix_nil] at hu
        rw [List.getLast?_cons_cons] at hlast
        exact ih (List.cons_ne_nil _ _) hlast (hu ▸ hlanguage)

theorem getLast?_cons_of_ne {x : Wild α} (hx : x ≠ any) (front : List (Wild α)) :
    (x :: front).getLast? ≠ some any ↔ front.getLast? ≠ some any := by
  cases front with
  | nil => simpa using hx
  | cons y front => rw [List.getLast?_cons_cons]

theorem one_ne_any : (one : Wild α) ≠ any := nofun

theorem lit_ne_any (c : α) : lit c ≠ any := nofun

theorem split_cons {x : Wild α} {P : List (Wild α) → Prop} :
    (∃ front c rest, x :: q = front ++ lit c :: rest ∧ P front) ↔
      ((∃ c, x = lit c) ∧ P []) ∨
        ∃ front c rest, q = front ++ lit c :: rest ∧ P (x :: front) := by
  constructor
  · rintro ⟨front, c, rest, hq, hP⟩
    cases front with
    | nil => exact .inl ⟨⟨c, (List.cons.inj hq).1⟩, hP⟩
    | cons y front =>
      obtain ⟨rfl, hrest⟩ := List.cons.inj hq
      exact .inr ⟨front, c, rest, hrest, hP⟩
  · rintro (⟨⟨c, rfl⟩, hP⟩ | ⟨front, c, rest, rfl, hP⟩)
    · exact ⟨[], c, q, rfl, hP⟩
    · exact ⟨x :: front, c, rest, rfl, hP⟩

theorem exhausts_iff : Exhausts q t ↔ RunsOut q t := by
  induction q generalizing t with
  | nil => exact iff_of_false id fun ⟨front, c, rest, h, _⟩ => by cases front <;> exact nomatch h
  | cons x q ih =>
    rw [RunsOut, split_cons]
    cases x with
    | one =>
      constructor
      · rintro ⟨c, u, rfl, hu⟩
        obtain ⟨front, d, rest, hq, hlast, hfront⟩ := ih.1 hu
        exact .inr ⟨front, d, rest, hq, (getLast?_cons_of_ne one_ne_any front).2 hlast, c, u, rfl,
          hfront⟩
      · rintro (⟨⟨c, hc⟩, -⟩ | ⟨front, d, rest, hq, hlast, c, u, rfl, hfront⟩)
        · exact nomatch hc
        · exact ⟨c, u, rfl,
            ih.2 ⟨front, d, rest, hq, (getLast?_cons_of_ne one_ne_any front).1 hlast, hfront⟩⟩
    | lit c =>
      constructor
      · rintro (rfl | ⟨u, rfl, hu⟩)
        · exact .inl ⟨⟨c, rfl⟩, nofun, rfl⟩
        · obtain ⟨front, d, rest, hq, hlast, hfront⟩ := ih.1 hu
          exact .inr ⟨front, d, rest, hq,
            (getLast?_cons_of_ne (lit_ne_any c) front).2 hlast, u, rfl, hfront⟩
      · rintro (⟨-, -, ht⟩ | ⟨front, d, rest, hq, hlast, u, rfl, hfront⟩)
        · exact .inl ht
        · exact .inr ⟨u, rfl,
            ih.2 ⟨front, d, rest, hq, (getLast?_cons_of_ne (lit_ne_any c) front).1 hlast, hfront⟩⟩
    | any =>
      constructor
      · rintro ⟨u, hut, hne, hu⟩
        obtain ⟨front, d, rest, hq, hlast, hfront⟩ := ih.1 hu
        cases front with
        | nil => exact absurd hfront hne
        | cons y front =>
          exact .inr ⟨y :: front, d, rest, hq, by rwa [List.getLast?_cons_cons], u, hut, hfront⟩
      · rintro (⟨⟨c, hc⟩, -⟩ | ⟨front, d, rest, hq, hlast, u, hut, hfront⟩)
        · exact nomatch hc
        · cases front with
          | nil => exact absurd rfl hlast
          | cons y front =>
            rw [List.getLast?_cons_cons] at hlast
            refine ⟨u, hut, ?_, ih.2 ⟨y :: front, d, rest, hq, hlast, hfront⟩⟩
            rintro rfl
            exact not_language_nil (List.cons_ne_nil y front) hlast hfront

end Wild

end UdtKernel.Lib
