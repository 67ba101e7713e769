import UdtKernel.Lib.Outcome
import Mathlib.Data.Option.Basic
import Mathlib.Data.Nat.Notation

set_option autoImplicit false

/-! Loops whose turns can fail, go on or return. -/

namespace UdtKernel.Lib

variable {ε σ τ : Type} (body : σ → Except ε (σ ⊕ τ))

/-- A loop, none when the fuel runs out before it returns. -/
def loop : ℕ → σ → Option (Except ε τ)
  | 0, _ => none
  | n + 1, s =>
    match body s with
    | .error e => some (.error e)
    | .ok (.inr t) => some (.ok t)
    | .ok (.inl s') => loop n s'

def goesOn : Except ε (σ ⊕ τ) → Option σ
  | .ok (.inl s) => some s
  | _ => none

/-- What the loop meets at the start of each of its turns is as `P` says. -/
def EveryTurn (P : σ → Prop) : ℕ → σ → Prop
  | 0, _ => True
  | n + 1, s => P s ∧ ∀ s' ∈ goesOn (body s), EveryTurn P n s'

instance decidableEveryTurn (P : σ → Prop) [∀ s, Decidable (P s)] :
    (n : ℕ) → (s : σ) → Decidable (EveryTurn body P n s)
  | 0, _ => isTrue trivial
  | n + 1, s =>
    have := decidableEveryTurn P n
    inferInstanceAs (Decidable (P s ∧ ∀ s' ∈ goesOn (body s), EveryTurn body P n s'))

variable {body}

/-- A loop whose turns go down in a measure ends. -/
theorem loop_ends {μ : σ → ℕ} (hbody : ∀ s s', body s = .ok (.inl s') → μ s' < μ s) {n : ℕ} {s : σ}
    (hn : μ s < n) : ∃ x, loop body n s = some x := by
  induction n generalizing s with
  | zero => exact absurd hn (Nat.not_lt_zero _)
  | succ n ih =>
    rw [loop]
    cases h : body s with
    | error e => exact ⟨.error e, rfl⟩
    | ok x =>
      cases x with
      | inr t => exact ⟨.ok t, rfl⟩
      | inl s' => exact ih (Nat.lt_of_lt_of_le (hbody s s' h) (Nat.le_of_lt_succ hn))

theorem eq_ok_of_goesOn {x : Except ε (σ ⊕ τ)} {s : σ} (h : goesOn x = some s) :
    x = .ok (.inl s) := by
  cases x with
  | error e => cases h
  | ok y =>
    cases y with
    | inr t => cases h
    | inl s' => rw [Option.some.inj h]

/-- What every turn keeps holds of the result, when each turn begins as `P` says. -/
theorem loop_outcome {I P : σ → Prop} {E : ε → Prop} {Q : τ → Prop}
    (hbody : ∀ s, I s → P s → Outcome E (Sum.elim I Q) (body s)) {n : ℕ} {s : σ} (hs : I s)
    (hturns : EveryTurn body P n s) {x : Except ε τ} (hx : loop body n s = some x) :
    Outcome E Q x := by
  induction n generalizing s with
  | zero => cases hx
  | succ n ih =>
    rw [EveryTurn] at hturns
    rw [loop] at hx
    have hturn := hbody s hs hturns.1
    cases h : body s with
    | error e =>
      rw [h] at hx hturn
      cases hx
      exact hturn
    | ok y =>
      rw [h] at hx hturn hturns
      cases y with
      | inr t =>
        cases hx
        exact hturn
      | inl s' => exact ih hturn (hturns.2 s' rfl) hx

theorem EveryTurn.mono {P Q : σ → Prop} (hPQ : ∀ s, P s → Q s) {n : ℕ} {s : σ}
    (h : EveryTurn body P n s) : EveryTurn body Q n s := by
  induction n generalizing s with
  | zero => trivial
  | succ n ih => exact ⟨hPQ s h.1, fun s' hs' => ih (h.2 s' hs')⟩

/-- What holds of every state holds of those met by a loop. -/
theorem everyTurn_of_forall {I P : σ → Prop} (hP : ∀ s, I s → P s)
    (hI : ∀ s s', I s → body s = .ok (.inl s') → I s') (n : ℕ) {s : σ} (hs : I s) :
    EveryTurn body P n s := by
  induction n generalizing s with
  | zero => trivial
  | succ n ih => exact ⟨hP s hs, fun s' hs' => ih (hI s s' hs (eq_ok_of_goesOn hs'))⟩

/-- A loop that ends well has ended well in every turn. -/
theorem everyTurn_of_loop_ok {P : σ → Prop} (hP : ∀ s x, body s = .ok x → P s) {n : ℕ} {s : σ}
    {t : τ} (h : loop body n s = some (.ok t)) : EveryTurn body P n s := by
  induction n generalizing s with
  | zero => trivial
  | succ n ih =>
    rw [loop] at h
    cases hbody : body s with
    | error e =>
      rw [hbody] at h
      cases h
    | ok x =>
      refine ⟨hP s x hbody, fun s' hs' => ?_⟩
      rw [eq_ok_of_goesOn hs'] at h
      exact ih h

end UdtKernel.Lib
