import Mathlib.Data.Nat.Notation
import Mathlib.Order.WellFounded
import Mathlib.Algebra.GroupWithZero.Nat

set_option autoImplicit false

/-! Loops that run while a test holds. -/

namespace UdtKernel.Lib

variable {σ : Type}

/-- `while (cond) body`, none when the fuel runs out before the test fails. -/
def repeatWhile (cond : σ → Bool) (body : σ → σ) : ℕ → σ → Option σ
  | 0, s => if cond s then none else some s
  | n + 1, s => if cond s then repeatWhile cond body n (body s) else some s

variable {cond : σ → Bool} {body : σ → σ}

/-- What every turn preserves holds at the end, where the test fails. -/
theorem repeatWhile_invariant {I : σ → Prop} (hbody : ∀ s, I s → cond s = true → I (body s))
    {n : ℕ} {s t : σ} (hs : I s) (h : repeatWhile cond body n s = some t) :
    I t ∧ cond t = false := by
  induction n generalizing s with
  | zero =>
    rw [repeatWhile] at h
    split at h
    · cases h
    · rename_i hc
      cases h
      exact ⟨hs, Bool.eq_false_of_not_eq_true hc⟩
  | succ n ih =>
    rw [repeatWhile] at h
    split at h
    · rename_i hc
      exact ih (hbody s hs hc) h
    · rename_i hc
      cases h
      exact ⟨hs, Bool.eq_false_of_not_eq_true hc⟩

/-- A loop whose turns go down in a well-founded relation ends. -/
theorem repeatWhile_ends {r : σ → σ → Prop} (hr : WellFounded r)
    (hbody : ∀ s, cond s = true → r (body s) s) (s : σ) :
    ∃ n t, repeatWhile cond body n s = some t := by
  induction s using hr.induction with
  | _ s ih =>
    cases hc : cond s with
    | false => exact ⟨0, s, by rw [repeatWhile, hc]; rfl⟩
    | true =>
      obtain ⟨n, t, ht⟩ := ih (body s) (hbody s hc)
      exact ⟨n + 1, t, by rw [repeatWhile, if_pos hc, ht]⟩

/-- The end of a loop does not depend on the fuel. -/
theorem repeatWhile_unique {m n : ℕ} {s t t' : σ} (h : repeatWhile cond body m s = some t)
    (h' : repeatWhile cond body n s = some t') : t = t' := by
  induction m generalizing n s with
  | zero =>
    rw [repeatWhile] at h
    split at h
    · cases h
    · rename_i hc
      cases h
      cases n with
      | zero => rw [repeatWhile, if_neg hc] at h'; exact Option.some.inj h'
      | succ n => rw [repeatWhile, if_neg hc] at h'; exact Option.some.inj h'
  | succ m ih =>
    rw [repeatWhile] at h
    split at h
    · rename_i hc
      cases n with
      | zero => rw [repeatWhile, if_pos hc] at h'; cases h'
      | succ n => rw [repeatWhile, if_pos hc] at h'; exact ih h h'
    · rename_i hc
      cases h
      cases n with
      | zero => rw [repeatWhile, if_neg hc] at h'; exact Option.some.inj h'
      | succ n => rw [repeatWhile, if_neg hc] at h'; exact Option.some.inj h'

end UdtKernel.Lib
