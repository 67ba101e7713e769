import Mathlib.Data.List.Basic
import Mathlib.Algebra.GroupWithZero.Nat

set_option autoImplicit false

/-! What holds of what a computation returns, and of the fault it fails with. -/

namespace UdtKernel.Lib

variable {ε α β σ : Type} {E : ε → Prop}

/-- A computation that ends well ends in `P`, one that fails fails with an error in `E`. -/
def Outcome (E : ε → Prop) (P : α → Prop) : Except ε α → Prop
  | .ok a => P a
  | .error e => E e

theorem eq_ok_of_bind {x : Except ε α} {f : α → Except ε β} {b : β} (h : x >>= f = .ok b) :
    ∃ a, x = .ok a ∧ f a = .ok b := by
  cases x with
  | ok a => exact ⟨a, rfl, h⟩
  | error e => cases h

theorem mapM_ok {f : α → Except ε β} {h : α → β} {l : List α}
    (hf : ∀ x ∈ l, f x = .ok (h x)) : l.mapM f = .ok (l.map h) := by
  induction l with
  | nil => rfl
  | cons x l ih =>
    rw [List.mapM_cons, hf x List.mem_cons_self, ih fun y hy => hf y (List.mem_cons_of_mem _ hy)]
    rfl

/-- What a step does before a change of the state or behind it, it does in a loop. -/
theorem foldlM_of_comm {f : σ → α → Except ε σ} {g : σ → σ}
    (hf : ∀ s a, f (g s) a = (f s a).map g) (l : List α) (s : σ) :
    l.foldlM f (g s) = (l.foldlM f s).map g := by
  induction l generalizing s with
  | nil => rfl
  | cons a l ih =>
    rw [List.foldlM_cons, List.foldlM_cons, hf]
    cases f s a with
    | error e => rfl
    | ok s' => exact ih s'

namespace Outcome

theorem ok {P : α → Prop} {a : α} (h : P a) : Outcome E P (.ok a) := h

theorem error {P : α → Prop} {e : ε} (h : E e) : Outcome E P (.error e) := h

theorem trivial (x : Except ε α) : Outcome (fun _ => True) (fun _ => True) x := by
  cases x <;> exact True.intro

theorem mono {P Q : α → Prop} {x : Except ε α} (h : Outcome E P x) (hPQ : ∀ a, P a → Q a) :
    Outcome E Q x := by
  cases x with
  | ok a => exact hPQ a h
  | error e => exact h

theorem weaken {E' : ε → Prop} {P : α → Prop} {x : Except ε α} (h : Outcome E P x)
    (hE : ∀ e, E e → E' e) : Outcome E' P x := by
  cases x with
  | ok a => exact h
  | error e => exact hE e h

theorem and {E' : ε → Prop} {P Q : α → Prop} {x : Except ε α} (h : Outcome E P x)
    (h' : Outcome E' Q x) : Outcome (fun e => E e ∧ E' e) (fun a => P a ∧ Q a) x := by
  cases x with
  | ok a => exact ⟨h, h'⟩
  | error e => exact ⟨h, h'⟩

theorem bind {P : α → Prop} {Q : β → Prop} {x : Except ε α} {f : α → Except ε β}
    (h : Outcome E P x) (hf : ∀ a, P a → Outcome E Q (f a)) : Outcome E Q (x >>= f) := by
  cases x with
  | ok a => exact hf a h
  | error e => exact h

/-- An invariant of every turn is one of a loop. -/
theorem foldlM {P : σ → Prop} {f : σ → α → Except ε σ} {l : List α} {s : σ} (h : P s)
    (hf : ∀ s, P s → ∀ a ∈ l, Outcome E P (f s a)) : Outcome E P (l.foldlM f s) := by
  induction l generalizing s with
  | nil => exact h
  | cons a l ih =>
    rw [List.foldlM_cons]
    refine (hf s h a List.mem_cons_self).bind fun t ht => ?_
    exact ih ht fun s hs b hb => hf s hs b (List.mem_cons_of_mem a hb)

theorem mapM {P : β → Prop} {f : α → Except ε β} {l : List α} (hf : ∀ a ∈ l, Outcome E P (f a)) :
    Outcome E (fun bs => ∀ b ∈ bs, P b) (l.mapM f) := by
  induction l with
  | nil =>
    intro b hb
    cases hb
  | cons a l ih =>
    rw [List.mapM_cons]
    refine (hf a List.mem_cons_self).bind fun b hb => ?_
    refine (ih fun c hc => hf c (List.mem_cons_of_mem a hc)).bind fun bs hbs => ?_
    intro c hc
    rcases List.mem_cons.1 hc with rfl | hc
    · exact hb
    · exact hbs c hc

end Outcome

end UdtKernel.Lib
