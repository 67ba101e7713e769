import UdtKernel.Lib.Outcome
import Mathlib.Data.Option.Basic

set_option autoImplicit false

/-! Runs of a machine whose steps can fail. -/

namespace UdtKernel.Lib

variable {ε σ ω : Type} (step : ω → σ → Except ε σ)

def runAll (ops : List ω) (s : σ) : Except ε σ := ops.foldlM (fun s op => step op s) s

/-- Every operation of a run is as `P` says of it and the state it meets. -/
def EveryStep (P : σ → ω → Prop) : List ω → σ → Prop
  | [], _ => True
  | op :: ops, s => P s op ∧ ∀ s' ∈ (step op s).toOption, EveryStep P ops s'

/-- Every step of a run ends well, and is as `R` says of the states before and after it. -/
def Traced (R : σ → ω → σ → Prop) : List ω → σ → Prop
  | [], _ => True
  | op :: ops, s => ∃ s', step op s = .ok s' ∧ R s op s' ∧ Traced R ops s'

instance decidableEveryStep (P : σ → ω → Prop) [∀ s op, Decidable (P s op)] :
    (ops : List ω) → (s : σ) → Decidable (EveryStep step P ops s)
  | [], _ => isTrue trivial
  | op :: ops, s =>
    have := decidableEveryStep P ops
    inferInstanceAs (Decidable (P s op ∧ ∀ s' ∈ (step op s).toOption, EveryStep step P ops s'))

variable {step}

theorem runAll_cons (op : ω) (ops : List ω) (s : σ) :
    runAll step (op :: ops) s = step op s >>= runAll step ops := by
  unfold runAll
  rw [List.foldlM_cons]

theorem runAll_append (ops ops' : List ω) (s : σ) :
    runAll step (ops ++ ops') s = runAll step ops s >>= runAll step ops' := by
  unfold runAll
  rw [List.foldlM_append]

theorem runAll_cons_of_ok {op : ω} {s s' : σ} (h : step op s = .ok s') (ops : List ω) :
    runAll step (op :: ops) s = runAll step ops s' := by
  rw [runAll_cons, h]
  rfl

theorem runAll_append_of_ok {ops : List ω} {s s' : σ} (h : runAll step ops s = .ok s')
    (ops' : List ω) : runAll step (ops ++ ops') s = runAll step ops' s' := by
  rw [runAll_append, h]
  rfl

/-- What every step makes of what is to be run holds after a run. -/
theorem runAll_outcome_rest {P : σ → ω → Prop} {I : List ω → σ → Prop} {E : ε → Prop}
    (hstep : ∀ op ops s, I (op :: ops) s → P s op → Outcome E (I ops) (step op s)) {ops : List ω}
    {s : σ} (hs : I ops s) (h : EveryStep step P ops s) :
    Outcome E (I []) (runAll step ops s) := by
  induction ops generalizing s with
  | nil => exact Outcome.ok hs
  | cons op ops ih =>
    obtain ⟨hop, hrest⟩ := h
    have hfirst := hstep op ops s hs hop
    unfold runAll
    rw [List.foldlM_cons]
    cases happly : step op s with
    | ok s' =>
      rw [happly] at hfirst
      exact ih hfirst (hrest s' (by rw [happly]; rfl))
    | error e =>
      rw [happly] at hfirst
      exact hfirst

/-- What every step preserves holds after a run. -/
theorem runAll_outcome {P : σ → ω → Prop} {I : σ → Prop} {E : ε → Prop}
    (hstep : ∀ s op, I s → P s op → Outcome E I (step op s)) {ops : List ω} {s : σ} (hs : I s)
    (h : EveryStep step P ops s) : Outcome E I (runAll step ops s) :=
  runAll_outcome_rest (I := fun _ => I) (fun op _ s hs hop => hstep s op hs hop) hs h

theorem traced_of_step {P : σ → ω → Prop} {I : σ → Prop} {R : σ → ω → σ → Prop}
    (hstep : ∀ s op, I s → P s op → ∃ s', step op s = .ok s' ∧ I s' ∧ R s op s') {ops : List ω}
    {s : σ} (hs : I s) (h : EveryStep step P ops s) : Traced step R ops s := by
  induction ops generalizing s with
  | nil => trivial
  | cons op ops ih =>
    obtain ⟨hop, hrest⟩ := h
    obtain ⟨s', happly, hs', hR⟩ := hstep s op hs hop
    exact ⟨s', happly, hR, ih hs' (hrest s' (by rw [happly]; rfl))⟩

/-- Steps that end well while they preserve something make a run that does. -/
theorem runAll_of_step {P : σ → ω → Prop} {I : σ → Prop}
    (hstep : ∀ s op, I s → P s op → ∃ s', step op s = .ok s' ∧ I s') {ops : List ω} {s : σ}
    (hs : I s) (h : EveryStep step P ops s) : ∃ s', runAll step ops s = .ok s' ∧ I s' := by
  induction ops generalizing s with
  | nil => exact ⟨s, rfl, hs⟩
  | cons op ops ih =>
    obtain ⟨hop, hrest⟩ := h
    obtain ⟨s₁, happly, hs₁⟩ := hstep s op hs hop
    obtain ⟨s', hrun, hs'⟩ := ih hs₁ (hrest s₁ (by rw [happly]; rfl))
    exact ⟨s', (runAll_cons_of_ok happly ops).trans hrun, hs'⟩

/-- Steps that do to a view of the state what `g` does make a run that does so in turn. -/
theorem runAll_simulates {β : Type} {P : σ → ω → Prop} {I : σ → Prop} {view : σ → β}
    {g : β → ω → β}
    (hstep : ∀ s op, I s → P s op → ∃ s', step op s = .ok s' ∧ I s' ∧ view s' = g (view s) op)
    {ops : List ω} {s : σ} (hs : I s) (h : EveryStep step P ops s) :
    ∃ s', runAll step ops s = .ok s' ∧ I s' ∧ view s' = ops.foldl g (view s) := by
  induction ops generalizing s with
  | nil => exact ⟨s, rfl, hs, rfl⟩
  | cons op ops ih =>
    obtain ⟨hop, hrest⟩ := h
    obtain ⟨s₁, happly, hs₁, hview⟩ := hstep s op hs hop
    obtain ⟨s', hrun, hs', hview'⟩ := ih hs₁ (hrest s₁ (by rw [happly]; rfl))
    refine ⟨s', (runAll_cons_of_ok happly ops).trans hrun, hs', ?_⟩
    rw [hview', hview, List.foldl_cons]

/-- Steps that each take something from a measure make a run that is not longer than it. -/
theorem runAll_decreases {P : σ → ω → Prop} {I : σ → Prop} {f : σ → ℕ}
    (hstep : ∀ s op, I s → P s op →
      ∃ s', step op s = .ok s' ∧ I s' ∧ f s' + 1 ≤ f s) {ops : List ω} {s : σ}
    (hs : I s) (h : EveryStep step P ops s) :
    ∃ s', runAll step ops s = .ok s' ∧ I s' ∧ ops.length + f s' ≤ f s := by
  induction ops generalizing s with
  | nil => exact ⟨s, rfl, hs, Nat.le_of_eq (Nat.zero_add _)⟩
  | cons op ops ih =>
    obtain ⟨hop, hrest⟩ := h
    obtain ⟨s₁, happly, hs₁, hless⟩ := hstep s op hs hop
    obtain ⟨s', hrun, hs', hmeasure⟩ := ih hs₁ (hrest s₁ (by rw [happly]; rfl))
    refine ⟨s', (runAll_cons_of_ok happly ops).trans hrun, hs', ?_⟩
    rw [List.length_cons]
    omega

/-- What is said of every operation of a run is so of those after a part of it. -/
theorem EveryStep.rest {P : σ → ω → Prop} {ops ops' : List ω} {s s' : σ}
    (h : EveryStep step P (ops ++ ops') s) (hrun : runAll step ops s = .ok s') :
    EveryStep step P ops s ∧ EveryStep step P ops' s' := by
  induction ops generalizing s with
  | nil =>
    cases hrun
    exact ⟨trivial, h⟩
  | cons op ops ih =>
    obtain ⟨hop, hrest⟩ := h
    rw [runAll_cons] at hrun
    obtain ⟨s₁, happly, hrun'⟩ := eq_ok_of_bind hrun
    have hmem : s₁ ∈ (step op s).toOption := by
      rw [happly]
      rfl
    obtain ⟨hfirst, hlast⟩ := ih (hrest s₁ hmem) hrun'
    refine ⟨⟨hop, fun t ht => ?_⟩, hlast⟩
    obtain rfl : s₁ = t := Option.some.inj (hmem.symm.trans ht)
    exact hfirst

theorem everyStep_of_mem {P : σ → ω → Prop} {ops : List ω} (h : ∀ op ∈ ops, ∀ s, P s op) (s : σ) :
    EveryStep step P ops s := by
  induction ops generalizing s with
  | nil => trivial
  | cons op ops ih =>
    exact ⟨h op List.mem_cons_self s,
      fun s' _ => ih (fun op hop => h op (List.mem_cons_of_mem _ hop)) s'⟩

theorem everyStep_of_forall {P : σ → ω → Prop} (h : ∀ s op, P s op) (ops : List ω) (s : σ) :
    EveryStep step P ops s :=
  everyStep_of_mem (fun op _ s => h s op) s

/-- Among the runs whose operations are as `Q` says, one is as `R` says just when its operations are
as `P` says. -/
theorem traced_iff_among {P Q : σ → ω → Prop} {I : σ → Prop} {R : σ → ω → σ → Prop}
    (hstep : ∀ s op, I s → Q s op → P s op → ∃ s', step op s = .ok s' ∧ I s' ∧ R s op s')
    (hback : ∀ s op s', I s → Q s op → step op s = .ok s' → R s op s' → P s op) {ops : List ω}
    {s : σ} (hs : I s) (hQ : EveryStep step Q ops s) :
    Traced step R ops s ↔ EveryStep step P ops s := by
  induction ops generalizing s with
  | nil => exact Iff.rfl
  | cons op ops ih =>
    obtain ⟨hop, hrest⟩ := hQ
    constructor
    · rintro ⟨s', happly, hR, htraced⟩
      have hP := hback s op s' hs hop happly hR
      obtain ⟨t, happly', ht, -⟩ := hstep s op hs hop hP
      refine ⟨hP, fun u hu => ?_⟩
      have hQ' := hrest u hu
      rw [happly'] at happly hu
      cases happly
      cases hu
      exact (ih ht hQ').1 htraced
    · rintro ⟨hP, hevery⟩
      obtain ⟨s', happly, hs', hR⟩ := hstep s op hs hop hP
      have hmem : s' ∈ (step op s).toOption := by
        rw [happly]
        rfl
      exact ⟨s', happly, hR, (ih hs' (hrest s' hmem)).2 (hevery s' hmem)⟩

/-- A run is as `R` says just when all its operations are as `P` says. -/
theorem traced_iff_of_step {P : σ → ω → Prop} {I : σ → Prop} {R : σ → ω → σ → Prop}
    (hstep : ∀ s op, I s → P s op → ∃ s', step op s = .ok s' ∧ I s' ∧ R s op s')
    (hback : ∀ s op s', I s → step op s = .ok s' → R s op s' → P s op) {ops : List ω} {s : σ}
    (hs : I s) : Traced step R ops s ↔ EveryStep step P ops s :=
  traced_iff_among (Q := fun _ _ => True) (fun s op hI _ => hstep s op hI)
    (fun s op s' hI _ => hback s op s' hI) hs (everyStep_of_forall (fun _ _ => trivial) ops s)

end UdtKernel.Lib
