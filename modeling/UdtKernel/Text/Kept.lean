import UdtKernel.Text.Output

set_option autoImplicit false

/-! What the edits make of the bytes that are kept. -/

namespace UdtKernel.CText
open Lib

namespace Store

/-- No bytes are kept, though there may be memory for some. -/
def Dropped (s : Store) : Prop :=
  s.singleDatalen = 0 ∧ match s.single with
    | none => s.singleBufferLen = 0
    | some memory => memory.length = s.singleBufferLen

theorem Dropped.cached {s : Store} (h : s.Dropped) : s.Cached := by
  obtain ⟨hlen, hshape⟩ := h
  refine ⟨?_, fun hne => absurd hlen hne⟩
  cases hsingle : s.single with
  | none =>
    rw [hsingle] at hshape
    exact ⟨hshape, hlen⟩
  | some memory =>
    rw [hsingle] at hshape
    exact hshape

/-- What `FImpl.MWrite` gives: the `impl_t` itself, or a copy of one that is shared. -/
def own (s : Store) : Store :=
  if s.shared then { s.toImpl.copy with shared := false, length := s.length } else s

/-- A code point is set through a reference or through an iterator that begins at `begin()`. -/
def poke (i code : ℕ) (s : Store) : Except Fault Store := s.changed.put i [code]

/-- A code point is set through an iterator that begins at `end()`. -/
def pokeEnd (i code : ℕ) (s : Store) : Except Fault Store := s.own.put i [code]

theorem Cached.changed {s : Store} (h : s.Cached) : s.changed.Dropped := by
  have hshape := h.shape
  unfold Store.changed
  split_ifs with hshared hsome
  · exact ⟨rfl, rfl⟩
  · obtain ⟨memory, hmemory⟩ := Option.isSome_iff_exists.1 hsome
    rw [hmemory] at hshape
    refine ⟨rfl, ?_⟩
    dsimp only
    rw [hmemory]
    exact hshape
  · have hnone := Option.not_isSome_iff_eq_none.1 hsome
    rw [hnone] at hshape
    refine ⟨hshape.2, ?_⟩
    rw [hnone]
    exact hshape.1

theorem Cached.own {s : Store} (h : s.Cached) (hnone : s.singleDatalen = 0 ∨ s.shared = true) :
    s.own.Dropped := by
  unfold Store.own
  split_ifs with hshared
  · exact ⟨rfl, rfl⟩
  · have hzero := hnone.resolve_right hshared
    have hshape := h.shape
    refine ⟨hzero, ?_⟩
    cases hsingle : s.single with
    | none =>
      rw [hsingle] at hshape
      exact hshape.1
    | some memory =>
      rw [hsingle] at hshape
      exact hshape

def Drops (x : Except Fault Store) : Prop := Outcome (fun _ => True) Dropped x

/-- However it ends, the bytes that are kept are those of the code points. -/
def Saves (x : Except Fault Store) : Prop := Outcome (fun _ => True) Cached x

theorem Drops.saves {x : Except Fault Store} (h : Drops x) : Saves x :=
  h.mono fun _ hs => hs.cached

theorem Drops.bind {α : Type} {x : Except Fault α} {f : α → Except Fault Store}
    (h : ∀ a, Drops (f a)) : Drops (x >>= f) :=
  Outcome.bind (Outcome.trivial x) fun a _ => h a

theorem Saves.bind {α : Type} {x : Except Fault α} {f : α → Except Fault Store}
    (h : ∀ a, Saves (f a)) : Saves (x >>= f) :=
  Outcome.bind (Outcome.trivial x) fun a _ => h a

section Edits
variable {reserved junk : ℕ → ℕ} {s : Store}

theorem Dropped.put (h : s.Dropped) (pos : ℕ) (xs : List ℕ) : Drops (s.put pos xs) := by
  unfold Store.put
  split_ifs
  · exact h
  · trivial

theorem Dropped.move (h : s.Dropped) (pos start n : ℕ) : Drops (s.move pos start n) :=
  Drops.bind fun xs => h.put pos xs

theorem Dropped.setLen (h : s.Dropped) (n : ℕ) : Drops (s.setLen n) :=
  Dropped.put (s := { s with length := n }) h n [0]

theorem Dropped.grow (h : s.Dropped) (n : ℕ) : Drops (s.grow reserved junk n) := by
  refine Drops.bind fun _ => ?_
  split_ifs
  · exact Drops.bind fun xs => Dropped.put ⟨rfl, rfl⟩ 0 xs
  · exact h

theorem Dropped.copyFrom (h : s.Dropped) (src : Source) (pos strIdx strNum : ℕ) :
    Drops (s.copyFrom src pos strIdx strNum) := by
  cases src with
  | self =>
    rw [Store.copyFrom]
    split_ifs
    · trivial
    · exact h.move pos strIdx strNum
  | other codes => exact Drops.bind fun xs => h.put pos xs

theorem Dropped.mToUcs4 (h : s.Dropped) (str : List Byte) (pos destLen srcLen : ℕ) :
    Drops (s.mToUcs4 str pos destLen srcLen) := by
  rw [Store.mToUcs4]
  split_ifs
  · exact h.put pos _
  · exact h.put pos _
  · trivial

/-- A step that no bytes are kept at, and another one. -/
theorem Drops.andThen {x : Except Fault Store} (h : Drops x) {f : Store → Except Fault Store}
    (hf : ∀ s, s.Dropped → Drops (f s)) : Drops (x >>= f) := Outcome.bind h hf

theorem Dropped.grown (h : s.Dropped) (newsz : ℕ) {work : Store → Except Fault Store}
    (hwork : ∀ s, s.Dropped → Drops (work s)) : Drops (s.grown reserved junk newsz work) :=
  (h.grow newsz).andThen fun s₁ h₁ => (hwork s₁ h₁).andThen fun _ h₂ => h₂.setLen newsz

variable (h : s.Cached)
include h

theorem Cached.poke (i code : ℕ) : Drops (s.poke i code) := h.changed.put i [code]

/-- Bytes that are kept stay when a text is changed from its end. -/
theorem Cached.pokeEnd (hnone : s.singleDatalen = 0 ∨ s.shared = true) (i code : ℕ) :
    Drops (s.pokeEnd i code) := (h.own hnone).put i [code]

theorem Cached.emptied : Drops (s.emptied reserved junk) := h.changed.grown 0 fun _ hs => hs

theorem Cached.assignText (src : Source) (strIdx strNum : ℕ) :
    Drops (s.assignText reserved junk src strIdx strNum) := by
  rw [Store.assignText]
  split_ifs
  · exact h.emptied
  · exact Drops.bind fun _ => (h.changed.grow _).andThen fun s₁ h₁ =>
      (h₁.setLen _).andThen fun s₂ h₂ => h₂.copyFrom src 0 strIdx _

theorem Cached.assignUtf8 (str : List Byte) (strNum : ℕ) :
    Drops (s.assignUtf8 reserved junk str strNum) := by
  rw [Store.assignUtf8]
  split_ifs
  · exact h.emptied
  · exact Drops.bind fun _ => Drops.bind fun _ => Drops.bind fun _ =>
      h.changed.grown strNum fun s₁ h₁ => h₁.mToUcs4 str 0 _ 0

theorem Cached.assignStd (str : List Byte) (strIdx strNum : ℕ) :
    Drops (s.assignStd reserved junk str strIdx strNum) := by
  rw [Store.assignStd]
  split_ifs
  · exact h.emptied
  · exact Drops.bind fun _ => Drops.bind fun r => h.assignUtf8 r.1 r.2

theorem Cached.assignFill (num code : ℕ) : Drops (s.assignFill reserved junk num code) := by
  refine Drops.bind fun _ => ?_
  split_ifs
  · exact h.emptied
  · exact (h.changed.grow num).andThen fun s₁ h₁ => (h₁.setLen num).andThen fun s₂ h₂ =>
      h₂.put 0 _

theorem Cached.appendWith (num : ℕ) {fill : Store → Except Fault Store}
    (hfill : ∀ s, s.Dropped → Drops (fill s)) : Drops (s.appendWith reserved junk num fill) :=
  h.changed.grown _ hfill

theorem Cached.appendText (src : Source) (strIdx strNum : ℕ) :
    Saves (s.appendText reserved junk src strIdx strNum) := by
  rw [Store.appendText]
  split_ifs
  · exact h
  · exact Saves.bind fun _ =>
      (h.appendWith _ fun s₁ h₁ => h₁.copyFrom src s.length strIdx _).saves

theorem Cached.appendUtf8 (str : List Byte) (len : ℕ) :
    Saves (s.appendUtf8 reserved junk str len) := by
  rw [Store.appendUtf8]
  split_ifs
  · exact h
  · exact Saves.bind fun _ => Saves.bind fun _ => Saves.bind fun _ =>
      (h.appendWith len fun s₁ h₁ => h₁.mToUcs4 str s.length len 0).saves

theorem Cached.appendStd (str : List Byte) (strIdx strNum : ℕ) :
    Saves (s.appendStd reserved junk str strIdx strNum) := by
  rw [Store.appendStd]
  split_ifs
  · exact h
  · exact Saves.bind fun _ => Saves.bind fun r => h.appendUtf8 r.1 r.2

theorem Cached.appendFill (num code : ℕ) : Drops (s.appendFill reserved junk num code) :=
  Drops.bind fun _ => h.appendWith num fun _ h₁ => h₁.put s.length _

theorem Cached.insertWith (idx num : ℕ) {fill : Store → Except Fault Store}
    (hfill : ∀ s, s.Dropped → Drops (fill s)) : Drops (s.insertWith reserved junk idx num fill) :=
  Drops.bind fun _ => h.changed.grown _ fun _ h₁ => (h₁.move _ _ _).andThen hfill

theorem Cached.insertText (idx : ℕ) (src : Source) (strIdx strNum : ℕ) :
    Saves (s.insertText reserved junk idx src strIdx strNum) := by
  rw [Store.insertText]
  split_ifs
  · exact h
  · exact Saves.bind fun _ =>
      (h.insertWith idx _ fun s₁ h₁ => h₁.copyFrom src idx strIdx _).saves

theorem Cached.insertUtf8 (idx : ℕ) (str : List Byte) (len : ℕ) :
    Drops (s.insertUtf8 reserved junk idx str len) :=
  Drops.bind fun _ => Drops.bind fun _ => Drops.bind fun _ =>
    h.insertWith idx len fun _ h₁ => h₁.mToUcs4 str idx len 0

theorem Cached.insertStd (idx : ℕ) (str : List Byte) (strIdx strNum : ℕ) :
    Saves (s.insertStd reserved junk idx str strIdx strNum) := by
  rw [Store.insertStd]
  split_ifs
  · exact h
  · exact Saves.bind fun r => (h.insertUtf8 idx r.1 r.2).saves

theorem Cached.insertFill (idx num code : ℕ) :
    Saves (s.insertFill reserved junk idx num code) := by
  rw [Store.insertFill]
  split_ifs
  · exact h
  · exact Saves.bind fun _ => (h.insertWith idx num fun _ h₁ => h₁.put idx _).saves

theorem Cached.erase (idx len : ℕ) : Saves (s.erase idx len) := by
  rw [Store.erase]
  split_ifs
  · exact h
  · exact Saves.bind fun _ =>
      ((h.changed.move idx _ _).andThen fun _ h₁ => h₁.setLen _).saves
  · exact Saves.bind fun _ =>
      ((h.changed.move idx _ _).andThen fun _ h₁ => h₁.setLen _).saves

theorem Cached.resize (num code : ℕ) : Drops (s.resize reserved junk num code) := by
  rw [Store.resize]
  split_ifs
  · exact h.changed.setLen num
  · exact h.appendFill _ code

theorem Cached.replaceWith (idx len num : ℕ) {fill : Store → Except Fault Store}
    (hfill : ∀ s, s.Dropped → Drops (fill s)) :
    Drops (s.replaceWith reserved junk idx len num fill) := by
  refine h.changed.grown _ fun s₁ h₁ => ?_
  dsimp only
  split_ifs
  · exact (h₁.move _ _ _).andThen hfill
  · exact hfill s₁ h₁
  · exact (h₁.move _ _ _).andThen hfill
  · exact hfill s₁ h₁

theorem Cached.clear : Saves s.clear := by
  rw [Store.clear]
  split_ifs
  · exact h
  · exact (h.changed.setLen 0).saves

theorem Cached.reserve (num : ℕ) : Drops (s.reserve reserved junk num) := by
  rw [Store.reserve]
  split_ifs
  · exact ⟨rfl, rfl⟩
  · exact h.changed.grow num

theorem Cached.trimSpace : Saves s.trimSpace := by
  rw [Store.trimSpace]
  split_ifs
  · exact h
  · refine Saves.bind fun r => ?_
    cases r with
    | none => exact h.clear
    | some ind =>
      change Saves (if ind ≠ s.length - 1 then s.erase (ind + 1) npos else .ok s)
      split_ifs
      · exact h.erase _ _
      · exact h

/-- No edit leaves bytes that are not those of the code points. -/
theorem Cached.edit (env : ℕ → List ℕ) (call : Call) : Saves (s.edit reserved junk env call) := by
  cases call with
  | assign arg =>
    cases arg with
    | text str strIdx strNum => exact (h.assignText _ _ _).saves
    | std str strIdx strNum => exact (h.assignStd _ _ _).saves
    | utf8 str num => exact (h.assignUtf8 _ _).saves
    | fill num code => exact (h.assignFill _ _).saves
  | append arg =>
    cases arg with
    | text str strIdx strNum => exact h.appendText _ _ _
    | std str strIdx strNum => exact h.appendStd _ _ _
    | utf8 str num => exact h.appendUtf8 _ _
    | fill num code => exact (h.appendFill _ _).saves
  | insert idx arg =>
    cases arg with
    | text str strIdx strNum => exact h.insertText _ _ _ _
    | std str strIdx strNum => exact h.insertStd _ _ _ _
    | utf8 str num => exact (h.insertUtf8 _ _ _).saves
    | fill num code => exact h.insertFill _ _ _
  | erase idx len => exact h.erase _ _
  | resize num code => exact (h.resize _ _).saves
  | replace idx len arg =>
    cases arg with
    | text str strIdx strNum =>
      exact Saves.bind fun _ => Saves.bind fun _ =>
        (h.replaceWith idx len _ fun _ h₁ => h₁.copyFrom _ idx strIdx _).saves
    | std str strIdx strNum =>
      exact Saves.bind fun _ => Saves.bind fun _ =>
        (h.replaceWith idx len _ fun _ h₁ => Drops.bind fun xs => h₁.put idx xs).saves
    | utf8 str num =>
      exact Saves.bind fun _ => Saves.bind fun _ => Saves.bind fun _ => Saves.bind fun _ =>
        (h.replaceWith idx len num fun _ h₁ => h₁.mToUcs4 _ idx num num).saves
    | fill num code =>
      exact Saves.bind fun _ => Saves.bind fun _ =>
        (h.replaceWith idx len num fun _ h₁ => h₁.put idx _).saves
  | pushBack code => exact (h.appendFill 1 code).saves
  | clear => exact h.clear
  | reserve num => exact (h.reserve num).saves
  | trimSpace => exact h.trimSpace

end Edits

end Store

end UdtKernel.CText
