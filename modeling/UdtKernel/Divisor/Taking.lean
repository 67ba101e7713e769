import UdtKernel.Divisor.Damage

set_option autoImplicit false

/-! What becomes of pieces of one packet that stand together, whatever pieces they are. -/

namespace UdtKernel.Taking
open UdtKernel.Lib UdtKernel.Divisor UdtKernel.Cross UdtKernel.Merge UdtKernel.Roundtrip
open UdtKernel.Damage

/-- No `CHECK` fails while the pieces are taken behind `pre`. -/
def Takes : List UserData → List UserData → Prop
  | _, [] => True
  | pre, p :: ps => CanTake pre p ∧ (isEnd p = true → ps = []) ∧ Takes (pre ++ [p]) ps

def ends (g : List UserData) : Bool := g.getLast?.any isEnd

def Completes (pre g : List UserData) : Prop :=
  Sequenced pre g ∧ ends g = true ∧ bytes (pre ++ g) ≠ []

/-- The pieces are to be held, for others are still to come. -/
def Grows (pre g : List UserData) : Prop := Sequenced pre g ∧ ends g = false

instance decidableCanTake (pre : List UserData) (p : UserData) : Decidable (CanTake pre p) :=
  inferInstanceAs (Decidable ((bytes pre = [] → p.dataId.split.counter = 1) ∧ p.data ≠ []))

instance decidableInSequence (pre : List UserData) (p : UserData) : Decidable (InSequence pre p) :=
  inferInstanceAs (Decidable ((∀ s, (levels pre).find p.dataId.split.coefficient = some s →
    s.counter + 1 = p.dataId.split.counter) ∧ CanTake pre p))

instance decidableSequenced : (pre ps : List UserData) → Decidable (Sequenced pre ps)
  | _, [] => isTrue trivial
  | pre, p :: ps =>
    have := decidableSequenced (pre ++ [p]) ps
    inferInstanceAs (Decidable (InSequence pre p ∧ Sequenced (pre ++ [p]) ps))

instance decidableTakes : (pre ps : List UserData) → Decidable (Takes pre ps)
  | _, [] => isTrue trivial
  | pre, p :: ps =>
    have := decidableTakes (pre ++ [p]) ps
    inferInstanceAs (Decidable (CanTake pre p ∧ (isEnd p = true → ps = []) ∧
      Takes (pre ++ [p]) ps))

instance (pre g : List UserData) : Decidable (Completes pre g) :=
  inferInstanceAs (Decidable (Sequenced pre g ∧ ends g = true ∧ bytes (pre ++ g) ≠ []))

instance (pre g : List UserData) : Decidable (Grows pre g) :=
  inferInstanceAs (Decidable (Sequenced pre g ∧ ends g = false))

/-- Pieces with which no `CHECK` fails are all taken, and without an error if they are in
    sequence. -/
theorem mergingLoop_takes (info : UserDataInfo) {ps : List UserData} (hne : ps ≠ [])
    (hp : ∀ p ∈ ps, isSplited p.dataId.split) {pre : List UserData} (news : List UserData)
    (e : ErrorType) (h : Takes pre ps) :
    ∃ e', MergeOperation.mergingLoop ps (opDuring info pre news e) =
        .ok (ends ps, opDuring info (pre ++ ps) [] e') ∧
      (e' = eNoError ↔ e = eNoError ∧ Sequenced pre ps) := by
  have hlost : ePacketLost ≠ eNoError := by decide
  induction ps generalizing pre news e with
  | nil => exact absurd rfl hne
  | cons p ps ih =>
    obtain ⟨htake, hend, hrest⟩ := h
    rw [mergingLoop_cons info news e ps (hp p List.mem_cons_self) htake]
    dsimp only
    generalize he : (if ∀ s, (levels pre).find p.dataId.split.coefficient = some s →
      s.counter + 1 = p.dataId.split.counter then e else ePacketLost) = e₁
    have he₁ : e₁ = eNoError ↔ e = eNoError ∧ InSequence pre p := by
      rw [← he, InSequence]
      split_ifs with hfollows
      · exact ⟨fun h => ⟨h, hfollows, htake⟩, And.left⟩
      · exact ⟨fun h => absurd h hlost, fun h => absurd h.2.1 hfollows⟩
    cases ps with
    | nil =>
      refine ⟨e₁, ?_, he₁.trans (and_congr_right fun _ => (and_iff_left trivial).symm)⟩
      by_cases hlast : isEnd p = true
      · rw [if_pos hlast]
        simp [ends, hlast]
      · rw [if_neg hlast, mergingLoop_nil]
        simp [ends, hlast]
    | cons q qs =>
      have hmiddle : ¬isEnd p = true := fun hlast => nomatch hend hlast
      obtain ⟨e', hloop, he'⟩ := ih (List.cons_ne_nil q qs)
        (fun x hx => hp x (List.mem_cons_of_mem _ hx)) (q :: qs) e₁ hrest
      refine ⟨e', ?_, he'.trans ?_⟩
      · rw [if_neg hmiddle, hloop, List.append_assoc]
        rfl
      · rw [he₁, and_assoc]
        rfl

/-- With other pieces a `CHECK` fails, or pieces are left behind the last one. -/
theorem mergingLoop_not_takes (info : UserDataInfo) {ps : List UserData}
    (hp : ∀ p ∈ ps, isSplited p.dataId.split) {pre news : List UserData} {e : ErrorType}
    (h : ¬Takes pre ps) {b : Bool} {op : MergeOperation}
    (hloop : MergeOperation.mergingLoop ps (opDuring info pre news e) = .ok (b, op)) :
    b = true ∧ op.newPackets ≠ [] := by
  induction ps generalizing pre news e with
  | nil => exact absurd trivial h
  | cons p ps ih =>
    have htake := canTake_of_mergingLoop (hp p List.mem_cons_self) hloop
    rw [mergingLoop_cons info news e ps (hp p List.mem_cons_self) htake] at hloop
    dsimp only at hloop
    generalize (if ∀ s, (levels pre).find p.dataId.split.coefficient = some s →
      s.counter + 1 = p.dataId.split.counter then e else ePacketLost) = e₁ at hloop
    split_ifs at hloop with hlast
    · obtain ⟨rfl, rfl⟩ := Prod.mk.inj (Except.ok.inj hloop)
      refine ⟨rfl, fun hnil => h ?_⟩
      obtain rfl : ps = [] := hnil
      exact ⟨htake, fun _ => rfl, trivial⟩
    · refine ih (fun x hx => hp x (List.mem_cons_of_mem _ hx)) (fun hrest => h ?_) hloop
      exact ⟨htake, fun hl => absurd hl hlast, hrest⟩

/-- What a call leaves that takes its pieces. -/
theorem merge_takes (info : UserDataInfo) {pre : List UserData} {p : UserData} {ps : List UserData}
    (hn : info.packetNumber = p.dataId.packetNumber) (hp : ∀ q ∈ p :: ps, isSplited q.dataId.split)
    (h : Takes pre (p :: ps)) :
    ∃ m, (opAfter info pre).merge p ps = .ok m ∧ m.rest = [] ∧
      (Completes pre (p :: ps) ∧ m.delivered = [delivered info (pre ++ p :: ps)] ∧
          m.op = opMerged info (pre ++ p :: ps) ∨
        Grows pre (p :: ps) ∧ m.delivered = [] ∧ m.op = opAfter info (pre ++ p :: ps) ∨
        ¬Completes pre (p :: ps) ∧ ¬Grows pre (p :: ps) ∧ m.delivered = [] ∧
          m.op.error ≠ eNoError ∧ m.op.info = info ∧ m.op.mergedPackets = pre ++ p :: ps ∧
          m.op.newPackets = []) := by
  have hmerge : eMergeError ≠ eNoError := by decide
  obtain ⟨e, hloop, he⟩ := mergingLoop_takes info (List.cons_ne_nil p ps) hp (p :: ps) eNoError h
  have hseq : e = eNoError ↔ Sequenced pre (p :: ps) := he.trans (and_iff_right rfl)
  have hnews : (opDuring info pre (p :: ps) eNoError).newPackets = p :: ps := rfl
  rw [merge_opAfter info pre p ps hn]
  simp only [MergeOperation.merging, hnews, hloop]
  rw [if_neg (List.cons_ne_nil p ps)]
  generalize hg : pre ++ p :: ps = g
  have hnil : (opDuring info g [] e).newPackets = [] := rfl
  cases hends : ends (p :: ps) with
  | false =>
    have hnot : ¬Completes pre (p :: ps) := fun hc =>
      absurd (hends.symm.trans hc.2.1) (by decide)
    by_cases herr : e = eNoError
    · refine ⟨⟨[], [], opDuring info g [] e⟩, ?_, rfl, .inr (.inl ⟨⟨hseq.1 herr, hends⟩, rfl, ?_⟩)⟩
      · simp [bind, Except.bind, pure, Except.pure]
      · rw [herr]
        rfl
    · refine ⟨⟨[], [], opDuring info g [] e⟩, ?_, rfl,
        .inr (.inr ⟨hnot, fun hgrows => herr (hseq.2 hgrows.1), rfl, herr, rfl, rfl, rfl⟩)⟩
      simp [bind, Except.bind, pure, Except.pure]
  | true =>
    have hnot : ¬Grows pre (p :: ps) := fun hc => absurd (hends.symm.trans hc.2) (by decide)
    by_cases hb : bytes g = []
    · have hcreate : (opDuring info g [] e).createPacket = (none, opDuring info g [] e) :=
        if_neg (not_not_intro hb)
      refine ⟨⟨[], [], { opDuring info g [] e with error := eMergeError }⟩, ?_, rfl,
        .inr (.inr ⟨fun hc => hc.2.2 (hg ▸ hb), hnot, rfl, hmerge, rfl, rfl, rfl⟩)⟩
      simp [bind, Except.bind, pure, Except.pure, hnil, hcreate]
    · have hcreate : (opDuring info g [] e).createPacket =
          (some (delivered info g), { opDuring info g [] e with bufForMerge := [] }) := if_pos hb
      by_cases herr : e = eNoError
      · refine ⟨⟨[], [delivered info g], opMerged info g⟩, ?_, rfl,
          .inl ⟨⟨hseq.1 herr, hends, hg ▸ hb⟩, rfl, rfl⟩⟩
        simp only [bind, Except.bind, pure, Except.pure, hcreate, if_true, hnil, ne_eq,
          not_true_eq_false, if_false]
        simp [herr, opDuring, opMerged, opAfter]
      · refine ⟨⟨[], [], { opDuring info g [] e with bufForMerge := [], isMerged := true }⟩, ?_,
          rfl, .inr (.inr ⟨fun hc => herr (hseq.2 hc.1), hnot, rfl, herr, rfl, rfl, rfl⟩)⟩
        simp only [bind, Except.bind, pure, Except.pure, hcreate, if_true, hnil, ne_eq,
          not_true_eq_false, if_false]
        simp [herr, opDuring]

/-- A call that ends takes its pieces. -/
theorem takes_of_merge {info : UserDataInfo} {pre : List UserData} {p : UserData}
    {ps : List UserData} (hn : info.packetNumber = p.dataId.packetNumber)
    (hp : ∀ q ∈ p :: ps, isSplited q.dataId.split) {m : MergeOperation.Merged}
    (h : (opAfter info pre).merge p ps = .ok m) : Takes pre (p :: ps) := by
  by_contra hnot
  have hnews : (opDuring info pre (p :: ps) eNoError).newPackets = p :: ps := rfl
  rw [merge_opAfter info pre p ps hn] at h
  simp only [MergeOperation.merging, hnews] at h
  rw [if_neg (List.cons_ne_nil p ps)] at h
  cases hloop : MergeOperation.mergingLoop (p :: ps) (opDuring info pre (p :: ps) eNoError) with
  | error e => rw [hloop] at h; cases h
  | ok r =>
    obtain ⟨b, op⟩ := r
    obtain ⟨rfl, hleft⟩ := mergingLoop_not_takes info hp hnot hloop
    rw [hloop] at h
    simp only [bind, Except.bind, if_true, if_pos hleft] at h
    cases h

end UdtKernel.Taking
