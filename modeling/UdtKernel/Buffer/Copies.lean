import UdtKernel.Buffer.Detach

set_option autoImplicit false

/-! Objects that take over, share or let go of a storage. -/

namespace UdtKernel.Buffer
open UdtKernel.Lib

namespace World

variable {w : World} {o r : ℕ} {x y : Object}

/-- A new object is there, and the others are as they were. -/
structure Adds (w : World) (l : List Byte) (w' : World) : Prop where
  inv : w'.Inv
  bytes : (w'.view w.objects.length).map CBuffer.bytes = some l
  others : ∀ p, p < w.objects.length → w'.view p = w.view p

theorem find_create_self (beginSize maxSize : ℕ) :
    (w.create beginSize maxSize).find w.objects.length = some ⟨beginSize, maxSize, none⟩ := by
  unfold find create
  rw [List.getElem?_concat_length]
  rfl

theorem find_create_of_lt {p : ℕ} (hp : p < w.objects.length) (beginSize maxSize : ℕ) :
    (w.create beginSize maxSize).find p = w.find p := by
  unfold find create
  rw [List.getElem?_append_left hp]

theorem Inv.create (h : w.Inv) (beginSize maxSize : ℕ) :
    w.Adds [] (w.create beginSize maxSize) := by
  refine ⟨⟨?_, h.fits⟩, ?_, fun p hp => view_congr (find_create_of_lt hp _ _) fun _ _ _ _ => rfl⟩
  · have hheld : (w.create beginSize maxSize).held = w.held ++ [none] := List.map_append
    rw [hheld]
    exact h.counts.join
  · rw [view_eq (find_create_self _ _)]
    rfl

theorem Inv.hold (h : w.Inv) (hfind : w.find o = some x) (hnull : x.beginOfStorage = none) {i : ℕ}
    {c : SharedCell Storage} (hc : cellAt w.blocks i = some c) (hsmall : c.count + 1 < 2 ^ 32)
    (beginSize maxSize : ℕ) :
    ∃ w' : World, w' = ⟨w.blocks.set i (some { c with count := (c.count + 1) % 2 ^ 32 }),
        w.objects.set o (some ⟨beginSize, maxSize, some i⟩)⟩ ∧ w'.Inv ∧
      w'.view o = some ⟨beginSize, maxSize, some c.value⟩ ∧
      ∀ p, p ≠ o → w'.view p = w.view p := by
  have hself := cellAt_set_self hc (some { c with count := (c.count + 1) % 2 ^ 32 })
  have hfind' := find_set_self
    (w.blocks.set i (some { c with count := (c.count + 1) % 2 ^ 32 })) hfind
    (some ⟨beginSize, maxSize, some i⟩)
  have hvalue : ∀ j, (cellAt (w.blocks.set i (some { c with count := (c.count + 1) % 2 ^ 32 }))
      j).map SharedCell.value = (cellAt w.blocks j).map SharedCell.value := by
    intro j
    by_cases hj : j = i
    · rw [hj, hself, hc]
      rfl
    · rw [cellAt_set_of_ne hj]
  refine ⟨_, rfl, ⟨?_, fun j d hd => ?_⟩, ?_, fun p hp => ?_⟩
  · rw [held_set, Nat.mod_eq_of_lt hsmall]
    exact h.counts.hold hc (hnull ▸ held_eq hfind)
  · have hj := hvalue j
    rw [Option.mem_def.1 hd] at hj
    obtain ⟨e, he, heq⟩ := Option.map_eq_some_iff.1 hj.symm
    rw [← heq]
    exact h.fits j e he
  · rw [view_eq hfind', buffer_of_cell rfl hself]
  · exact view_congr (find_set_of_ne hp _) fun y _ j _ => hvalue j

theorem Inv.copy (h : w.Inv) (hfind : w.find r = some y) (hsmall : w.use_count y + 1 < 2 ^ 32) :
    ∃ w', w.copy r = .ok w' ∧ w.Adds (w.buffer y).bytes w' := by
  have hcreate := h.create y.beginSize y.maxSize
  unfold World.copy
  rw [object_eq hfind]
  simp only [bind, Except.bind]
  cases hpointer : y.beginOfStorage with
  | none =>
    rw [buffer_of_null hpointer]
    have hy : y = ⟨y.beginSize, y.maxSize, none⟩ := by rw [← hpointer]
    refine ⟨w.create y.beginSize y.maxSize, ?_, hcreate⟩
    change Except.ok (World.mk w.blocks (w.objects ++ [some y])) = _
    rw [hy]
    rfl
  | some i =>
    obtain ⟨c, hc, -⟩ := h.cell hfind hpointer
    rw [use_count_of_cell hpointer hc] at hsmall
    rw [buffer_of_cell hpointer hc]
    obtain ⟨w', hw', hinv, hself, hothers⟩ := hcreate.inv.hold (find_create_self _ _) rfl hc hsmall
      y.beginSize y.maxSize
    refine ⟨w', ?_, hinv, ?_, fun p hp =>
      (hothers p (Nat.ne_of_lt hp)).trans (hcreate.others p hp)⟩
    · have hy : y = ⟨y.beginSize, y.maxSize, some i⟩ := by rw [← hpointer]
      dsimp only [add_ref_copy]
      rw [block_eq hc, hw']
      change Except.ok (World.mk _ (w.objects ++ [some y])) = Except.ok (World.mk _
        ((w.objects ++ [some _]).set w.objects.length _))
      rw [List.set_append_right _ _ (Nat.le_refl _), Nat.sub_self, List.set_cons_zero, ← hy]
      rfl
    · rw [hself]
      rfl

theorem Inv.setNull (h : w.Inv) (hfind : w.find o = some x) (hnull : x.beginOfStorage = none)
    {z : Option Object} (hz : z.bind Object.beginOfStorage = none) :
    (w.setObject o z).Inv ∧
      (w.setObject o z).view o = z.map (fun x => ⟨x.beginSize, x.maxSize, none⟩) ∧
      ∀ p, p ≠ o → (w.setObject o z).view p = w.view p := by
  have hheld : (w.setObject o z).held = w.held := by
    obtain ⟨hlt, hget⟩ := List.getElem?_eq_some_iff.1 (held_eq hfind)
    refine (held_set z).trans ?_
    rw [hz, ← hnull, ← hget, List.set_getElem_self]
  refine ⟨⟨hheld.symm ▸ h.counts, h.fits⟩, ?_, fun p hp =>
    view_congr (find_set_of_ne hp z) fun _ _ _ _ => rfl⟩
  unfold view
  rw [World.setObject, find_set_self _ hfind]
  cases z with
  | none => rfl
  | some z => exact congrArg some (buffer_of_null hz)

/-- Two objects exchange what they hold. -/
theorem Inv.exchange (h : w.Inv) (hfind : w.find o = some x) (hfind' : w.find r = some y)
    (hne : r ≠ o) (m n : ℕ) :
    ∃ w' : World, w' = (w.setObject o (some ⟨x.beginSize, m, y.beginOfStorage⟩)).setObject r
        (some ⟨y.beginSize, n, x.beginOfStorage⟩) ∧ w'.Inv ∧
      w'.view o = some ⟨x.beginSize, m, (w.buffer y).storage⟩ ∧
      w'.view r = some ⟨y.beginSize, n, (w.buffer x).storage⟩ ∧
      ∀ p, p ≠ o → p ≠ r → w'.view p = w.view p := by
  have hfirst : (w.setObject o (some ⟨x.beginSize, m, y.beginOfStorage⟩)).find r = some y :=
    (find_set_of_ne hne _).trans hfind'
  have hfindr := find_set_self w.blocks hfirst
    (some ⟨y.beginSize, n, x.beginOfStorage⟩)
  have hfindo := (find_set_of_ne (w := w.setObject o (some ⟨x.beginSize, m, y.beginOfStorage⟩))
    (m := w.blocks) hne.symm (some ⟨y.beginSize, n, x.beginOfStorage⟩)).trans
    (find_set_self w.blocks hfind _)
  refine ⟨_, rfl, ⟨?_, h.fits⟩, view_eq hfindo, view_eq hfindr, fun p hp hp' => ?_⟩
  · have hheld : ((w.setObject o (some ⟨x.beginSize, m, y.beginOfStorage⟩)).setObject r
        (some ⟨y.beginSize, n, x.beginOfStorage⟩)).held =
        (w.held.set o y.beginOfStorage).set r x.beginOfStorage :=
      (held_set _).trans (congrArg (List.set · r x.beginOfStorage) (held_set _))
    rw [hheld]
    exact h.counts.exchange (held_eq hfind) (held_eq hfind') hne
  · exact view_congr ((find_set_of_ne hp' _).trans (find_set_of_ne hp _)) fun _ _ _ _ => rfl

/-- Equal pointers lead to one storage. -/
theorem storage_congr (h : y.beginOfStorage = x.beginOfStorage) :
    (w.buffer y).storage = (w.buffer x).storage := by
  unfold buffer
  dsimp only
  rw [h]

theorem bytes_congr {b c : CBuffer} (h : b.storage = c.storage) : b.bytes = c.bytes := by
  unfold CBuffer.bytes
  rw [h]

theorem Inv.assign (h : w.Inv) (hfind : w.find o = some x) (hfind' : w.find r = some y)
    (hsmall : w.use_count y + 1 < 2 ^ 32) :
    ∃ w', w.assign o r = .ok w' ∧ w'.Inv ∧
      (w'.view o).map CBuffer.bytes = some (w.buffer y).bytes ∧
      ∀ p, p ≠ o → w'.view p = w.view p := by
  unfold World.assign
  rw [object_eq hfind, object_eq hfind']
  simp only [bind, Except.bind]
  by_cases hsame : y.beginOfStorage = x.beginOfStorage
  · rw [if_pos hsame]
    refine ⟨w, rfl, h, ?_, fun _ _ => rfl⟩
    rw [view_eq hfind]
    exact congrArg some (bytes_congr (storage_congr hsame).symm)
  · rw [if_neg hsame]
    obtain ⟨w₁, hrelease, hreleased⟩ := h.release hfind
    have hinv := hreleased.becomes.inv
    rw [hrelease]
    dsimp only
    cases hpointer : y.beginOfStorage with
    | none =>
      obtain ⟨hinv', hself, hothers⟩ := hinv.setNull hreleased.find_self rfl
        (z := some ⟨x.beginSize, y.maxSize, none⟩) rfl
      refine ⟨_, rfl, hinv', ?_, fun p hp => (hothers p hp).trans (hreleased.becomes.others p hp)⟩
      rw [hself, buffer_of_null hpointer]
      rfl
    | some i =>
      obtain ⟨c, hc, -⟩ := h.cell hfind' hpointer
      rw [use_count_of_cell hpointer hc] at hsmall
      have hc' : cellAt w₁.blocks i = some c := by
        rw [hreleased.cell_of_ne i fun hi => hsame (hpointer.trans hi.symm), hc]
      obtain ⟨w', hw', hinv', hself, hothers⟩ := hinv.hold hreleased.find_self rfl hc' hsmall
        x.beginSize y.maxSize
      refine ⟨w', ?_, hinv', ?_, fun p hp => (hothers p hp).trans (hreleased.becomes.others p hp)⟩
      · dsimp only [add_ref_copy]
        rw [block_eq hc', hw']
        rfl
      · rw [hself, buffer_of_cell hpointer hc]
        rfl

theorem Inv.deep_copy (h : w.Inv) (hfind : w.find o = some x) (hfind' : w.find r = some y)
    (hsome : y.beginOfStorage = none → x.beginOfStorage = none) (memory : ℕ → Byte) :
    ∃ w' s, w.deep_copy o r memory = .ok w' ∧ w.Becomes o s w' ∧
      (s.map Storage.bytes).getD [] = (w.buffer y).bytes := by
  unfold World.deep_copy
  rw [object_eq hfind, object_eq hfind']
  simp only [bind, Except.bind]
  by_cases hsame : y.beginOfStorage = x.beginOfStorage
  · rw [if_pos hsame]
    exact ⟨w, _, rfl, h.becomes_self hfind, bytes_congr (storage_congr hsame).symm⟩
  · rw [if_neg hsame]
    obtain ⟨w₁, hrelease, hreleased⟩ := h.release hfind
    rw [hrelease]
    dsimp only
    cases hpointer : y.beginOfStorage with
    | none => exact absurd (hpointer.trans (hsome hpointer).symm) hsame
    | some i =>
      obtain ⟨c, hc, -⟩ := h.cell hfind' hpointer
      have hc' : cellAt w₁.blocks i = some c := by
        rw [hreleased.cell_of_ne i fun hi => hsame (hpointer.trans hi.symm), hc]
      have hbuffer := buffer_of_cell hpointer hc
      have hcopy := (h.buffer_inv y).copied memory
      have hbytes := CBuffer.bytes_copied (b := w.buffer y) memory
      rw [hbuffer] at hcopy hbytes ⊢
      obtain ⟨w', hnew, hbecomes, -⟩ :=
        hreleased.becomes.inv.setNew hreleased.find_self rfl (hcopy _ rfl)
      dsimp only
      rw [block_eq hc']
      dsimp only
      rw [(h.fits i c hc).deep_copy]
      exact ⟨w', _, hnew, hreleased.becomes.trans hbecomes, hbytes⟩

theorem Inv.mCreateCopy (h : w.Inv) (hfind : w.find r = some y) (memory : ℕ → Byte) :
    ∃ w', w.mCreateCopy r memory = .ok w' ∧ w.Adds (w.buffer y).bytes w' := by
  have hcreate := h.create defBufReserve y.maxSize
  obtain ⟨w', s, hcopy, hbecomes, hbytes⟩ := hcreate.inv.deep_copy (find_create_self _ _)
    ((find_create_of_lt (lt_of_find hfind) _ _).trans hfind) (fun _ => rfl) memory
  refine ⟨w', ?_, hbecomes.inv, ?_, fun p hp =>
    (hbecomes.others p (Nat.ne_of_lt hp)).trans (hcreate.others p hp)⟩
  · unfold World.mCreateCopy
    rw [object_eq hfind]
    exact hcopy
  · rw [hbecomes.self, view_eq (find_create_self _ _)]
    exact congrArg some hbytes

theorem Inv.mMoveTo (h : w.Inv) (hfind : w.find o = some x) (hfind' : w.find r = some y)
    (hdifferent : y.beginOfStorage ≠ x.beginOfStorage) :
    ∃ w', w.mMoveTo o r = .ok w' ∧ w'.Inv ∧
      (w'.view o).map CBuffer.bytes = some [] ∧
      (w'.view r).map CBuffer.bytes = some (w.buffer x).bytes ∧
      ∀ p, p ≠ o → p ≠ r → w'.view p = w.view p := by
  have hne : o ≠ r := by
    rintro rfl
    cases hfind.symm.trans hfind'
    exact hdifferent rfl
  obtain ⟨w₁, hrelease, hreleased⟩ := h.release hfind'
  have hfind₁ := (hreleased.find_of_ne o hne).trans hfind
  obtain ⟨w', hw', hinv, hviewr, hviewo, hothers⟩ :=
    hreleased.becomes.inv.exchange hreleased.find_self hfind₁ hne x.maxSize x.maxSize
  have hstorage : (w₁.buffer x).storage = (w.buffer x).storage := by
    have hview := hreleased.becomes.others o hne
    rw [view_eq hfind₁, view_eq hfind] at hview
    rw [Option.some.inj hview]
  refine ⟨w', ?_, hinv, ?_, ?_, fun p hp hp' =>
    (hothers p hp' hp).trans (hreleased.becomes.others p hp')⟩
  · unfold World.mMoveTo
    rw [object_eq hfind, object_eq hfind']
    simp only [bind, Except.bind]
    rw [if_neg hdifferent, hrelease, hw']
    rfl
  · rw [hviewo]
    rfl
  · rw [hviewr]
    exact congrArg some (bytes_congr hstorage)

theorem Inv.swap (h : w.Inv) (hfind : w.find o = some x) (hfind' : w.find r = some y) :
    ∃ w', w.swap o r = .ok w' ∧ w'.Inv ∧
      (w'.view o).map CBuffer.bytes = some (w.buffer y).bytes ∧
      (w'.view r).map CBuffer.bytes = some (w.buffer x).bytes ∧
      ∀ p, p ≠ o → p ≠ r → w'.view p = w.view p := by
  unfold World.swap
  rw [object_eq hfind, object_eq hfind']
  simp only [bind, Except.bind]
  by_cases hsame : y.beginOfStorage = x.beginOfStorage
  · have hbytes := bytes_congr (storage_congr (w := w) hsame)
    rw [if_pos hsame]
    refine ⟨w, rfl, h, ?_, ?_, fun _ _ _ => rfl⟩
    · rw [view_eq hfind, hbytes]
      rfl
    · rw [view_eq hfind', ← hbytes]
      rfl
  · have hne : r ≠ o := by
      rintro rfl
      cases hfind.symm.trans hfind'
      exact hsame rfl
    obtain ⟨w', hw', hinv, hviewo, hviewr, hothers⟩ :=
      h.exchange hfind hfind' hne y.maxSize x.maxSize
    rw [if_neg hsame]
    refine ⟨w', congrArg Except.ok hw'.symm, hinv, ?_, ?_, hothers⟩
    · rw [hviewo]
      rfl
    · rw [hviewr]
      rfl

theorem Inv.destroy (h : w.Inv) (hfind : w.find o = some x) :
    ∃ w', w.destroy o = .ok w' ∧ w'.Inv ∧ w'.view o = none ∧
      ∀ p, p ≠ o → w'.view p = w.view p := by
  obtain ⟨w₁, hrelease, hreleased⟩ := h.release hfind
  obtain ⟨hinv, hself, hothers⟩ :=
    hreleased.becomes.inv.setNull hreleased.find_self rfl (z := none) rfl
  refine ⟨w₁.setObject o none, ?_, hinv, hself, fun p hp =>
    (hothers p hp).trans (hreleased.becomes.others p hp)⟩
  unfold World.destroy
  rw [hrelease]
  rfl

end World

end UdtKernel.Buffer
