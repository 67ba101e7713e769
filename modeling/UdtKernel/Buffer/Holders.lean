import UdtKernel.Buffer.Sharing

set_option autoImplicit false

/-! What one object does to a storage, and what the others see of it. -/

namespace UdtKernel.Buffer
open UdtKernel.Lib

namespace World

structure Inv (w : World) : Prop where
  counts : CountsHolders w.blocks w.held
  fits : ∀ i, ∀ c ∈ cellAt w.blocks i, c.value.Fits

/-- One object has another storage, or other bytes in it, and the others are as they were. -/
structure Becomes (w : World) (o : ℕ) (s : Option Storage) (w' : World) : Prop where
  inv : w'.Inv
  self : w'.view o = (w.view o).map fun b => { b with storage := s }
  others : ∀ p, p ≠ o → w'.view p = w.view p

/-- An object holds a storage that no other one holds. -/
structure Owns (w : World) (o : ℕ) (x : Object) (i : ℕ) (s : Storage) : Prop where
  find : w.find o = some x
  pointer : x.beginOfStorage = some i
  cell : cellAt w.blocks i = some ⟨s, 1⟩

structure Released (w : World) (o : ℕ) (x : Object) (w' : World) : Prop where
  becomes : w.Becomes o none w'
  find_self : w'.find o = some { x with beginOfStorage := none }
  find_of_ne : ∀ p, p ≠ o → w'.find p = w.find p
  cell_of_ne : ∀ j, x.beginOfStorage ≠ some j → cellAt w'.blocks j = cellAt w.blocks j
  length : w'.blocks.length = w.blocks.length

variable {w w' w'' : World} {o p i : ℕ} {x y : Object} {s t : Storage} {c : SharedCell Storage}

theorem Becomes.trans {s t : Option Storage} (h : w.Becomes o s w') (h' : w'.Becomes o t w'') :
    w.Becomes o t w'' := by
  refine ⟨h'.inv, ?_, fun p hp => (h'.others p hp).trans (h.others p hp)⟩
  rw [h'.self, h.self, Option.map_map]
  rfl

theorem getElem_of_find (h : w.find o = some x) : w.objects[o]? = some (some x) :=
  Option.join_eq_some_iff.1 h

theorem lt_of_find (h : w.find o = some x) : o < w.objects.length :=
  (List.getElem?_eq_some_iff.1 (getElem_of_find h)).1

theorem object_eq (h : w.find o = some x) : w.object o = .ok x := by
  unfold object
  rw [h]
  rfl

theorem block_eq (h : cellAt w.blocks i = some c) : w.block i = .ok c := by
  unfold block
  rw [h]
  rfl

theorem view_eq (h : w.find o = some x) : w.view o = some (w.buffer x) := by
  unfold view
  rw [h]
  rfl

theorem held_eq (h : w.find o = some x) : w.held[o]? = some x.beginOfStorage := by
  unfold held
  rw [List.getElem?_map, getElem_of_find h]
  rfl

theorem find_set_self (blocks : List (Option (SharedCell Storage))) (h : w.find o = some x)
    (y : Option Object) : (World.mk blocks (w.objects.set o y)).find o = y := by
  unfold find
  rw [List.getElem?_set_self (lt_of_find h)]
  rfl

theorem find_set_of_ne {m : List (Option (SharedCell Storage))} (hp : p ≠ o)
    (y : Option Object) : (World.mk m (w.objects.set o y)).find p = w.find p := by
  unfold find
  rw [List.getElem?_set_ne hp.symm]

theorem held_set {blocks : List (Option (SharedCell Storage))} (y : Option Object) :
    (World.mk blocks (w.objects.set o y)).held = w.held.set o (y.bind Object.beginOfStorage) :=
  List.map_set

/-- What an object sees depends on its own cell only. -/
theorem view_congr (hfind : w'.find p = w.find p)
    (hcell : ∀ y ∈ w.find p, ∀ j ∈ y.beginOfStorage,
      (cellAt w'.blocks j).map SharedCell.value = (cellAt w.blocks j).map SharedCell.value) :
    w'.view p = w.view p := by
  unfold view
  rw [hfind]
  cases hy : w.find p with
  | none => rfl
  | some y =>
    refine congrArg some (congrArg (CBuffer.mk y.beginSize y.maxSize) ?_)
    cases hj : y.beginOfStorage with
    | none => rfl
    | some j => exact hcell y hy j hj

theorem buffer_of_cell (hpointer : x.beginOfStorage = some i)
    (hcell : cellAt w.blocks i = some c) :
    w.buffer x = ⟨x.beginSize, x.maxSize, some c.value⟩ := by
  unfold buffer
  rw [hpointer, Option.bind_some, hcell]
  rfl

theorem buffer_of_null (hpointer : x.beginOfStorage = none) :
    w.buffer x = ⟨x.beginSize, x.maxSize, none⟩ := by
  unfold buffer
  rw [hpointer]
  rfl

theorem Inv.cell (h : w.Inv) (hfind : w.find o = some x) (hpointer : x.beginOfStorage = some i) :
    ∃ c, cellAt w.blocks i = some c ∧ 0 < c.count := by
  obtain ⟨c, hc, -, hpos⟩ := h.counts.exists_cell (hpointer ▸ held_eq hfind)
  exact ⟨c, hc, hpos⟩

theorem Inv.buffer_inv (h : w.Inv) (x : Object) : (w.buffer x).Inv := by
  intro s hs
  obtain ⟨i, -, hi⟩ := Option.bind_eq_some_iff.1 hs
  obtain ⟨c, hc, rfl⟩ := Option.map_eq_some_iff.1 hi
  exact h.fits i c hc

/-- Another object that holds a cell of one holder is that holder. -/
theorem Inv.not_pointer (h : w.Inv) (hfind : w.find o = some x)
    (hpointer : x.beginOfStorage = some i) (hc : cellAt w.blocks i = some c) (hone : c.count = 1)
    (hp : p ≠ o) (hy : w.find p = some y) : y.beginOfStorage ≠ some i := fun hi =>
  h.counts.sole hc hone (hpointer ▸ held_eq hfind) hp (hi ▸ held_eq hy)

theorem Inv.update (h : w.Inv) (howns : w.Owns o x i s) (ht : t.Fits) :
    ∃ w', w.update i t = .ok w' ∧ w.Becomes o (some t) w' ∧ w'.Owns o x i t := by
  have hself := cellAt_set_self howns.cell (some ⟨t, 1⟩)
  refine ⟨w.setBlock i (some ⟨t, 1⟩), ?_, ⟨⟨?_, ?_⟩, ?_, ?_⟩,
    ⟨howns.find, howns.pointer, hself⟩⟩
  · rw [World.update, block_eq howns.cell]
    rfl
  · exact h.counts.alter howns.cell t
  · intro j c hc
    by_cases hj : j = i
    · rw [hj] at hc
      cases hself.symm.trans hc
      exact ht
    · exact h.fits j c ((cellAt_set_of_ne hj _).symm.trans hc)
  · rw [view_eq howns.find, view_eq (w := w.setBlock i (some ⟨t, 1⟩)) howns.find,
      buffer_of_cell howns.pointer howns.cell, buffer_of_cell howns.pointer hself]
    rfl
  · intro p hp
    refine view_congr rfl fun y hy j hj => ?_
    have hne := h.not_pointer howns.find howns.pointer howns.cell rfl hp hy
    rw [hj, Ne, Option.some.injEq] at hne
    exact congrArg (Option.map SharedCell.value) (cellAt_set_of_ne hne _)

theorem Inv.setNew (h : w.Inv) (hfind : w.find o = some x) (hnull : x.beginOfStorage = none)
    (hs : s.Fits) : ∃ w', w.setNew o s = .ok w' ∧ w.Becomes o (some s) w' ∧
      w'.Owns o { x with beginOfStorage := some w.blocks.length } w.blocks.length s := by
  have hself := @cellAt_concat_self _ w.blocks (some ⟨s, 1⟩)
  have hfind' := find_set_self (w.blocks ++ [some ⟨s, 1⟩]) hfind
    (some { x with beginOfStorage := some w.blocks.length })
  refine ⟨⟨w.blocks ++ [some ⟨s, 1⟩], _⟩, ?_, ⟨⟨?_, ?_⟩, ?_, ?_⟩, ⟨hfind', rfl, hself⟩⟩
  · rw [World.setNew, object_eq hfind]
    rfl
  · rw [held_set]
    exact h.counts.fresh (hnull ▸ held_eq hfind) s
  · intro j c hc
    by_cases hj : j = w.blocks.length
    · rw [hj] at hc
      cases hself.symm.trans hc
      exact hs
    · exact h.fits j c ((cellAt_concat_of_ne hj _).symm.trans hc)
  · rw [view_eq hfind, view_eq hfind', buffer_of_null hnull, buffer_of_cell rfl hself]
    rfl
  · intro p hp
    refine view_congr (find_set_of_ne hp _) fun y hy j hj => ?_
    obtain ⟨c, hc, -⟩ := h.cell hy hj
    exact congrArg (Option.map SharedCell.value)
      (cellAt_concat_of_ne (Nat.ne_of_lt (lt_of_cellAt hc)) _)

theorem Inv.release (h : w.Inv) (hfind : w.find o = some x) :
    ∃ w', w.release o = .ok w' ∧ w.Released o x w' := by
  unfold World.release
  rw [object_eq hfind]
  simp only [bind, Except.bind]
  cases hpointer : x.beginOfStorage with
  | none =>
    have hx : { x with beginOfStorage := none } = x := by rw [← hpointer]
    refine ⟨w, rfl, ⟨⟨h, ?_, fun _ _ => rfl⟩, hx.symm ▸ hfind, fun _ _ => rfl, fun _ _ => rfl, rfl⟩⟩
    rw [view_eq hfind, buffer_of_null hpointer]
    rfl
  | some i =>
    obtain ⟨c, hc, hpos⟩ := h.cell hfind hpointer
    dsimp only
    rw [block_eq hc]
    dsimp only
    rw [if_neg (by omega)]
    have hfind' := find_set_self
      (w.blocks.set i
        (if c.count = 1 then none else some { c with count := c.count - 1 })) hfind
      (some { x with beginOfStorage := none })
    have hcells : ∀ j, ∀ d ∈ cellAt (w.blocks.set i
        (if c.count = 1 then none else some { c with count := c.count - 1 })) j,
        ∃ e ∈ cellAt w.blocks j, d.value = e.value := by
      intro j d hd
      by_cases hj : j = i
      · rw [hj, cellAt_set_self hc] at hd
        split_ifs at hd
        · cases hd
        · cases hd
          exact ⟨c, hj ▸ hc, rfl⟩
      · rw [cellAt_set_of_ne hj] at hd
        exact ⟨d, hd, rfl⟩
    have hne : ∀ j, x.beginOfStorage ≠ some j → j ≠ i := fun j hj hji => hj (hji ▸ hpointer)
    refine ⟨_, rfl, ⟨⟨⟨?_, ?_⟩, ?_, ?_⟩, hfind', fun p hp => find_set_of_ne hp _,
      fun j hj => cellAt_set_of_ne (hne j hj) _, List.length_set⟩⟩
    · exact held_set (w := w) _ ▸ h.counts.drop hc (hpointer ▸ held_eq hfind)
    · intro j d hd
      obtain ⟨e, he, hvalue⟩ := hcells j d hd
      rw [hvalue]
      exact h.fits j e he
    · refine (view_eq hfind').trans ?_
      rw [view_eq hfind]
      rfl
    · intro p hp
      refine view_congr (find_set_of_ne hp _) fun y hy j hj => ?_
      by_cases hji : j = i
      · have hone : c.count ≠ 1 := fun hone =>
          h.not_pointer hfind hpointer hc hone hp hy (hji ▸ hj)
        rw [hji, hc]
        change Option.map _ (cellAt (w.blocks.set i _) i) = _
        rw [cellAt_set_self hc, if_neg hone]
        rfl
      · exact congrArg (Option.map SharedCell.value) (cellAt_set_of_ne hji _)

end World

end UdtKernel.Buffer
