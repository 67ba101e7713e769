import UdtKernel.Divisor.Roundtrip

set_option autoImplicit false

/-! When a piece continues the pieces of its packet that are held already. -/

namespace UdtKernel.Continue
open UdtKernel.Lib UdtKernel.Divisor UdtKernel.Plan UdtKernel.Cross UdtKernel.Merge
open UdtKernel.Sequence UdtKernel.Roundtrip

/-- A packet and the pieces it is sent in. -/
structure Origin where
  packet : UserData
  hops : List Hop
  whole : packet.dataId.split = .default
  data : packet.data ≠ []
  fits : Fits16 hops packet
  pieces : List UserData
  crossed : crossAll hops [packet] = .ok pieces

namespace Origin

theorem arrived (o : Origin) : ∃ qs, Arrived o.packet o.pieces qs := by
  have h := crossAll_arrived o.hops o.whole o.data o.fits
  have hcrossed := o.crossed
  cases hplan : plan (meets o.packet o.hops) [Plan.whole o.packet.data.length] with
  | none =>
    rw [hplan] at h
    obtain ⟨e, he⟩ := h
    rw [hcrossed] at he
    cases he
  | some qs =>
    rw [hplan] at h
    obtain ⟨ps, hps, harr⟩ := h
    obtain rfl : ps = o.pieces := Except.ok.inj (hps.symm.trans hcrossed)
    exact ⟨qs, harr⟩

theorem tiles (o : Origin) : Tiles 0 1 (recs o.pieces) := o.arrived.choose_spec.tiles

theorem placed (o : Origin) : ∀ s ∈ recs o.pieces, Placed s := o.arrived.choose_spec.placed

theorem ofPacket (o : Origin) : ∀ m ∈ o.pieces, OfPacket o.packet m :=
  ofPacket_of_pieceOf o.arrived.choose_spec.shape

theorem filled (o : Origin) : ∀ m ∈ o.pieces, m.data ≠ [] := o.arrived.choose_spec.filled

theorem bytes_pieces (o : Origin) : bytes o.pieces = o.packet.data := o.arrived.choose_spec.whole

theorem marked (o : Origin) : ∃ init z, o.pieces = init ++ [z] ∧
    (∀ p ∈ init, isEnd p = false) ∧ isEnd z = true := o.arrived.choose_spec.marked

end Origin

theorem tiles_start_le {a b : ℚ} {ss : List SplitPacket} (hp : ∀ s ∈ ss, Placed s)
    (h : Tiles a b ss) {s : SplitPacket} (hs : s ∈ ss) : a ≤ start s := by
  obtain ⟨l, r, rfl⟩ := List.append_of_mem hs
  obtain ⟨c, hl, hr⟩ := tiles_split h
  have hle := tiles_le (fun t ht => hp t (List.mem_append_left _ ht)) hl
  rw [hr.1]
  exact hle

/-- Two pieces of a packet that start at one place are the same piece. -/
theorem eq_of_start_eq {a b : ℚ} {ps : List UserData} (hp : ∀ s ∈ recs ps, Placed s)
    (h : Tiles a b (recs ps)) {x y : UserData} (hx : x ∈ ps) (hy : y ∈ ps)
    (hxy : start x.dataId.split = start y.dataId.split) : x = y := by
  induction ps generalizing a with
  | nil => cases hx
  | cons p ps ih =>
    have hp' : ∀ s ∈ recs ps, Placed s := fun s hs => hp s (List.mem_cons_of_mem _ hs)
    have hlt := start_lt_stop (hp p.dataId.split List.mem_cons_self)
    have hlater : ∀ z ∈ ps, start p.dataId.split < start z.dataId.split := fun z hz =>
      lt_of_lt_of_le hlt (tiles_start_le hp' h.2 (List.mem_map_of_mem hz))
    rcases List.mem_cons.1 hx with rfl | hx'
    · rcases List.mem_cons.1 hy with rfl | hy'
      · rfl
      · exact absurd hxy (ne_of_lt (hlater y hy'))
    · rcases List.mem_cons.1 hy with rfl | hy'
      · exact absurd hxy.symm (ne_of_lt (hlater x hx'))
      · exact ih hp' h.2 hx' hy'

theorem levels_find_last {pre : List UserData} {k : ℕ} (h : k ∈ coefs pre) :
    ∃ l x r, pre = l ++ x :: r ∧ x.dataId.split.coefficient = k ∧ k ∉ coefs r ∧
      (levels pre).find k = some x.dataId.split := by
  induction pre using List.reverseRecOn with
  | nil => simp [coefs] at h
  | append_singleton pre y ih =>
    rw [levels_find_concat]
    by_cases hy : k = y.dataId.split.coefficient
    · exact ⟨pre, y, [], rfl, hy.symm, by simp [coefs], if_pos hy⟩
    · have hk : k ∈ coefs pre := by
        simp only [coefs, List.map_append, List.mem_append] at h
        rcases h with h | h
        · exact h
        · exact absurd (by simpa using h) hy
      obtain ⟨l, x, r, rfl, hx, hr, hfind⟩ := ih hk
      refine ⟨l, x, r ++ [y], by simp, hx, ?_, by rw [if_neg hy, hfind]⟩
      simp only [coefs, List.map_append, List.mem_append, not_or]
      exact ⟨hr, by simpa using hy⟩

/-- `m` is the piece of the packet that comes right after `pre`. -/
def Continues (o : Origin) (pre : List UserData) (m : UserData) : Prop :=
  pre ++ [m] <+: o.pieces

/-- The first piece of a packet is the one that counts one. -/
theorem continues_first {o : Origin} {m : UserData} (hm : m ∈ o.pieces)
    (hone : m.dataId.split.counter = 1) : Continues o [] m := by
  obtain ⟨x, rest, hrest⟩ : ∃ x rest, o.pieces = x :: rest :=
    List.exists_cons_of_ne_nil (List.ne_nil_of_mem hm)
  have ht := o.tiles
  have hx : x ∈ o.pieces := by rw [hrest]; exact List.mem_cons_self
  have hstart : start x.dataId.split = 0 := by rw [hrest] at ht; exact ht.1
  have hmstart := (counter_eq_one_iff (o.placed _ (List.mem_map_of_mem hm))).1 hone
  obtain rfl := eq_of_start_eq o.placed ht hx hm (hstart.trans hmstart.symm)
  exact ⟨rest, by rw [hrest]; rfl⟩

theorem counter_of_continues_nil {o : Origin} {m : UserData} (h : Continues o [] m) :
    m.dataId.split.counter = 1 := by
  obtain ⟨rest, hrest⟩ := h
  have ht := o.tiles
  have hp := o.placed
  rw [← hrest] at ht hp
  exact (counter_eq_one_iff (hp _ (by simp [recs]))).2 ht.1

/-- The level check passes on a piece that continues at a new level or at the current one. -/
theorem inSequence_of_continues {o : Origin} {pre : List UserData} {m : UserData}
    (h : Continues o pre m) (hb : pre ≠ [] → bytes pre ≠ [])
    (hl : m.dataId.split.coefficient ∉ coefs pre ∨
      (coefs pre).getLast? = some m.dataId.split.coefficient) : InSequence pre m := by
  have hdata : m.data ≠ [] := o.filled m (h.subset (by simp))
  cases pre using List.reverseRecOn with
  | nil =>
    exact ⟨fun s hs => by simp [levels] at hs, fun _ => counter_of_continues_nil h, hdata⟩
  | append_singleton pre x =>
    obtain ⟨rest, hrest⟩ := h
    have ht := o.tiles
    have hp := o.placed
    rw [← hrest] at ht hp
    obtain ⟨b, htpre, -⟩ := tiles_split
      (show Tiles 0 1 (recs (pre ++ [x] ++ [m]) ++ recs rest) by simpa [recs] using ht)
    refine ⟨(follows_iff htpre fun s hs => hp s ?_).2 ?_, fun hnil => absurd hnil (hb (by simp)),
      hdata⟩
    · simp only [recs, List.map_append, List.mem_append] at hs ⊢
      exact .inl hs
    · rcases hl with hl | hl
      · exact .inl hl
      · exact .inr (by simpa [coefs] using hl)

/-- The level check fails on a piece out of place whose level was met before. -/
theorem not_follows_of_not_continues {o : Origin} {pre : List UserData} {m : UserData}
    (hpre : pre <+: o.pieces) (hm : m ∈ o.pieces) (h : ¬ Continues o pre m)
    (hl : m.dataId.split.coefficient ∈ coefs pre) :
    ¬ ∀ s, (levels pre).find m.dataId.split.coefficient = some s →
      s.counter + 1 = m.dataId.split.counter := by
  intro hall
  obtain ⟨l, x, r, rfl, hx, hr, hfind⟩ := levels_find_last hl
  have hplaced := o.placed _ (List.mem_map_of_mem hm)
  have hstop := (counter_succ_iff hplaced hx).1 (hall _ hfind)
  obtain ⟨rest, hrest⟩ := hpre
  have ht := o.tiles
  have hp := o.placed
  rw [← hrest] at ht hp
  obtain ⟨b, -, htx⟩ := tiles_split (show Tiles 0 1 (recs l ++ recs (x :: r ++ rest)) by
    simpa [recs] using ht)
  -- the piece right after `x` starts where `m` does
  have hnext : ∀ y ys, r ++ rest = y :: ys → y = m := by
    intro y ys hy
    have hys : Tiles (stop x.dataId.split) 1 (recs (y :: ys)) := hy ▸ htx.2
    have hymem : y ∈ o.pieces := by
      rw [← hrest]
      have : y ∈ r ++ rest := by rw [hy]; exact List.mem_cons_self
      simp only [List.mem_append, List.mem_cons] at this ⊢
      tauto
    exact eq_of_start_eq o.placed o.tiles hymem hm (hys.1.trans hstop)
  cases r with
  | cons y ys =>
    obtain rfl := hnext y (ys ++ rest) rfl
    exact hr (by simp [coefs])
  | nil =>
    cases rest with
    | nil =>
      have hone : stop x.dataId.split = 1 := htx.2
      have hle := tiles_stop_le o.placed o.tiles (List.mem_map_of_mem hm)
      have hlt := start_lt_stop hplaced
      rw [← hstop, hone] at hlt
      exact absurd hle (not_le.2 hlt)
    | cons y ys =>
      obtain rfl := hnext y ys rfl
      exact h ⟨ys, by rw [← hrest]; simp⟩

end UdtKernel.Continue
