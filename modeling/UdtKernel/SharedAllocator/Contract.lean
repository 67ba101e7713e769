import UdtKernel.SharedAllocator.HeapRuns
import UdtKernel.SharedAllocator.Overcount

set_option autoImplicit false

/-! What an allocation promises, and the runs in which it is kept. -/

namespace UdtKernel.SharedAllocator
open UdtKernel.Lib

namespace Heap

variable {h h' : Heap} {blocks blocks' A B : List ℕ} {used used' : ℕ → Bool} {a n who : ℕ}

def FreeByte (h : Heap) (x : ℕ) : Prop :=
  ∃ l, h.freeNodes = .ok l ∧ ∃ a ∈ l, a + sizeOfBlockNode ≤ x ∧ x < h.endOf a

/-- What is promised of the memory `p` that an allocation returns. -/
structure Served (h h' : Heap) (allocated : List ℕ) (xWantedSize aOffset p : ℕ) : Prop where
  aligned : p % alignment = h.aligmentHead % alignment
  behindHead : h.first + sizeOfBlockNode ≤ p
  inside : p + h'.size (p - sizeOfBlockNode) ≤ h.maxSize
  size : xWantedSize ≤ h'.size (p - sizeOfBlockNode)
  allocated : ∀ q ∈ allocated, p + h'.size (p - sizeOfBlockNode) + sizeOfBlockNode ≤ q ∨
    q + h'.size (q - sizeOfBlockNode) + sizeOfBlockNode ≤ p
  free : ∃ l, h'.freeNodes = .ok l ∧ ∀ a ∈ l, p + h'.size (p - sizeOfBlockNode) ≤ a ∨
    h'.endOf a + sizeOfBlockNode ≤ p
  offset : aOffset ≠ 0 → p = aOffset
  restored : ∃ h'', h'.mFreeBlock p = .ok h'' ∧ ∀ x, h''.FreeByte x ↔ h.FreeByte x

/-- Blocks that lie apart between those that are used are where these leave them. -/
theorem tiles_unique {p q : ℕ} (ht : Linked id h.endOf p blocks q)
    (ht' : Linked id h'.endOf p blocks' q) (hapart : Apart blocks used)
    (hapart' : Apart blocks' used') (heq : blocks.filter used = blocks'.filter used')
    (hend : ∀ b ∈ blocks.filter used, h'.endOf b = h.endOf b) :
    blocks = blocks' ∧ ∀ b ∈ blocks, h'.endOf b = h.endOf b ∧ used' b = used b := by
  induction blocks generalizing p blocks' with
  | nil =>
    cases blocks' with
    | nil =>
      refine ⟨rfl, fun b hb => ?_⟩
      cases hb
    | cons a bs =>
      have hp : p = q := ht
      have hle := ht'.bounds lt_endOf a List.mem_cons_self
      have hlt := lt_endOf (h := h') a
      omega
  | cons a bs ih =>
    have hp : p = a := ht.1
    have hle := ht.bounds lt_endOf a List.mem_cons_self
    have hlt := lt_endOf (h := h) a
    cases blocks' with
    | nil =>
      have hq : p = q := ht'
      omega
    | cons a' bs' =>
      obtain rfl : a = a' := hp.symm.trans ht'.1
      have htail : Linked id h.endOf (h.endOf a) bs q := ht.2
      have htail' : Linked id h'.endOf (h'.endOf a) bs' q := ht'.2
      have hlt' := lt_endOf (h := h') a
      have hused : used' a = used a := by
        cases hu : used a <;> cases hu' : used' a
        · rfl
        · rw [List.filter_cons_of_neg (by rw [hu]; exact Bool.false_ne_true),
            List.filter_cons_of_pos hu'] at heq
          have hmem : a ∈ bs.filter used := heq ▸ List.mem_cons_self
          have hge := (htail.bounds lt_endOf a (List.mem_of_mem_filter hmem)).1
          omega
        · rw [List.filter_cons_of_pos hu,
            List.filter_cons_of_neg (by rw [hu']; exact Bool.false_ne_true)] at heq
          have hmem : a ∈ bs'.filter used' := heq ▸ List.mem_cons_self
          have hge := (htail'.bounds lt_endOf a (List.mem_of_mem_filter hmem)).1
          omega
        · rfl
      unfold Apart at hapart hapart'
      rw [List.isChain_cons] at hapart hapart'
      obtain ⟨hhead, hapart⟩ := hapart
      obtain ⟨hhead', hapart'⟩ := hapart'
      rw [hused] at hhead'
      have hrest : bs.filter used = bs'.filter used' := by
        cases hu : used a with
        | false =>
          have hnot : ¬ used a = true := by rw [hu]; exact Bool.false_ne_true
          have hnot' : ¬ used' a = true := by rwa [hused]
          rwa [List.filter_cons_of_neg hnot, List.filter_cons_of_neg hnot'] at heq
        | true =>
          rw [List.filter_cons_of_pos hu, List.filter_cons_of_pos (hused.trans hu)] at heq
          exact (List.cons.inj heq).2
      have hsame : h'.endOf a = h.endOf a := by
        cases hu : used a with
        | true => exact hend a (List.mem_filter.2 ⟨List.mem_cons_self, hu⟩)
        | false =>
          -- behind a free block is one that is used, or the end
          cases bs with
          | nil =>
            cases bs' with
            | nil => exact htail'.trans htail.symm
            | cons b' bs' =>
              have hb' : used' b' = true := (hhead' b' rfl).resolve_left (by simp [hu])
              rw [List.filter_cons_of_pos hb'] at hrest
              cases hrest
          | cons b bs =>
            have hb : used b = true := (hhead b rfl).resolve_left (by simp [hu])
            rw [List.filter_cons_of_pos hb] at hrest
            cases bs' with
            | nil => cases hrest
            | cons b' bs' =>
              have hb' : used' b' = true := (hhead' b' rfl).resolve_left (by simp [hu])
              rw [List.filter_cons_of_pos hb'] at hrest
              have hbb : b = b' := (List.cons.inj hrest).1
              exact htail'.1.trans (hbb.symm.trans htail.1.symm)
      rw [hsame] at htail'
      obtain ⟨rfl, hall⟩ := ih htail htail' hapart hapart' hrest fun b hb =>
        hend b (List.mem_filter.2 ⟨List.mem_cons_of_mem a (List.mem_of_mem_filter hb),
          (List.mem_filter.1 hb).2⟩)
      refine ⟨rfl, fun b hb => ?_⟩
      rcases List.mem_cons.1 hb with rfl | hb
      · exact ⟨hsame, hused⟩
      · exact hall b hb

/-- Every block has the place of the head, up to the alignment. -/
theorem Tiled.position (ht : Tiled h blocks used) :
    ∀ b ∈ blocks, b % alignment = h.aligmentHead % alignment := by
  have hfirst : h.first % alignment = h.aligmentHead % alignment := by
    unfold first sizeOfHeapHead alignment
    omega
  have hall : ∀ (l : List ℕ) (p : ℕ), Linked id h.endOf p l h.maxSize →
      (∀ b ∈ l, alignment ∣ h.size b) → ∀ b ∈ l, b % alignment = p % alignment := by
    intro l
    induction l with
    | nil =>
      intro p _ _ b hb
      cases hb
    | cons a l ih =>
      intro p htiles hdvd b hb
      have hp : p = a := htiles.1
      rcases List.mem_cons.1 hb with rfl | hb
      · rw [hp]
      · rw [ih (h.endOf a) htiles.2 (fun c hc => hdvd c (List.mem_cons_of_mem a hc)) b hb, hp]
        have ha := hdvd a List.mem_cons_self
        unfold endOf sizeOfBlockNode alignment at *
        omega
  intro b hb
  rw [hall blocks h.first ht.tiles ht.aligned b hb, hfirst]

theorem Tiled.endOf_le_or (ht : Tiled h blocks used) {a b : ℕ} (ha : a ∈ blocks)
    (hb : b ∈ blocks) (hne : a ≠ b) : h.endOf a ≤ b ∨ h.endOf b ≤ a := by
  have hsorted := ht.sorted
  obtain ⟨A, B, rfl⟩ := List.append_of_mem ha
  rw [List.pairwise_append, List.pairwise_cons] at hsorted
  rcases List.mem_append.1 hb with hb | hb
  · exact Or.inr (hsorted.2.2 b hb a List.mem_cons_self)
  · rcases List.mem_cons.1 hb with rfl | hb
    · exact absurd rfl hne
    · exact Or.inl (hsorted.2.1.1 b hb)

theorem Tiled.size_le (ht : Tiled h blocks used) {a : ℕ} (ha : a ∈ blocks.filter (!used ·)) :
    h.size a ≤ h.freeBytesRemaining := by
  obtain ⟨l₁, l₂, hl⟩ := List.append_of_mem ha
  rw [ht.remaining, hl, sum_middle]
  exact Nat.le_add_right _ _

theorem roundUp_lt (n : ℕ) : roundUp n < n + alignment := by
  unfold roundUp alignment
  split_ifs
  · have hle := Nat.mod_le (n + (8 - n % 8)) (2 ^ 64)
    omega
  · omega

/-- A block of an aligned size has room for what is wanted just when it has for the rounded size. -/
theorem Tiled.size_lt (ht : Tiled h blocks used) {n : ℕ} (ha : a ∈ blocks)
    (hlt : h.size a < roundUp n) : h.size a < n := by
  have hdvd := ht.aligned a ha
  have hround := roundUp_lt n
  unfold roundUp alignment at *
  split_ifs at hlt hround with hpos
  · have hle := Nat.mod_le (n + (8 - n % 8)) (2 ^ 64)
    omega
  · exact hlt

theorem firstFit_none {n : ℕ} {prev : Option ℕ} {l : List ℕ}
    (hnone : h.firstFit n prev l = none) : ∀ a ∈ l, h.size a < n := by
  induction l generalizing prev with
  | nil =>
    intro a ha
    cases ha
  | cons b l ih =>
    unfold firstFit at hnone
    split_ifs at hnone with hb
    intro a ha
    rcases List.mem_cons.1 ha with rfl | ha
    · exact hb
    · exact ih hnone a ha

theorem firstFit_more (k n : ℕ) (prev : Option ℕ) (l : List ℕ) :
    (h.more k).firstFit n prev l = h.firstFit n prev l := by
  induction l generalizing prev with
  | nil => rfl
  | cons b l ih =>
    unfold firstFit
    rw [ih]
    rfl

theorem lastFit_more (k n : ℕ) (prev : Option ℕ) (l : List ℕ) (result : Option NodesBlock) :
    (h.more k).lastFit n prev l result = h.lastFit n prev l result := by
  induction l generalizing prev result with
  | nil => rfl
  | cons b l ih =>
    unfold lastFit
    rw [ih]
    rfl

theorem getFreeBlock_more (k n : ℕ) (aFromEnd : Bool) (aOffset : ℕ) :
    (h.more k).getFreeBlock n aFromEnd aOffset =
      (h.getFreeBlock n aFromEnd aOffset).map fun x => (x.1, x.2.more k) := by
  have hsize : (h.more k).size = h.size := rfl
  unfold getFreeBlock mGetFreeBlockFromEnd mGetFreeBlockFromBegin
  rw [freeNodes_more]
  cases h.freeNodes with
  | error e => cases aFromEnd <;> rfl
  | ok l =>
    cases aFromEnd with
    | true =>
      change Except.ok ((h.more k).lastFit n none l none, h.more k) =
        Except.ok (h.lastFit n none l none, h.more k)
      rw [lastFit_more]
    | false =>
      change (if aOffset = 0 then _ else _) = Except.map _ (if aOffset = 0 then _ else _)
      by_cases hzero : aOffset = 0
      · rw [if_pos hzero, if_pos hzero, firstFit_more]
        rfl
      · rw [if_neg hzero, if_neg hzero]
        cases lastBefore aOffset l with
        | mk first second =>
          cases first with
          | none => rfl
          | some f =>
            dsimp only
            rw [hsize]
            split_ifs <;> rfl

theorem mMallocBlock_none {g : Heap} {n aOffset : ℕ} {aFromEnd : Bool}
    (hchoice : g.freeBytesRemaining < roundUp n ∨
      g.getFreeBlock (roundUp n) aFromEnd aOffset = .ok (none, g)) :
    g.mMallocBlock n aFromEnd aOffset = .ok (none, g) := by
  unfold mMallocBlock
  by_cases hzero : n = 0
  · rw [if_pos hzero]
    rfl
  · rw [if_neg hzero]
    dsimp only
    by_cases hcount : g.freeBytesRemaining < roundUp n
    · rw [if_pos hcount]
      rfl
    · rw [if_neg hcount, hchoice.resolve_left hcount]
      rfl

theorem mMallocBlock_some {g h₁ h₂ : Heap} {n aOffset k who : ℕ} {aFromEnd : Bool}
    {nodes : NodesBlock} (hpos : 0 < n) (hcount : ¬ g.freeBytesRemaining < roundUp n)
    (hchoice : g.getFreeBlock (roundUp n) aFromEnd aOffset = .ok (some nodes, h₁.more k))
    (hle : h₁.size nodes.1 ≤ h₁.freeBytesRemaining)
    (hsplit : (h₁.mEraseNodeFromFreeList nodes).mSplitBlockAndUpdateList nodes (roundUp n)
      aFromEnd = .ok (who, h₂)) :
    g.mMallocBlock n aFromEnd aOffset =
      .ok (some (who + sizeOfBlockNode), (h₂.mAllocate who true).more k) := by
  unfold mMallocBlock
  rw [if_neg (Nat.ne_of_gt hpos)]
  dsimp only
  rw [if_neg hcount, hchoice]
  dsimp only [bind, Except.bind, pure, Except.pure]
  rw [mEraseNodeFromFreeList_more k hle, mSplitBlockAndUpdateList_more, hsplit]
  rfl

/-- A block at a fixed offset begins there. -/
theorem getFreeBlock_offset {n aOffset : ℕ} (ho : aOffset ≠ 0) {nodes : NodesBlock}
    (hchoice : h.getFreeBlock n false aOffset = .ok (some nodes, h')) :
    nodes.1 + sizeOfBlockNode = aOffset := by
  unfold getFreeBlock mGetFreeBlockFromBegin at hchoice
  obtain ⟨l, -, hchoice⟩ := eq_ok_of_bind hchoice
  rw [if_neg ho] at hchoice
  cases hbefore : lastBefore aOffset l with
  | mk first second =>
    rw [hbefore] at hchoice
    cases first with
    | none => cases hchoice
    | some f =>
      dsimp only at hchoice
      by_cases hhere : f + sizeOfBlockNode = aOffset
      · rw [if_pos hhere] at hchoice
        split_ifs at hchoice with hsize
        · cases hchoice
        · cases hchoice
          exact hhere
      · rw [if_neg hhere] at hchoice
        by_cases hnear : aOffset < f + sizeOfBlockNode + sizeOfBlockNode
        · rw [if_pos hnear] at hchoice
          cases hchoice
        · rw [if_neg hnear] at hchoice
          split_ifs at hchoice with hroom
          · cases hchoice
          · cases hchoice
            change f + aOffset - (f + sizeOfBlockNode) + sizeOfBlockNode = aOffset
            omega

/-- The free block that a fixed offset splits. -/
theorem splitAt_of_not_fitsAt (ht : Tiled h blocks used) {n aOffset : ℕ} (ho : aOffset ≠ 0)
    (hfits : ¬ h.FitsAt aOffset n) : ∃ f ∈ blocks.filter (!used ·), f < aOffset ∧
      f + sizeOfBlockNode + sizeOfBlockNode ≤ aOffset ∧
      (aOffset - (f + sizeOfBlockNode) + n + sizeOfBlockNode) % 2 ^ 64 ≤ h.size f ∧
      h.getFreeBlock n false aOffset =
        .ok (some (h.splitAt f aOffset).1, (h.splitAt f aOffset).2) := by
  unfold FitsAt at hfits
  rw [ht.freeNodes_eq] at hfits
  push Not at hfits
  obtain ⟨l, hl, f, hf, hhere, hnear, hroom⟩ := hfits
  cases hl
  cases hbefore : lastBefore aOffset (blocks.filter (!used ·)) with
  | mk first second =>
    rw [hbefore] at hf
    cases hf
    have hfold := hbefore
    unfold lastBefore at hfold
    obtain ⟨hlt, l₁, l₂, hl, -⟩ :=
      (foldl_lastBefore (ht.lt.filter (!used ·)) hfold).resolve_left (fun heq => nomatch heq)
    refine ⟨f, ?_, hlt, hnear, hroom, ?_⟩
    · rw [hl]
      exact List.mem_append_right l₁ List.mem_cons_self
    · unfold getFreeBlock mGetFreeBlockFromBegin
      rw [ht.freeNodes_eq]
      change (if aOffset = 0 then _ else _) = _
      rw [if_neg ho, hbefore]
      dsimp only
      rw [if_neg hhere, if_neg (Nat.not_lt.2 hnear), if_neg (Nat.not_lt.2 hroom)]
      rfl

/-- What is given back at once leaves the free blocks as they were. -/
theorem Taken.restored (htaken : Taken h h' blocks used n who blocks' used')
    (ht : Tiled h blocks used) (hapart : Apart blocks used) :
    ∃ h'', h'.mFreeBlock (who + sizeOfBlockNode) = .ok h'' ∧
      ∀ x, h''.FreeByte x ↔ h.FreeByte x := by
  have hmem : who ∈ blocks'.filter used' :=
    htaken.perm.mem_iff.2 List.mem_cons_self
  obtain ⟨hmem, hused⟩ := List.mem_filter.1 hmem
  obtain ⟨A, B, rfl⟩ := List.append_of_mem hmem
  obtain ⟨h'', blocks'', hfree, hins⟩ := htaken.tiled.mFreeBlock htaken.apart hused
  have hnodup := htaken.tiled.nodup
  rw [List.nodup_middle, List.nodup_cons] at hnodup
  have hperm : ((A ++ B).filter used').Perm (blocks.filter used) := by
    have hperm := htaken.perm
    rw [List.filter_append, List.filter_cons, if_pos hused] at hperm
    rw [List.filter_append]
    exact (List.perm_middle.symm.trans hperm).cons_inv
  have hfilter : blocks.filter used =
      blocks''.filter (Function.update used' who false) := by
    rw [hins.used_eq]
    have hlt := htaken.tiled.lt.sublist
      ((List.Sublist.refl A).append (List.sublist_cons_self who B))
    refine List.Perm.eq_of_pairwise (fun a b _ _ hab hba => ?_) (ht.lt.filter _) (hlt.filter _)
      hperm.symm
    exact absurd hba (Nat.lt_asymm hab)
  have hnode : ∀ b ∈ blocks.filter used, h''.endOf b = h.endOf b := by
    intro b hb
    have hb' : b ∈ (A ++ B).filter used' := hperm.mem_iff.2 hb
    obtain ⟨hbmem, hbused⟩ := List.mem_filter.1 hb'
    have hne : b ≠ who := ne_of_mem_of_not_mem hbmem hnodup.1
    refine endOf_congr (congrArg BlockNode.blockSize ?_)
    rw [hins.node b hbused hne, htaken.node b hb]
  have htiles : Linked id h''.endOf h.first blocks'' h.maxSize := by
    rw [← htaken.maxSize, ← htaken.first, ← hins.maxSize, ← hins.first]
    exact hins.tiled.tiles
  obtain ⟨rfl, hall⟩ := tiles_unique ht.tiles htiles hapart hins.apart hfilter hnode
  refine ⟨h'', hfree, fun x => ?_⟩
  have hlist : blocks.filter (!Function.update used' who false ·) = blocks.filter (!used ·) :=
    List.filter_congr fun b hb => by rw [(hall b hb).2]
  unfold FreeByte
  rw [hins.tiled.freeNodes_eq, ht.freeNodes_eq, hlist]
  refine exists_congr fun l => and_congr_right fun hl => exists_congr fun a =>
    and_congr_right fun ha => ?_
  cases hl
  rw [(hall a (List.mem_of_mem_filter ha)).1]

theorem freeByte_more (k x : ℕ) : (h.more k).FreeByte x ↔ h.FreeByte x := by
  unfold FreeByte
  rw [freeNodes_more]
  rfl

/-- What is taken is as it was promised. -/
theorem Taken.served (htaken : Taken h h' blocks used n who blocks' used')
    (ht : Tiled h blocks used) (hapart : Apart blocks used) {allocated : List ℕ}
    (hperm : ((blocks.filter used).map (· + sizeOfBlockNode)).Perm allocated) {aOffset : ℕ}
    (hoffset : aOffset ≠ 0 → who + sizeOfBlockNode = aOffset) (k k' : ℕ) :
    Served (h.more k) (h'.more k') allocated n aOffset (who + sizeOfBlockNode) := by
  have hmem := htaken.perm.mem_iff.2 List.mem_cons_self
  obtain ⟨hmem, hused⟩ := List.mem_filter.1 hmem
  have hnodup := htaken.tiled.nodup.filter used'
  rw [htaken.perm.nodup_iff, List.nodup_cons] at hnodup
  have hhead : h'.aligmentHead = h.aligmentHead := Nat.add_right_cancel htaken.first
  obtain ⟨hfirst, hlast⟩ := htaken.tiled.tiles.bounds lt_endOf who hmem
  rw [htaken.first] at hfirst
  rw [htaken.maxSize] at hlast
  have hposition := htaken.tiled.position who hmem
  have hback : who + sizeOfBlockNode - sizeOfBlockNode = who := Nat.add_sub_cancel _ _
  have hend : who + sizeOfBlockNode + (h'.more k').size who = h'.endOf who := rfl
  refine ⟨?_, ?_, ?_, ?_, ?_, ?_, hoffset, ?_⟩
  · change _ = h.aligmentHead % alignment
    rw [← hhead, ← hposition]
    unfold sizeOfBlockNode alignment
    omega
  · exact Nat.add_le_add_right hfirst _
  · rw [hback, hend]
    exact hlast
  · rw [hback]
    exact htaken.size
  · intro q hq
    obtain ⟨b, hb, rfl⟩ := List.mem_map.1 (hperm.mem_iff.2 hq)
    have hb' := htaken.perm.mem_iff.2 (List.mem_cons_of_mem who hb)
    have hne : who ≠ b := fun heq => hnodup.1 (heq ▸ hb)
    have hor := htaken.tiled.endOf_le_or hmem (List.mem_of_mem_filter hb') hne
    have hendB : b + sizeOfBlockNode + (h'.more k').size b = h'.endOf b := rfl
    rw [hback, hend, Nat.add_sub_cancel, hendB]
    omega
  · refine ⟨_, (freeNodes_more k').trans htaken.tiled.freeNodes_eq, fun b hb => ?_⟩
    obtain ⟨hb, hfree⟩ := List.mem_filter.1 hb
    have hne : who ≠ b := by
      rintro rfl
      rw [hused] at hfree
      cases hfree
    have hor := htaken.tiled.endOf_le_or hmem hb hne
    rw [hback, hend]
    change _ ∨ h'.endOf b + sizeOfBlockNode ≤ _
    omega
  · obtain ⟨h'', hfree, hbytes⟩ := htaken.restored ht hapart
    refine ⟨h''.more k', ?_, fun x => ?_⟩
    · rw [mFreeBlock_more, hfree]
      rfl
    · rw [freeByte_more, freeByte_more]
      exact hbytes x

/-- No free block is split for an offset that is not aligned, or that is outside of the heap. -/
def Unbroken (h : Heap) (xWantedSize : ℕ) (aFromEnd : Bool) (aOffset : ℕ) : Prop :=
  0 < xWantedSize → aFromEnd = false → aOffset ≠ 0 →
    h.freeBytesRemaining < roundUp xWantedSize ∨ h.FitsAt aOffset (roundUp xWantedSize) ∨
      (aOffset % alignment = h.aligmentHead % alignment ∧ aOffset < h.maxSize)

instance (h : Heap) (n : ℕ) (aFromEnd : Bool) (aOffset : ℕ) :
    Decidable (h.Unbroken n aFromEnd aOffset) :=
  inferInstanceAs (Decidable (_ → _ → _ → _ ∨ _ ∨ _))

theorem fitsAt_more (k aOffset : ℕ) : (h.more k).FitsAt aOffset n ↔ h.FitsAt aOffset n := by
  unfold FitsAt
  rw [freeNodes_more]
  rfl

theorem Apart.behind {f m : ℕ} (hapart : Apart (A ++ f :: B) used) (hmA : m ∉ A) (hmf : m ≠ f)
    (hmB : m ∉ B) : Apart (A ++ f :: m :: B) (Function.update used m true) := by
  obtain ⟨hA, hB, hlast, -⟩ := apart_middle.1 hapart
  have hself : Function.update used m true m = true := Function.update_self _ _ _
  have hcongr : ∀ b, b ≠ m → Function.update used m true b = used b := fun b hb =>
    Function.update_of_ne hb _ _
  have hB' : Apart ([] ++ m :: B) (Function.update used m true) := by
    refine apart_middle.2 ⟨List.IsChain.nil, ?_, fun s hs => Or.inr hself, fun n _ => Or.inl hself⟩
    exact apart_congr hB fun b hb => hcongr b (ne_of_mem_of_not_mem hb hmB)
  refine apart_middle.2 ⟨?_, hB', fun s hs => ?_, fun n hn => ?_⟩
  · exact apart_congr hA fun b hb => hcongr b (ne_of_mem_of_not_mem hb hmA)
  · rw [hcongr s (ne_of_mem_of_not_mem (List.mem_of_getLast? hs) hmA), hcongr f (Ne.symm hmf)]
    exact hlast s hs
  · cases hn
    exact Or.inr hself

/-- A free block that is split for an offset is taken behind it. -/
theorem Tiled.takeSplit (ht : Tiled h blocks used) (hapart : Apart blocks used) {aOffset : ℕ}
    (hn : n < 2 ^ 63) {f : ℕ} (hf : f ∈ blocks.filter (!used ·))
    (hroom : f + sizeOfBlockNode + sizeOfBlockNode ≤ aOffset)
    (hsize : (aOffset - (f + sizeOfBlockNode) + roundUp n + sizeOfBlockNode) % 2 ^ 64 ≤ h.size f)
    (haligned : aOffset % alignment = h.aligmentHead % alignment) (hin : aOffset < h.maxSize) :
    ∃ (who : ℕ) (h₁ h₂ : Heap) (blocks' : List ℕ) (used' : ℕ → Bool),
      h.splitAt f aOffset =
        ((aOffset - sizeOfBlockNode, some f), h₁.more sizeOfBlockNode) ∧
      h₁.size (aOffset - sizeOfBlockNode) ≤ h₁.freeBytesRemaining ∧
      (h₁.mEraseNodeFromFreeList (aOffset - sizeOfBlockNode, some f)).mSplitBlockAndUpdateList
        (aOffset - sizeOfBlockNode, some f) (roundUp n) false = .ok (who, h₂) ∧
      Taken h (h₂.mAllocate who true) blocks used n who blocks' used' := by
  have hbound := ht.bound
  have hround := roundUp_lt n
  have hdvd := (roundUp_dvd hn).1
  have hsixteen : sizeOfBlockNode = 16 := rfl
  unfold alignment at hround hdvd haligned
  have hmod : (aOffset - (f + sizeOfBlockNode) + roundUp n + sizeOfBlockNode) % 2 ^ 64 =
      aOffset - (f + sizeOfBlockNode) + roundUp n + sizeOfBlockNode :=
    Nat.mod_eq_of_lt (by omega)
  rw [hmod] at hsize
  obtain ⟨hmem, hfree⟩ := List.mem_filter.1 hf
  rw [Bool.not_eq_true'] at hfree
  have hposition := ht.position f hmem
  unfold alignment at hposition
  have hplace : alignment ∣ aOffset - f := by
    unfold alignment
    omega
  obtain ⟨A, B, rfl⟩ := List.append_of_mem hmem
  obtain ⟨h₁, hsplit, ht₁, hnew, hsize₁, hnode₁, hmax₁, hfirst₁⟩ :=
    ht.splitAt hfree hroom (by omega) hplace
  generalize aOffset - sizeOfBlockNode = m at *
  rw [List.mem_append, List.mem_cons, not_or, not_or] at hnew
  obtain ⟨hmA, hmf, hmB⟩ := hnew
  have hfree' : Function.update used m false f = false := by
    rw [Function.update_of_ne (Ne.symm hmf), hfree]
  have hfilter : (A ++ f :: m :: B).filter (!Function.update used m false ·) =
      A.filter (!used ·) ++ [f] ++ m :: B.filter (!used ·) := by
    rw [filter_middle hfree', List.filter_cons, Function.update_self,
      filter_update_of_not_mem hmA, filter_update_of_not_mem hmB, ← List.append_cons]
    rfl
  have hchosen : h₁.Chosen (A ++ f :: m :: B) (Function.update used m false) (roundUp n)
      (m, some f) := by
    refine ⟨A.filter (!used ·) ++ [f], B.filter (!used ·), hfilter, ?_, ?_⟩
    · rw [List.getLast?_concat]
    · dsimp only
      omega
  have hle : h₁.size m ≤ h₁.freeBytesRemaining := by
    refine ht₁.size_le ?_
    rw [hfilter]
    exact List.mem_append_right _ List.mem_cons_self
  have hapart₁ : Apart (A ++ f :: m :: B)
      (Function.update (Function.update used m false) m true) := by
    rw [Function.update_idem]
    exact hapart.behind hmA hmf hmB
  obtain ⟨who, h₂, blocks', used', hcut, htaken⟩ := ht₁.takeChosen hn hchosen hapart₁ false
  have hused : (A ++ f :: m :: B).filter (Function.update used m false) =
      (A ++ f :: B).filter used := by
    have hcongr : ∀ b, b ≠ m → Function.update used m false b = used b := fun b hb =>
      Function.update_of_ne hb _ _
    rw [List.filter_append, List.filter_append, List.filter_cons, List.filter_cons,
      List.filter_cons, hcongr f (Ne.symm hmf), Function.update_self, hfree,
      List.filter_congr fun b hb => hcongr b (ne_of_mem_of_not_mem hb hmA),
      List.filter_congr fun b hb => hcongr b (ne_of_mem_of_not_mem hb hmB)]
    rfl
  refine ⟨who, h₁, h₂, blocks', used', hsplit, hle, hcut, htaken.tiled, htaken.apart, ?_,
    htaken.size, ?_, htaken.maxSize.trans hmax₁, htaken.first.trans hfirst₁⟩
  · rw [← hused]
    exact htaken.perm
  · intro b hb
    have hbf : b ≠ f := by
      rintro rfl
      rw [(List.mem_filter.1 hb).2] at hfree
      cases hfree
    have hbm : b ≠ m := by
      rintro rfl
      have hmem' := List.mem_of_mem_filter hb
      rw [List.mem_append, List.mem_cons] at hmem'
      exact hmem'.elim hmA fun hmem' => hmem'.elim hmf hmB
    rw [htaken.node b (by rw [hused]; exact hb)]
    exact hnode₁ b hbf hbm

/-- `MMallocBlock` takes one block, or does nothing; where a free block has room, one at the
begin is found. -/
theorem Tiled.malloc (ht : Tiled h blocks used) (hapart : Apart blocks used) {aOffset k : ℕ}
    {aFromEnd : Bool} (hpos : 0 < n) (hn : n < 2 ^ 63) (hend : aFromEnd = true → aOffset = 0)
    (hunbroken : (h.more k).Unbroken n aFromEnd aOffset) :
    ((h.more k).mMallocBlock n aFromEnd aOffset = .ok (none, h.more k) ∧
        (aFromEnd = false → aOffset = 0 → ∀ a ∈ blocks.filter (!used ·), h.size a < n)) ∨
      ∃ (who : ℕ) (h' : Heap) (k' : ℕ) (blocks' : List ℕ) (used' : ℕ → Bool),
        (h.more k).mMallocBlock n aFromEnd aOffset =
          .ok (some (who + sizeOfBlockNode), h'.more k') ∧
        Taken h h' blocks used n who blocks' used' ∧
        (aOffset ≠ 0 → who + sizeOfBlockNode = aOffset) := by
  by_cases hcount : (h.more k).freeBytesRemaining < roundUp n
  · refine Or.inl ⟨mMallocBlock_none (Or.inl hcount), fun _ _ a ha => ?_⟩
    have hle := ht.size_le ha
    have hlt : h.freeBytesRemaining + k < roundUp n := hcount
    exact ht.size_lt (List.mem_of_mem_filter ha) (by omega)
  by_cases hfits : aFromEnd = false → aOffset ≠ 0 → h.FitsAt aOffset (roundUp n)
  · obtain ⟨nodes, hnodes, hchosen⟩ := ht.getFreeBlock hfits
    have hmore : (h.more k).getFreeBlock (roundUp n) aFromEnd aOffset =
        .ok (nodes, h.more k) := by
      rw [getFreeBlock_more, hnodes]
      rfl
    cases nodes with
    | none =>
      refine Or.inl ⟨mMallocBlock_none (Or.inr hmore), fun hbegin hzero a ha => ?_⟩
      subst hbegin hzero
      unfold Heap.getFreeBlock Heap.mGetFreeBlockFromBegin at hnodes
      rw [ht.freeNodes_eq] at hnodes
      have hfit : h.firstFit (roundUp n) none (blocks.filter (!used ·)) = none :=
        congrArg Prod.fst (Except.ok.inj hnodes)
      exact ht.size_lt (List.mem_of_mem_filter ha) (firstFit_none hfit a ha)
    | some nodes =>
      have hchosen := hchosen nodes rfl
      have hupdate : Apart blocks (Function.update used nodes.1 true) := by
        obtain ⟨A, B, rfl, -⟩ := hchosen.parts ht
        exact hapart.update ht.nodup
      have hle : h.size nodes.1 ≤ h.freeBytesRemaining := by
        refine ht.size_le ?_
        obtain ⟨l₁, l₂, hl, -⟩ := hchosen
        rw [hl]
        exact List.mem_append_right l₁ List.mem_cons_self
      obtain ⟨who, h', blocks', used', hsplit, htaken⟩ :=
        ht.takeChosen hn hchosen hupdate aFromEnd
      refine Or.inr ⟨who, _, k, blocks', used', mMallocBlock_some hpos hcount hmore hle hsplit,
        htaken, fun hzero => ?_⟩
      cases aFromEnd with
      | true => exact absurd (hend rfl) hzero
      | false =>
        rw [who_mSplitBlockAndUpdateList hsplit]
        exact getFreeBlock_offset hzero hnodes
  · push Not at hfits
    obtain ⟨hbegin, hzero, hfits⟩ := hfits
    have hplace := ((hunbroken hpos hbegin hzero).resolve_left hcount).resolve_left
      fun h => hfits ((fitsAt_more k aOffset).1 h)
    subst hbegin
    obtain ⟨f, hf, -, hroom, hsize, hchoice⟩ := splitAt_of_not_fitsAt ht hzero hfits
    obtain ⟨who, h₁, h₂, blocks', used', hsplit, hle, hcut, htaken⟩ :=
      ht.takeSplit hapart hn hf hroom hsize hplace.1 hplace.2
    have hmore : (h.more k).getFreeBlock (roundUp n) false aOffset =
        .ok (some (aOffset - sizeOfBlockNode, some f), h₁.more (sizeOfBlockNode + k)) := by
      rw [getFreeBlock_more, hchoice, hsplit, ← more_more]
      rfl
    refine Or.inr ⟨who, _, _, blocks', used', mMallocBlock_some hpos hcount hmore hle hcut,
      htaken, fun _ => ?_⟩
    rw [who_mSplitBlockAndUpdateList hcut]
    omega

theorem isSome_mMallocBlock {p : Option ℕ} {aOffset : ℕ} {aFromEnd : Bool} {nodes : NodesBlock}
    {h₁ : Heap} (hpos : 0 < n) (hcount : ¬ h.freeBytesRemaining < roundUp n)
    (hchoice : h.getFreeBlock (roundUp n) aFromEnd aOffset = .ok (some nodes, h₁))
    (heq : h.mMallocBlock n aFromEnd aOffset = .ok (p, h')) : ∃ q, p = some q := by
  unfold mMallocBlock at heq
  rw [if_neg (Nat.ne_of_gt hpos)] at heq
  dsimp only at heq
  rw [if_neg hcount, hchoice] at heq
  obtain ⟨x, hx, heq⟩ := eq_ok_of_bind heq
  cases hx
  obtain ⟨y, -, heq⟩ := eq_ok_of_bind heq
  cases heq
  exact ⟨_, rfl⟩

end Heap

namespace HeapState

variable {s : HeapState}

/-- What is promised of the result of `MMallocBlock`. -/
def Promised (s : HeapState) (xWantedSize : ℕ) (aFromEnd : Bool) (aOffset : ℕ) :
    Option ℕ × Heap → Prop
  | (some p, h') => Heap.Served s.heap h' s.allocated xWantedSize aOffset p
  | (none, _) => aFromEnd = false → aOffset = 0 →
    ∃ l, s.heap.freeNodes = .ok l ∧ ∀ a ∈ l, s.heap.size a < xWantedSize

def Contract (s : HeapState) (st : HeapStep) (_ : HeapState) : Prop :=
  match st with
  | .malloc xWantedSize aFromEnd aOffset => 0 < xWantedSize →
    ∀ r, s.heap.mMallocBlock xWantedSize aFromEnd aOffset = .ok r →
      Promised s xWantedSize aFromEnd aOffset r
  | .free _ => True

/-- Blocks are taken from the begin, from the end or at an offset. -/
def Requests (s : HeapState) : HeapStep → Prop
  | .malloc xWantedSize aFromEnd aOffset =>
    xWantedSize < 2 ^ 63 ∧ (aFromEnd = true → aOffset = 0)
  | .free aP => aP ∈ s.allocated

def Unbroken (s : HeapState) : HeapStep → Prop
  | .malloc xWantedSize aFromEnd aOffset => s.heap.Unbroken xWantedSize aFromEnd aOffset
  | .free _ => True

instance (s : HeapState) : (st : HeapStep) → Decidable (Requests s st)
  | .malloc _ _ _ => inferInstanceAs (Decidable (_ ∧ (_ → _)))
  | .free _ => inferInstanceAs (Decidable (_ ∈ _))

instance (s : HeapState) : (st : HeapStep) → Decidable (Unbroken s st)
  | .malloc n aFromEnd aOffset => inferInstanceAs (Decidable (s.heap.Unbroken n aFromEnd aOffset))
  | .free _ => isTrue trivial

/-- The state of the heap, up to the count of its free bytes. -/
def Laid (s : HeapState) : Prop :=
  ∃ (h : Heap) (k : ℕ) (blocks : List ℕ) (used : ℕ → Bool),
    s.heap = h.more k ∧ Inv ⟨h, s.allocated⟩ blocks used

theorem heapStep_malloc {n aOffset : ℕ} {aFromEnd : Bool} {p : Option ℕ} {h' : Heap}
    (heq : s.heap.mMallocBlock n aFromEnd aOffset = .ok (p, h')) :
    heapStep (.malloc n aFromEnd aOffset) s = .ok ⟨h', p.toList ++ s.allocated⟩ := by
  unfold heapStep
  dsimp only
  rw [heq]
  rfl

theorem contract_step (hlaid : s.Laid) {st : HeapStep} (hrequests : Requests s st)
    (hunbroken : Unbroken s st) : ∃ s', heapStep st s = .ok s' ∧ s'.Laid ∧ Contract s st s' := by
  obtain ⟨heap, allocated⟩ := s
  obtain ⟨h, k, blocks, used, rfl, hinv⟩ := hlaid
  cases st with
  | free aP =>
    obtain ⟨s', blocks', used', hstep, hinv'⟩ := inv_free hinv hrequests
    obtain ⟨h', hfree, hs'⟩ := eq_ok_of_bind hstep
    cases hs'
    refine ⟨⟨h'.more k, allocated.erase aP⟩, ?_, ⟨h', k, blocks', used', rfl, hinv'⟩, trivial⟩
    change (do
      let heap ← (h.more k).mFreeBlock aP
      return ⟨heap, allocated.erase aP⟩ : Except Fault HeapState) = _
    rw [Heap.mFreeBlock_more, hfree]
    rfl
  | malloc n aFromEnd aOffset =>
    have hcontract : ∀ r, (h.more k).mMallocBlock n aFromEnd aOffset = .ok r →
        (0 < n → Promised ⟨h.more k, allocated⟩ n aFromEnd aOffset r) →
        Contract ⟨h.more k, allocated⟩ (.malloc n aFromEnd aOffset)
          ⟨r.2, r.1.toList ++ allocated⟩ := by
      intro r hr hpromised hpos r' hr'
      cases hr.symm.trans hr'
      exact hpromised hpos
    rcases Nat.eq_zero_or_pos n with rfl | hpos
    · have hnone : (h.more k).mMallocBlock 0 aFromEnd aOffset = .ok (none, h.more k) := rfl
      exact ⟨_, heapStep_malloc hnone, ⟨h, k, blocks, used, rfl, hinv⟩,
        hcontract _ hnone fun hpos => absurd hpos (Nat.lt_irrefl 0)⟩
    · rcases hinv.tiled.malloc hinv.apart hpos hrequests.1 hrequests.2 hunbroken with
        ⟨hnone, hsmall⟩ | ⟨who, h', k', blocks', used', hsome, htaken, hoffset⟩
      · refine ⟨_, heapStep_malloc hnone, ⟨h, k, blocks, used, rfl, hinv⟩,
          hcontract _ hnone fun _ hbegin hzero => ?_⟩
        exact ⟨_, (Heap.freeNodes_more k).trans hinv.tiled.freeNodes_eq, hsmall hbegin hzero⟩
      · refine ⟨_, heapStep_malloc hsome, ⟨h', k', blocks', used', rfl, htaken.tiled,
          htaken.apart, ?_⟩, hcontract _ hsome fun _ => ?_⟩
        · have hperm := htaken.perm.map (· + sizeOfBlockNode)
          rw [List.map_cons] at hperm
          exact hperm.trans (hinv.perm.cons _)
        · exact htaken.served hinv.tiled hinv.apart hinv.perm hoffset k k'

theorem unbroken_of_contract (hlaid : s.Laid) {st : HeapStep} {s' : HeapState}
    (hstep : heapStep st s = .ok s') (hcontract : Contract s st s') : Unbroken s st := by
  obtain ⟨heap, allocated⟩ := s
  obtain ⟨h, k, blocks, used, rfl, hinv⟩ := hlaid
  cases st with
  | free aP => trivial
  | malloc n aFromEnd aOffset =>
    intro hpos hbegin hzero
    subst hbegin
    by_cases hcount : (h.more k).freeBytesRemaining < Heap.roundUp n
    · exact Or.inl hcount
    by_cases hfits : h.FitsAt aOffset (Heap.roundUp n)
    · exact Or.inr (Or.inl ((Heap.fitsAt_more k aOffset).2 hfits))
    -- a free block is split, so that there is a result, and the contract places it
    obtain ⟨f, -, -, -, -, hchoice⟩ := Heap.splitAt_of_not_fitsAt hinv.tiled hzero hfits
    have hmore : (h.more k).getFreeBlock (Heap.roundUp n) false aOffset =
        .ok (some (h.splitAt f aOffset).1, (h.splitAt f aOffset).2.more k) := by
      rw [Heap.getFreeBlock_more, hchoice]
      rfl
    obtain ⟨⟨p, h'⟩, hmalloc, -⟩ := eq_ok_of_bind hstep
    obtain ⟨q, rfl⟩ := Heap.isSome_mMallocBlock hpos hcount hmore hmalloc
    have hserved : Heap.Served (h.more k) h' allocated n aOffset q := hcontract hpos _ hmalloc
    obtain rfl := hserved.offset hzero
    refine Or.inr (Or.inr ⟨hserved.aligned, ?_⟩)
    have hinside := hserved.inside
    have hsize := hserved.size
    change q < (h.more k).maxSize
    omega

/-- Every allocation of a run keeps what is promised of it just when none splits a free block at an
offset that is not aligned, or that is outside of the heap. -/
theorem contract_iff {aSize aligmentHead : ℕ} (hfresh : Fresh aSize aligmentHead)
    (haligned : alignment ∣ aSize - sizeOfHeapHead - sizeOfBlockNode - aligmentHead)
    {steps : List HeapStep}
    (hrequests : EveryStep heapStep Requests steps (create aSize aligmentHead)) :
    Traced heapStep Contract steps (create aSize aligmentHead) ↔
      EveryStep heapStep Unbroken steps (create aSize aligmentHead) := by
  have hlaid : (create aSize aligmentHead).Laid :=
    ⟨_, 0, _, _, (Heap.more_zero).symm, inv_create hfresh haligned⟩
  exact traced_iff_among (I := Laid) (fun s st hs hq hp => contract_step hs hq hp)
    (fun s st s' hs _ hstep hc => unbroken_of_contract hs hstep hc) hlaid hrequests

/-- Blocks from both ends, at the place of a free one, and in the middle of one. -/
def someRequests : List HeapStep :=
  [.malloc 280 true 0, .malloc 100 false 0, .malloc 64 false 0, .free 168, .malloc 40 false 168,
    .malloc 24 false 800, .free 288, .malloc 500 false 0, .free 168]

theorem contract_iff_someRequests :
    Fresh 2048 0 ∧ Traced heapStep Contract someRequests (create 2048 0) := by
  have hfresh : Fresh 2048 0 := ⟨by decide, by decide⟩
  exact ⟨hfresh, (contract_iff hfresh (by decide) (by decide +kernel)).2 (by decide +kernel)⟩

/-- A block at an offset that is not aligned. -/
theorem contract_false_of_offset :
    Fresh 1192 0 ∧ EveryStep heapStep Requests [.malloc 64 false 233] (create 1192 0) ∧
      ¬ Traced heapStep Contract [.malloc 64 false 233] (create 1192 0) := by
  refine ⟨⟨by decide, by decide⟩, by decide +kernel, ?_⟩
  rintro ⟨s', -, hcontract, -⟩
  obtain ⟨h', hmalloc⟩ : ∃ h', (create 1192 0).heap.mMallocBlock 64 false 233 =
      .ok (some 233, h') := ⟨_, rfl⟩
  have haligned := (hcontract (by decide) _ hmalloc).aligned
  exact absurd haligned (by decide)

end HeapState

end UdtKernel.SharedAllocator
