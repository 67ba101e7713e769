import UdtKernel.SharedAllocator.Insert

set_option autoImplicit false

/-! Blocks are taken from the heap, and are given back to it. -/

namespace UdtKernel.SharedAllocator
open UdtKernel.Lib

namespace Heap

variable {h h' : Heap} {blocks A B : List ℕ} {used : ℕ → Bool} {a : ℕ}

theorem firstFit_eq {n : ℕ} {prev p : Option ℕ} {l : List ℕ}
    (hfit : h.firstFit n prev l = some (a, p)) :
    ∃ l₁ l₂, l = l₁ ++ a :: l₂ ∧ p = l₁.getLast?.or prev ∧ n ≤ h.size a := by
  induction l generalizing prev with
  | nil => cases hfit
  | cons b l ih =>
    unfold firstFit at hfit
    split_ifs at hfit with hb
    · obtain ⟨l₁, l₂, rfl, rfl, hn⟩ := ih hfit
      refine ⟨b :: l₁, l₂, rfl, ?_, hn⟩
      rw [List.getLast?_cons]
      cases l₁.getLast? <;> rfl
    · cases hfit
      exact ⟨[], l, rfl, rfl, Nat.not_lt.1 hb⟩

theorem lastFit_eq {n : ℕ} {prev p : Option ℕ} {l : List ℕ} {result : Option NodesBlock}
    (hfit : h.lastFit n prev l result = some (a, p)) :
    result = some (a, p) ∨
      ∃ l₁ l₂, l = l₁ ++ a :: l₂ ∧ p = l₁.getLast?.or prev ∧ n ≤ h.size a := by
  induction l generalizing prev result with
  | nil => exact Or.inl hfit
  | cons b l ih =>
    unfold lastFit at hfit
    rcases ih hfit with hresult | ⟨l₁, l₂, rfl, rfl, hn⟩
    · split_ifs at hresult with hb
      · cases hresult
        exact Or.inr ⟨[], l, rfl, rfl, Nat.le_of_lt hb⟩
      · exact Or.inl hresult
    · refine Or.inr ⟨b :: l₁, l₂, rfl, ?_, hn⟩
      rw [List.getLast?_cons]
      cases l₁.getLast? <;> rfl

theorem foldl_lastBefore {aOffset : ℕ} {l : List ℕ} (hl : l.Pairwise (· < ·))
    {nodes : Option ℕ × Option ℕ} {p : Option ℕ}
    (hfold : l.foldl (fun nodes b => if b < aOffset then (some b, nodes.1) else nodes) nodes =
      (some a, p)) :
    nodes = (some a, p) ∨
      a < aOffset ∧ ∃ l₁ l₂, l = l₁ ++ a :: l₂ ∧ p = l₁.getLast?.or nodes.1 := by
  induction l generalizing nodes with
  | nil => exact Or.inl hfold
  | cons b l ih =>
    rw [List.foldl_cons] at hfold
    rw [List.pairwise_cons] at hl
    split_ifs at hfold with hb
    · rcases ih hl.2 hfold with hnodes | ⟨ha, l₁, l₂, rfl, rfl⟩
      · cases hnodes
        exact Or.inr ⟨hb, [], l, rfl, rfl⟩
      · refine Or.inr ⟨ha, b :: l₁, l₂, rfl, ?_⟩
        rw [List.getLast?_cons]
        cases l₁.getLast? <;> rfl
    · rcases ih hl.2 hfold with hnodes | ⟨ha, l₁, l₂, rfl, rfl⟩
      · exact Or.inl hnodes
      · have hba := hl.1 a (by simp)
        omega

/-- The free block that an offset is to be taken from begins there, or it is too small. -/
def FitsAt (h : Heap) (aOffset _alligment_size : ℕ) : Prop :=
  ∀ l ∈ h.freeNodes.toOption, ∀ f ∈ (lastBefore aOffset l).1,
    f + sizeOfBlockNode = aOffset ∨ aOffset < f + sizeOfBlockNode + sizeOfBlockNode ∨
      h.size f < (aOffset - (f + sizeOfBlockNode) + _alligment_size + sizeOfBlockNode) % 2 ^ 64

instance (h : Heap) (aOffset n : ℕ) : Decidable (h.FitsAt aOffset n) :=
  inferInstanceAs (Decidable (∀ l ∈ h.freeNodes.toOption, ∀ f ∈ (lastBefore aOffset l).1, _))

/-- A free block of the list, and the one before it. -/
def Chosen (h : Heap) (blocks : List ℕ) (used : ℕ → Bool) (n : ℕ) (nodes : NodesBlock) : Prop :=
  ∃ l₁ l₂, blocks.filter (!used ·) = l₁ ++ nodes.1 :: l₂ ∧ nodes.2 = l₁.getLast? ∧
    n ≤ h.size nodes.1

theorem Tiled.mGetFreeBlockFromEnd (ht : Tiled h blocks used) (n : ℕ) :
    ∃ nodes, h.mGetFreeBlockFromEnd n = .ok nodes ∧ ∀ x ∈ nodes, h.Chosen blocks used n x := by
  unfold Heap.mGetFreeBlockFromEnd
  rw [ht.freeNodes_eq]
  refine ⟨_, rfl, ?_⟩
  rintro ⟨a, p⟩ hx
  rcases lastFit_eq hx with hnone | ⟨l₁, l₂, hl, hp, hn⟩
  · cases hnone
  · exact ⟨l₁, l₂, hl, by rw [hp, Option.or_none], hn⟩

theorem Tiled.mGetFreeBlockFromBegin (ht : Tiled h blocks used) {n aOffset : ℕ}
    (hfits : aOffset ≠ 0 → h.FitsAt aOffset n) :
    ∃ nodes, h.mGetFreeBlockFromBegin aOffset n = .ok (nodes, h) ∧
      ∀ x ∈ nodes, h.Chosen blocks used n x := by
  have hnone : ∀ x ∈ (none : Option NodesBlock), h.Chosen blocks used n x := by
    intro x hx
    cases hx
  unfold FitsAt at hfits
  unfold Heap.mGetFreeBlockFromBegin
  rw [ht.freeNodes_eq] at hfits ⊢
  change ∃ nodes, (if aOffset = 0 then _ else _) = Except.ok (nodes, h) ∧ _
  by_cases hzero : aOffset = 0
  · rw [if_pos hzero]
    refine ⟨_, rfl, ?_⟩
    rintro ⟨a, p⟩ hx
    obtain ⟨l₁, l₂, hl, hp, hn⟩ := firstFit_eq hx
    exact ⟨l₁, l₂, hl, by rw [hp, Option.or_none], hn⟩
  · rw [if_neg hzero]
    have hsorted := ht.lt.filter (!used ·)
    cases hbefore : lastBefore aOffset (blocks.filter (!used ·)) with
    | mk first second =>
      cases first with
      | none => exact ⟨none, rfl, hnone⟩
      | some f =>
        have hfold := hbefore
        unfold lastBefore at hfold
        have hf := hfits hzero _ rfl f (by rw [hbefore]; rfl)
        dsimp only
        by_cases hhere : f + sizeOfBlockNode = aOffset
        · rw [if_pos hhere]
          by_cases hsize : h.size f < n
          · rw [if_pos hsize]
            exact ⟨none, rfl, hnone⟩
          · rw [if_neg hsize]
            refine ⟨_, rfl, ?_⟩
            rintro x hx
            cases hx
            rcases foldl_lastBefore hsorted hfold with hnodes | ⟨-, l₁, l₂, hl, hp⟩
            · cases hnodes
            · exact ⟨l₁, l₂, hl, by rw [hp, Option.or_none], Nat.not_lt.1 hsize⟩
        · rw [if_neg hhere]
          by_cases hnear : aOffset < f + sizeOfBlockNode + sizeOfBlockNode
          · rw [if_pos hnear]
            exact ⟨none, rfl, hnone⟩
          · rw [if_neg hnear, if_pos ((hf.resolve_left hhere).resolve_left hnear)]
            exact ⟨none, rfl, hnone⟩

/-- No block begins inside of another one. -/
theorem Tiled.not_inside (ht : Tiled h (A ++ a :: B) used) {m : ℕ} (ham : a < m)
    (hend : m < h.endOf a) : (∀ c ∈ A ++ B, c ≠ a ∧ c ≠ m) ∧ m ∉ A ++ a :: B := by
  have hsorted := ht.sorted
  have hlt := ht.lt
  rw [List.pairwise_append, List.pairwise_cons] at hsorted hlt
  have hothers : ∀ c ∈ A ++ B, c ≠ a ∧ c ≠ m := by
    intro c hc
    rcases List.mem_append.1 hc with hc | hc
    · have hca := hlt.2.2 c hc a List.mem_cons_self
      omega
    · have hca := hsorted.2.1.1 c hc
      omega
  refine ⟨hothers, fun hmem => ?_⟩
  rcases List.mem_append.1 hmem with hc | hc
  · exact (hothers m (List.mem_append_left B hc)).2 rfl
  · rcases List.mem_cons.1 hc with hc | hc
    · exact Nat.ne_of_gt ham hc
    · exact (hothers m (List.mem_append_right A hc)).2 rfl

/-- A block that is used becomes two. -/
theorem Tiled.split (ht : Tiled h (A ++ a :: B) used) (ha : used a = true) (h' : Heap)
    (s₁ s₂ : ℕ) (hs : h.size a = s₁ + sizeOfBlockNode + s₂)
    (h₁ : alignment ∣ s₁) (h₂ : alignment ∣ s₂)
    (hsize₁ : h'.size a = s₁) (hsize₂ : h'.size (a + sizeOfBlockNode + s₁) = s₂)
    (hnode : ∀ c, c ≠ a → c ≠ a + sizeOfBlockNode + s₁ → h'.node c = h.node c)
    (hmax : h'.maxSize = h.maxSize) (hfirst : h'.first = h.first)
    (hfirstNode : h'.firstNode = h.firstNode)
    (hremaining : h'.freeBytesRemaining = h.freeBytesRemaining) :
    Tiled h' (A ++ a :: (a + sizeOfBlockNode + s₁) :: B)
        (Function.update used (a + sizeOfBlockNode + s₁) true) ∧
      a + sizeOfBlockNode + s₁ ∉ A ++ a :: B := by
  have hpos : 0 < sizeOfBlockNode := by decide
  have hlt : a < a + sizeOfBlockNode + s₁ := by omega
  have hend : a + sizeOfBlockNode + s₁ < h.endOf a := by
    unfold endOf
    omega
  obtain ⟨hothers, hnew⟩ := ht.not_inside hlt hend
  have hkept : ∀ c ∈ A ++ B, h'.node c = h.node c := fun c hc =>
    hnode c (hothers c hc).1 (hothers c hc).2
  have hsize : ∀ c ∈ A ++ B, h'.size c = h.size c := fun c hc =>
    congrArg BlockNode.blockSize (hkept c hc)
  have hfilter : (A ++ a :: (a + sizeOfBlockNode + s₁) :: B).filter
      (!Function.update used (a + sizeOfBlockNode + s₁) true ·) = (A ++ B).filter (!used ·) := by
    have hnew := hnew
    rw [List.mem_append, List.mem_cons, not_or, not_or] at hnew
    have ha' : Function.update used (a + sizeOfBlockNode + s₁) true a = true := by
      rw [Function.update_of_ne (Nat.ne_of_lt hlt), ha]
    rw [filter_middle_used ha', List.filter_cons, Function.update_self,
      filter_update_of_not_mem hnew.1, filter_update_of_not_mem hnew.2.2, List.filter_append]
    rfl
  have hold : (A ++ a :: B).filter (!used ·) = (A ++ B).filter (!used ·) := by
    rw [filter_middle_used ha, List.filter_append]
  refine ⟨⟨?_, ?_, ?_, ?_, ?_⟩, hnew⟩
  · rw [hmax]
    exact ht.bound
  · rw [hmax, hfirst]
    exact tiles_split ht.tiles hs hsize₁ hsize₂ hsize
  · have hlinked := ht.linked
    rw [hold] at hlinked
    rw [hfilter, hfirstNode]
    exact hlinked.congr fun c hc =>
      congrArg BlockNode.nextNode (hkept c (List.mem_of_mem_filter hc))
  · intro c hc
    rcases List.mem_append.1 hc with hc | hc
    · rw [hsize c (List.mem_append_left B hc)]
      exact ht.aligned c (List.mem_append_left _ hc)
    · rcases List.mem_cons.1 hc with rfl | hc
      · rw [hsize₁]
        exact h₁
      · rcases List.mem_cons.1 hc with rfl | hc
        · rw [hsize₂]
          exact h₂
        · rw [hsize c (List.mem_append_right A hc)]
          exact ht.aligned c (by simp [hc])
  · rw [hfilter, hremaining, ht.remaining, hold]
    exact congrArg List.sum (List.map_congr_left fun c hc =>
      (hsize c (List.mem_of_mem_filter hc)).symm)

theorem filter_update_used {m : ℕ} (hm : m ∉ A) :
    A.filter (Function.update used m true) = A.filter used :=
  List.filter_congr fun _ hb => Function.update_of_ne (ne_of_mem_of_not_mem hb hm) _ _

theorem Apart.split {m : ℕ} (hapart : Apart (A ++ a :: B) used) (ha : used a = true)
    (hm : m ∉ A ++ a :: B) : Apart (A ++ a :: m :: B) (Function.update used m true) := by
  rw [List.mem_append, List.mem_cons, not_or, not_or] at hm
  obtain ⟨hmA, hma, hmB⟩ := hm
  obtain ⟨hA, hB, -, -⟩ := apart_middle.1 hapart
  have hB' : Apart B (Function.update used m true) :=
    apart_congr hB fun b hb => Function.update_of_ne (ne_of_mem_of_not_mem hb hmB) _ _
  have ha' : Function.update used m true a = true := by
    rw [Function.update_of_ne (Ne.symm hma), ha]
  refine apart_middle.2 ⟨?_, ?_, fun s _ => Or.inr ha', fun n _ => Or.inl ha'⟩
  · exact apart_congr hA fun b hb => Function.update_of_ne (ne_of_mem_of_not_mem hb hmA) _ _
  · unfold Apart at hB' ⊢
    rw [List.isChain_cons]
    exact ⟨fun y _ => Or.inl (Function.update_self _ _ _), hB'⟩

/-- What the allocation of a block makes of the heap. -/
structure Taken (h h' : Heap) (blocks : List ℕ) (used : ℕ → Bool) (n who : ℕ) (blocks' : List ℕ)
    (used' : ℕ → Bool) : Prop where
  tiled : Tiled h' blocks' used'
  apart : Apart blocks' used'
  perm : (blocks'.filter used').Perm (who :: blocks.filter used)
  size : n ≤ h'.size who
  node : ∀ b ∈ blocks.filter used, h'.node b = h.node b
  maxSize : h'.maxSize = h.maxSize
  first : h'.first = h.first

/-- A used block has become two, of `s₁` and of `s₂` bytes. -/
structure Halved (h h' : Heap) (A B : List ℕ) (a m : ℕ) (used : ℕ → Bool) (s₁ s₂ : ℕ) :
    Prop where
  tiled : Tiled h' (A ++ a :: m :: B) (Function.update used m true)
  apart : Apart (A ++ a :: m :: B) (Function.update used m true)
  notMem : m ∉ A ++ a :: B
  used_eq : Function.update used m true a = true
  size_first : h'.size a = s₁
  size_second : h'.size m = s₂
  node : ∀ c, c ≠ a → c ≠ m → h'.node c = h.node c
  maxSize : h'.maxSize = h.maxSize
  first : h'.first = h.first

theorem Tiled.halved (ht : Tiled h (A ++ a :: B) used) (hapart : Apart (A ++ a :: B) used)
    (ha : used a = true) {h' : Heap} {m s₁ s₂ : ℕ} (hm : a + sizeOfBlockNode + s₁ = m)
    (hs : h.size a = s₁ + sizeOfBlockNode + s₂) (h₁ : alignment ∣ s₁) (h₂ : alignment ∣ s₂)
    (hsize₁ : h'.size a = s₁) (hsize₂ : h'.size m = s₂)
    (hnode : ∀ c, c ≠ a → c ≠ m → h'.node c = h.node c) (hmax : h'.maxSize = h.maxSize)
    (hfirst : h'.first = h.first) (hfirstNode : h'.firstNode = h.firstNode)
    (hremaining : h'.freeBytesRemaining = h.freeBytesRemaining) :
    Halved h h' A B a m used s₁ s₂ := by
  subst hm
  obtain ⟨htiled, hnew⟩ := ht.split ha h' s₁ s₂ hs h₁ h₂ hsize₁ hsize₂ hnode hmax hfirst
    hfirstNode hremaining
  have hne : a ≠ a + sizeOfBlockNode + s₁ := fun heq => hnew (by simp [← heq])
  exact ⟨htiled, hapart.split ha hnew, hnew, by rw [Function.update_of_ne hne, ha], hsize₁, hsize₂,
    hnode, hmax, hfirst⟩

section
variable {h₂ : Heap} {m s₁ s₂ : ℕ} {prev : Option ℕ}

theorem Halved.notMem_parts (hh : Halved h h₂ A B a m used s₁ s₂) : m ∉ A ∧ m ≠ a ∧ m ∉ B := by
  have hnew := hh.notMem
  rw [List.mem_append, List.mem_cons, not_or, not_or] at hnew
  exact hnew

/-- The other used blocks are neither of the two. -/
theorem Halved.other (hh : Halved h h₂ A B a m used s₁ s₂) (haAB : a ∉ A ++ B) {b : ℕ}
    (hb : b ∈ (A ++ B).filter used) :
    b ≠ a ∧ b ≠ m ∧ Function.update used m true b = true ∧ h₂.node b = h.node b := by
  obtain ⟨hmA, -, hmB⟩ := hh.notMem_parts
  obtain ⟨hmem, hb⟩ := List.mem_filter.1 hb
  have hba : b ≠ a := ne_of_mem_of_not_mem hmem haAB
  have hbm : b ≠ m := ne_of_mem_of_not_mem hmem (by
    rw [List.mem_append, not_or]
    exact ⟨hmA, hmB⟩)
  exact ⟨hba, hbm, by rw [Function.update_of_ne hbm, hb], hh.node b hba hbm⟩

/-- The first of the two is taken, and the second one is given back. -/
theorem Halved.takeFirst (hh : Halved h h₂ A B a m used s₁ s₂) (haAB : a ∉ A ++ B)
    (hprev : ∀ s ∈ prev, s ∈ A.filter (!used ·)) :
    ∃ h' blocks' used', h₂.mInsertIntoFreeList m prev = .ok h' ∧
      Taken h h' (A ++ B) used s₁ a blocks' used' := by
  obtain ⟨hmA, hma, hmB⟩ := hh.notMem_parts
  have htiled := hh.tiled
  have hapart := hh.apart
  rw [List.append_cons] at htiled hapart
  obtain ⟨h', blocks', hinsert, hins⟩ :=
    htiled.insert hapart (Function.update_self _ _ _) prev (by
      intro s hs
      rw [List.filter_append, filter_update_of_not_mem hmA]
      exact List.mem_append_left _ (hprev s hs))
  refine ⟨h', blocks', _, hinsert, hins.tiled, hins.apart, ?_, ?_, fun b hb => ?_,
    hins.maxSize.trans hh.maxSize, hins.first.trans hh.first⟩
  · rw [hins.used_eq, List.append_assoc, List.filter_append, List.singleton_append,
      List.filter_cons, hh.used_eq, if_pos rfl, List.filter_append, filter_update_used hmA,
      filter_update_used hmB]
    exact List.perm_middle
  · unfold size
    rw [hins.node a hh.used_eq hma.symm]
    exact Nat.le_of_eq hh.size_first.symm
  · obtain ⟨-, hbm, hused, hnode⟩ := hh.other haAB hb
    rw [hins.node b hused hbm, hnode]

/-- The second of the two is taken, and the first one is given back. -/
theorem Halved.takeSecond (hh : Halved h h₂ A B a m used s₁ s₂) (haAB : a ∉ A ++ B)
    (hprev : ∀ s ∈ prev, s ∈ A.filter (!used ·)) :
    ∃ h' blocks' used', h₂.mInsertIntoFreeList a prev = .ok h' ∧
      Taken h h' (A ++ B) used s₂ m blocks' used' := by
  obtain ⟨hmA, hma, hmB⟩ := hh.notMem_parts
  obtain ⟨h', blocks', hinsert, hins⟩ := hh.tiled.insert hh.apart hh.used_eq prev (by
    intro s hs
    rw [filter_update_of_not_mem hmA]
    exact hprev s hs)
  refine ⟨h', blocks', _, hinsert, hins.tiled, hins.apart, ?_, ?_, fun b hb => ?_,
    hins.maxSize.trans hh.maxSize, hins.first.trans hh.first⟩
  · rw [hins.used_eq, List.filter_append, List.filter_cons, Function.update_self, if_pos rfl,
      filter_update_used hmA, filter_update_used hmB, List.filter_append]
    exact List.perm_middle
  · unfold size
    rw [hins.node m (Function.update_self _ _ _) hma]
    exact Nat.le_of_eq hh.size_second.symm
  · obtain ⟨hba, -, hused, hnode⟩ := hh.other haAB hb
    rw [hins.node b hused hba, hnode]

end

theorem Tiled.mSplitBlockAndUpdateList (ht : Tiled h (A ++ a :: B) used)
    (hapart : Apart (A ++ a :: B) used) (ha : used a = true) {n : ℕ} (hn : alignment ∣ n)
    (hle : n ≤ h.size a) {prev : Option ℕ} (hprev : ∀ s ∈ prev, s ∈ A.filter (!used ·))
    (aFromEnd : Bool) :
    ∃ who h' blocks' used', h.mSplitBlockAndUpdateList (a, prev) n aFromEnd = .ok (who, h') ∧
      Taken h h' (A ++ B) used n who blocks' used' := by
  have haAB : a ∉ A ++ B := by
    rw [List.mem_append, not_or]
    exact ht.not_mem
  unfold Heap.mSplitBlockAndUpdateList mSplitInto2Block
  by_cases hlarge : n + 2 * sizeOfBlockNode < h.size a
  swap
  · rw [if_neg hlarge]
    refine ⟨a, h, A ++ a :: B, used, rfl, ht, hapart, ?_, hle, fun b _ => rfl, rfl, rfl⟩
    rw [List.filter_append, List.filter_cons, ha, if_pos rfl, List.filter_append]
    exact List.perm_middle
  rw [if_pos hlarge]
  have hsixteen : sizeOfBlockNode = 16 := rfl
  have hrest : alignment ∣ h.size a - n - sizeOfBlockNode :=
    Nat.dvd_sub (Nat.dvd_sub (ht.aligned a (by simp)) hn) (by decide)
  cases aFromEnd with
  | false =>
    dsimp only [Bool.false_eq_true, if_false]
    let m := a + n + sizeOfBlockNode
    have hma : m ≠ a := by omega
    let h₂ := ((h.setNode m BlockNode.new).mSetBlockSize m
      (h.size a - n - sizeOfBlockNode)).mSetBlockSize a n
    have hh : Halved h h₂ A B a m used n (h.size a - n - sizeOfBlockNode) :=
      ht.halved hapart ha (by omega) (by omega) hn hrest (size_mSetBlockSize_self a n)
        ((size_mSetBlockSize_of_ne hma n).trans (size_mSetBlockSize_self m _))
        (fun c hca hcm => (node_setNode_of_ne hca _).trans
          ((node_setNode_of_ne hcm _).trans (node_setNode_of_ne hcm _))) rfl rfl rfl rfl
    obtain ⟨h', blocks', used', hinsert, htaken⟩ := hh.takeFirst haAB hprev
    refine ⟨a, h', blocks', used', ?_, htaken⟩
    change (do
      let h ← h₂.mInsertIntoFreeList m prev
      pure (a, h) : Except Fault (ℕ × Heap)) = _
    rw [hinsert]
    rfl
  | true =>
    dsimp only [if_true]
    let m := a + h.size a - n
    have hma : m ≠ a := by omega
    let h₂ := ((h.setNode m BlockNode.new).mSetBlockSize a
      (h.size a - n - sizeOfBlockNode)).mSetBlockSize m n
    have hh : Halved h h₂ A B a m used (h.size a - n - sizeOfBlockNode) n :=
      ht.halved hapart ha (by omega) (by omega) hrest hn
        ((size_mSetBlockSize_of_ne hma.symm n).trans (size_mSetBlockSize_self a _))
        (size_mSetBlockSize_self m n)
        (fun c hca hcm => (node_setNode_of_ne hcm _).trans
          ((node_setNode_of_ne hca _).trans (node_setNode_of_ne hcm _))) rfl rfl rfl rfl
    obtain ⟨h', blocks', used', hinsert, htaken⟩ := hh.takeSecond haAB hprev
    refine ⟨m, h', blocks', used', ?_, htaken⟩
    change (do
      let h ← h₂.mInsertIntoFreeList a prev
      pure (m, h) : Except Fault (ℕ × Heap)) = _
    rw [hinsert]
    rfl

theorem roundUp_dvd {n : ℕ} (hn : n < 2 ^ 63) : alignment ∣ roundUp n ∧ n ≤ roundUp n := by
  unfold roundUp alignment
  split_ifs with hpos
  · rw [Nat.mod_eq_of_lt (by omega)]
    omega
  · omega

theorem node_mEraseNodeFromFreeList {second : Option ℕ} {c : ℕ} (hc : ∀ s ∈ second, c ≠ s) :
    (h.mEraseNodeFromFreeList (a, second)).node c = h.node c := by
  cases second with
  | none => rfl
  | some s => exact node_setNode_of_ne (hc s rfl) _

/-- The choice of a free block, with the parts before and behind it. -/
theorem Chosen.parts {n : ℕ} {nodes : NodesBlock} (hc : h.Chosen blocks used n nodes)
    (ht : Tiled h blocks used) :
    ∃ A B, blocks = A ++ nodes.1 :: B ∧ used nodes.1 = false ∧
      nodes.2 = (A.filter (!used ·)).getLast? := by
  obtain ⟨l₁, l₂, hl, hp, -⟩ := hc
  have hmem : nodes.1 ∈ blocks.filter (!used ·) := by
    rw [hl]
    exact List.mem_append_right l₁ List.mem_cons_self
  obtain ⟨hmem, hfree⟩ := List.mem_filter.1 hmem
  rw [Bool.not_eq_true'] at hfree
  obtain ⟨A, B, rfl⟩ := List.append_of_mem hmem
  have hnodup := ht.nodup.filter (!used ·)
  rw [hl, List.nodup_middle, List.nodup_cons, List.mem_append, not_or] at hnodup
  have hnodup' := ht.nodup.filter (!used ·)
  rw [filter_middle hfree, List.nodup_middle, List.nodup_cons, List.mem_append, not_or] at hnodup'
  rw [filter_middle hfree, List.append_cons_inj_of_notMem hnodup'.1.1 hnodup'.1.2] at hl
  exact ⟨A, B, rfl, hfree, by rw [hp, hl.1]⟩

theorem Tiled.getFreeBlock (ht : Tiled h blocks used) {n aOffset : ℕ} {aFromEnd : Bool}
    (hfits : aFromEnd = false → aOffset ≠ 0 → h.FitsAt aOffset n) :
    ∃ nodes, h.getFreeBlock n aFromEnd aOffset = .ok (nodes, h) ∧
      ∀ x ∈ nodes, h.Chosen blocks used n x := by
  unfold Heap.getFreeBlock
  cases aFromEnd with
  | false => exact ht.mGetFreeBlockFromBegin (hfits rfl)
  | true =>
    obtain ⟨nodes, hnodes, hchosen⟩ := ht.mGetFreeBlockFromEnd n
    refine ⟨nodes, ?_, hchosen⟩
    rw [if_pos rfl, hnodes]
    rfl

theorem who_mSplitBlockAndUpdateList {nodes : NodesBlock} {n who : ℕ}
    (heq : h.mSplitBlockAndUpdateList nodes n false = .ok (who, h')) : who = nodes.1 := by
  unfold Heap.mSplitBlockAndUpdateList mSplitInto2Block at heq
  by_cases hlarge : n + 2 * sizeOfBlockNode < h.size nodes.1
  · rw [if_pos hlarge] at heq
    obtain ⟨h₁, -, heq⟩ := eq_ok_of_bind heq
    cases heq
    rfl
  · rw [if_neg hlarge] at heq
    cases heq
    rfl

/-- The block that was chosen is taken from the list, and is cut to its size. -/
theorem Tiled.takeChosen (ht : Tiled h blocks used) {n : ℕ} (hn : n < 2 ^ 63)
    {nodes : NodesBlock} (hchosen : h.Chosen blocks used (roundUp n) nodes)
    (hapart : Apart blocks (Function.update used nodes.1 true)) (aFromEnd : Bool) :
    ∃ who h' blocks' used',
      (h.mEraseNodeFromFreeList nodes).mSplitBlockAndUpdateList nodes (roundUp n) aFromEnd =
          .ok (who, h') ∧
        Taken h (h'.mAllocate who true) blocks used n who blocks' used' := by
  obtain ⟨A, B, rfl, hfree, hprev⟩ := hchosen.parts ht
  obtain ⟨l₁, l₂, hl, hp, hsize⟩ := hchosen
  obtain ⟨a, prev⟩ := nodes
  dsimp only at hfree hprev hl hp hsize ht hapart ⊢
  obtain ⟨hdvd, hle⟩ := roundUp_dvd hn
  have herase := ht.erase hl
  rw [← hp] at herase
  have hself : Function.update used a true a = true := Function.update_self _ _ _
  have hnodup := ht.nodup
  rw [List.nodup_middle, List.nodup_cons, List.mem_append, not_or] at hnodup
  obtain ⟨⟨haA, haB⟩, -⟩ := hnodup
  have hprev' : ∀ s ∈ prev, s ∈ A.filter (!Function.update used a true ·) := by
    intro s hs
    rw [filter_update_of_not_mem haA]
    rw [hprev] at hs
    exact List.mem_of_getLast? hs
  have hsize' : (h.mEraseNodeFromFreeList (a, prev)).size = h.size := by
    cases prev with
    | none => rfl
    | some s => exact funext fun b => size_mSetNextNode s b _
  have hnode : ∀ b ∈ (A ++ a :: B).filter used,
      (h.mEraseNodeFromFreeList (a, prev)).node b = h.node b := by
    intro b hb
    refine node_mEraseNodeFromFreeList fun s hs => ?_
    rw [hprev] at hs
    rintro rfl
    have hused := (List.mem_filter.1 hb).2
    have hfree := (List.mem_filter.1 (List.mem_of_getLast? hs)).2
    rw [hused] at hfree
    cases hfree
  obtain ⟨who, h', blocks', used', hsplit, htaken⟩ := herase.mSplitBlockAndUpdateList hapart
    hself hdvd (by rw [hsize']; exact hsize) hprev' aFromEnd
  have hfilter : (A ++ B).filter (Function.update used a true) = (A ++ a :: B).filter used := by
    rw [List.filter_append, filter_update_used haA, filter_update_used haB, List.filter_append,
      List.filter_cons, hfree]
    rfl
  have hwho : who ∉ (A ++ a :: B).filter used := by
    have hnodup := (htaken.tiled.nodup.filter used')
    rw [htaken.perm.nodup_iff, List.nodup_cons, hfilter] at hnodup
    exact hnodup.1
  refine ⟨who, h', blocks', used', hsplit, ?_, htaken.apart, ?_, ?_, ?_, htaken.maxSize.trans ?_,
    htaken.first.trans ?_⟩
  · exact htaken.tiled.congr (fun b _ => size_mAllocate who b true)
      (fun b _ _ => next_mAllocate who b true) rfl rfl rfl rfl
  · rw [← hfilter]
    exact htaken.perm
  · rw [size_mAllocate]
    exact Nat.le_trans hle htaken.size
  · intro b hb
    have hbwho : b ≠ who := ne_of_mem_of_not_mem hb hwho
    rw [← hnode b hb, ← htaken.node b (by rw [hfilter]; exact hb)]
    exact node_setNode_of_ne hbwho _
  · cases prev <;> rfl
  · cases prev <;> rfl

theorem Apart.update (hapart : Apart (A ++ a :: B) used) (hnodup : (A ++ a :: B).Nodup) :
    Apart (A ++ a :: B) (Function.update used a true) := by
  rw [List.nodup_middle, List.nodup_cons, List.mem_append, not_or] at hnodup
  obtain ⟨⟨haA, haB⟩, -⟩ := hnodup
  have hself : Function.update used a true a = true := Function.update_self _ _ _
  obtain ⟨hA, hB, -, -⟩ := apart_middle.1 hapart
  exact apart_middle.2
    ⟨apart_congr hA fun b hb => Function.update_of_ne (ne_of_mem_of_not_mem hb haA) _ _,
      apart_congr hB fun b hb => Function.update_of_ne (ne_of_mem_of_not_mem hb haB) _ _,
      fun _ _ => Or.inr hself, fun _ _ => Or.inl hself⟩

/-- `MMallocBlock` takes one block, or does nothing. -/
theorem Tiled.mMallocBlock (ht : Tiled h blocks used) (hapart : Apart blocks used) {n aOffset : ℕ}
    (hn : n < 2 ^ 63) {aFromEnd : Bool}
    (hfits : aFromEnd = false → aOffset ≠ 0 → h.FitsAt aOffset (roundUp n)) :
    h.mMallocBlock n aFromEnd aOffset = .ok (none, h) ∨
      ∃ who h' blocks' used',
        h.mMallocBlock n aFromEnd aOffset = .ok (some (who + sizeOfBlockNode), h') ∧
        Taken h h' blocks used n who blocks' used' := by
  unfold Heap.mMallocBlock
  by_cases hzero : n = 0
  · rw [if_pos hzero]
    exact Or.inl rfl
  rw [if_neg hzero]
  by_cases hremaining : h.freeBytesRemaining < roundUp n
  · dsimp only
    rw [if_pos hremaining]
    exact Or.inl rfl
  dsimp only
  rw [if_neg hremaining]
  obtain ⟨nodes, hnodes, hchosen⟩ := ht.getFreeBlock hfits
  rw [hnodes]
  cases nodes with
  | none => exact Or.inl rfl
  | some nodes =>
    have hchosen := hchosen nodes rfl
    have hupdate : Apart blocks (Function.update used nodes.1 true) := by
      obtain ⟨A, B, rfl, -⟩ := hchosen.parts ht
      exact hapart.update ht.nodup
    obtain ⟨who, h', blocks', used', hsplit, htaken⟩ :=
      ht.takeChosen hn hchosen hupdate aFromEnd
    refine Or.inr ⟨who, h'.mAllocate who true, blocks', used', ?_, htaken⟩
    dsimp only [bind, Except.bind, pure, Except.pure]
    rw [hsplit]

/-- `MFreeBlock` gives a block back. -/
theorem Tiled.mFreeBlock (ht : Tiled h (A ++ a :: B) used) (hapart : Apart (A ++ a :: B) used)
    (ha : used a = true) :
    ∃ h' blocks, h.mFreeBlock (a + sizeOfBlockNode) = .ok h' ∧
      Inserted h h' A B a used blocks := by
  have ht' : Tiled (h.mAllocate a false) (A ++ a :: B) used :=
    ht.congr (fun b _ => size_mAllocate a b false) (fun b _ _ => next_mAllocate a b false) rfl rfl
      rfl rfl
  obtain ⟨h', blocks, hinsert, hins⟩ := ht'.insert hapart ha none (fun s hs => nomatch hs)
  refine ⟨h', blocks, ?_, hins.tiled, hins.apart, hins.used_eq, ?_, hins.maxSize, hins.first⟩
  · unfold Heap.mFreeBlock
    rw [Nat.add_sub_cancel]
    exact hinsert
  · intro b hb hba
    rw [hins.node b hb hba]
    exact node_setNode_of_ne hba _

end Heap

end UdtKernel.SharedAllocator
