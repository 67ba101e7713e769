import Mathlib.Data.List.Chain
import UdtKernel.SharedAllocator.FreeList

set_option autoImplicit false

/-! A block that is given back is listed, and joined with the free blocks beside it. -/

namespace UdtKernel.SharedAllocator
open UdtKernel.Lib

namespace Heap

variable {h h' : Heap} {blocks A B : List ℕ} {used : ℕ → Bool} {px : ℕ}

theorem apart_middle :
    Apart (A ++ px :: B) used ↔ Apart A used ∧ Apart B used ∧
      (∀ s ∈ A.getLast?, used s = true ∨ used px = true) ∧
      ∀ n ∈ B.head?, used px = true ∨ used n = true := by
  unfold Apart
  rw [List.isChain_append, List.isChain_cons, List.head?_cons]
  constructor
  · rintro ⟨hA, ⟨hhead, hB⟩, hlast⟩
    exact ⟨hA, hB, fun s hs => hlast s hs px rfl, hhead⟩
  · rintro ⟨hA, hB, hlast, hhead⟩
    refine ⟨hA, ⟨hhead, hB⟩, fun s hs y hy => ?_⟩
    cases hy
    exact hlast s hs

theorem apart_congr {used' : ℕ → Bool} (h : Apart A used) (heq : ∀ a ∈ A, used' a = used a) :
    Apart A used' := by
  refine List.IsChain.imp_of_mem_imp ?_ h
  intro a b ha hb hab
  rw [heq a ha, heq b hb]
  exact hab

/-- No free block follows another. -/
theorem Apart.endOf_ne {p q a b : ℕ} (hapart : Apart blocks used)
    (ht : Linked id h.endOf p blocks q) (ha : a ∈ blocks) (hb : b ∈ blocks)
    (hfreeA : used a = false) (hfreeB : used b = false) : h.endOf a ≠ b := by
  intro hend
  have hle := (ht.bounds lt_endOf b hb).2
  obtain ⟨A, B, rfl⟩ := List.append_of_mem ha
  obtain ⟨m, -, -, htail⟩ := Linked.append.1 ht
  obtain ⟨-, -, -, hhead⟩ := apart_middle.1 hapart
  cases B with
  | nil =>
    have hq : h.endOf a = q := htail
    have hlt := lt_endOf (h := h) b
    omega
  | cons c B =>
    have hc : h.endOf a = c := htail.1
    have hbusy := hhead c rfl
    rw [← hc, hend, hfreeA, hfreeB] at hbusy
    exact Bool.false_ne_true (hbusy.elim id id)

/-- The pointer behind the free blocks of the first part. -/
theorem Tiled.next_getLast? (ht : Tiled h (A ++ px :: B) used) (hused : used px = true) :
    (((A.filter (!used ·)).getLast?.map h.next).getD h.firstNode) =
      ((B.filter (!used ·)).head?.map offsetOf).getD nullOffset := by
  have hlinked := ht.linked
  rw [filter_middle_used hused] at hlinked
  have htail := hlinked.append_getLast?.1
  cases hB : B.filter (!used ·) with
  | nil =>
    rw [hB] at htail
    exact htail
  | cons n l =>
    rw [hB] at htail
    exact htail.1

theorem goOn_eq {l₁ l₂ : List ℕ} {s : ℕ} (h₁ : ∀ a ∈ l₁, a < px) (h₂ : ∀ a ∈ l₂.head?, ¬ a < px) :
    some (goOn px s (l₁ ++ l₂)) = (s :: l₁).getLast? := by
  induction l₁ generalizing s with
  | nil =>
    cases l₂ with
    | nil => rfl
    | cons a l₂ =>
      rw [List.nil_append, goOn, if_neg (h₂ a rfl)]
      rfl
  | cons a l₁ ih =>
    rw [List.cons_append, goOn, if_pos (h₁ a List.mem_cons_self),
      ih fun b hb => h₁ b (List.mem_cons_of_mem a hb), List.getLast?_cons_cons]

/-- The search for the block before finds the last free one. -/
theorem Tiled.prevFor_eq (ht : Tiled h (A ++ px :: B) used) (hused : used px = true)
    {aPrev : Option ℕ} (hprev : ∀ s ∈ aPrev, s ∈ A.filter (!used ·))
    (hne : A.filter (!used ·) ++ B.filter (!used ·) ≠ []) :
    h.prevFor px aPrev = .ok (A.filter (!used ·)).getLast? := by
  have hlinked := ht.linked
  have hbound := ht.free_lt_bound
  have hlength := ht.free_length_le
  have hlt := ht.lt
  rw [filter_middle_used hused] at hlinked hbound hlength
  rw [List.pairwise_append, List.pairwise_cons] at hlt
  obtain ⟨-, ⟨hB, -⟩, hA⟩ := hlt
  have hlast : ∀ a ∈ A.filter (!used ·), a < px := fun a ha =>
    hA a (List.mem_of_mem_filter ha) px List.mem_cons_self
  have hhead : ∀ a ∈ B.filter (!used ·), ¬ a < px := fun a ha =>
    Nat.lt_asymm (hB a (List.mem_of_mem_filter ha))
  have hhead? : ∀ a ∈ (B.filter (!used ·)).head?, ¬ a < px := fun a ha =>
    hhead a (List.mem_of_head? ha)
  have hgo : ∀ l₁ l₂ s, A.filter (!used ·) = l₁ ++ s :: l₂ →
      (do
        let l ← h.walk h.maxSize (h.node s).nextNode
        return some (goOn px s l) : Except Fault (Option ℕ)) =
        .ok (A.filter (!used ·)).getLast? := by
    intro l₁ l₂ s hl
    rw [hl, List.append_assoc] at hlinked hbound hlength
    obtain ⟨m, -, -, htail⟩ := Linked.append.1 hlinked
    have hwalk := walk_eq (n := h.maxSize) htail (fun a ha => hbound a (by
      rw [List.mem_append]
      exact Or.inr (List.mem_cons_of_mem s ha))) (by
      rw [List.length_append] at hlength
      exact Nat.le_trans (Nat.le_succ _) (Nat.le_trans (Nat.le_add_left _ _) hlength))
    unfold next at hwalk
    rw [hwalk]
    have hsmall : ∀ a ∈ l₂, a < px := fun a ha => hlast a (by rw [hl]; simp [ha])
    have hgo : some (goOn px s (l₂ ++ B.filter (!used ·))) = (s :: l₂).getLast? :=
      goOn_eq hsmall hhead?
    rw [hl, List.getLast?_append_of_ne_nil l₁ (List.cons_ne_nil s l₂), ← hgo]
    rfl
  unfold prevFor
  cases aPrev with
  | some s =>
    have hs := hprev s rfl
    obtain ⟨l₁, l₂, hl⟩ := List.append_of_mem hs
    dsimp only [Option.orElse_some]
    rw [if_neg (Nat.lt_asymm (hlast s hs))]
    exact hgo l₁ l₂ s hl
  | none =>
    cases hFA : A.filter (!used ·) with
    | nil =>
      rw [hFA, List.nil_append] at hlinked hne hbound
      obtain ⟨n, l, hFB⟩ := List.exists_cons_of_ne_nil hne
      rw [hFB] at hlinked hbound hhead
      have hfirst : pointer h.firstNode = some n := by
        rw [hlinked.1]
        exact pointer_offsetOf (hbound n List.mem_cons_self)
      dsimp only [Option.orElse_none]
      rw [hfirst]
      have hn : px < n := by
        have hnot := hhead n List.mem_cons_self
        have hmem : n ∈ B := List.mem_of_mem_filter (hFB ▸ List.mem_cons_self)
        exact hB n hmem
      dsimp only
      rw [if_pos hn]
      rfl
    | cons s l =>
      rw [hFA] at hlinked hbound
      have hfirst : pointer h.firstNode = some s := by
        rw [hlinked.1]
        exact pointer_offsetOf (hbound s (by simp))
      dsimp only [Option.orElse_none]
      rw [hfirst]
      have hs : ¬ px < s := Nat.lt_asymm (hlast s (hFA ▸ List.mem_cons_self))
      dsimp only
      rw [if_neg hs, ← hFA]
      exact hgo [] l s hFA

theorem joinNext_of_ne {aPrev : ℕ} (hne : ∀ n ∈ pointer (h.next aPrev), h.endOf px ≠ n) :
    h.joinNext px aPrev =
      if aPrev = px then h else h.mSetNextNode aPrev (offsetOf px) := by
  unfold joinNext
  unfold next at hne
  cases hp : pointer (h.node aPrev).nextNode with
  | none => rfl
  | some n =>
    dsimp only
    rw [if_neg (hne n hp)]

theorem joinNext_of_eq {aPrev n : ℕ} (hp : pointer (h.next aPrev) = some n)
    (heq : h.endOf px = n) :
    h.joinNext px aPrev =
      if aPrev = px then h.merge px n else (h.merge px n).mSetNextNode aPrev (offsetOf px) := by
  have hmerge : { (h.mSetBlockSize px (h.size px + h.size n + sizeOfBlockNode)).mSetNextNode px
      ((h.mSetBlockSize px (h.size px + h.size n + sizeOfBlockNode)).node n).nextNode with
      freeBytesRemaining := h.freeBytesRemaining + sizeOfBlockNode } = h.merge px n := by
    have hnext := next_mSetBlockSize (h := h) px n (h.size px + h.size n + sizeOfBlockNode)
    unfold next at hnext
    rw [hnext]
    rfl
  unfold next at hp
  unfold joinNext
  rw [hp]
  dsimp only
  rw [if_pos heq, ← hmerge]
  rfl

/-- The block before is not joined when it is used. -/
theorem Tiled.not_before (ht : Tiled h (A ++ px :: B) used)
    (hA : ∀ s ∈ A.getLast?, used s = true) :
    ∀ s ∈ (A.filter (!used ·)).getLast?, h.endOf s ≠ px := by
  intro s hs
  have hmem := List.mem_of_getLast? hs
  have hsorted := ht.sorted
  rw [List.pairwise_append] at hsorted
  obtain ⟨hsorted, -, hbefore⟩ := hsorted
  rcases List.eq_nil_or_concat' A with rfl | ⟨A₀, t, rfl⟩
  · cases hmem
  · have ht : used t = true := hA t (by rw [List.getLast?_concat]; rfl)
    rw [List.filter_append, List.mem_append] at hmem
    rcases hmem with hmem | hmem
    · rw [List.pairwise_append] at hsorted
      have hle := hsorted.2.2 s (List.mem_of_mem_filter hmem) t (List.mem_singleton_self t)
      have hend := hbefore t (by simp) px List.mem_cons_self
      have hlt := lt_endOf (h := h) t
      omega
    · have hst := List.mem_singleton.1 (List.mem_of_mem_filter hmem)
      have hfree := (List.mem_filter.1 hmem).2
      rw [hst, ht] at hfree
      cases hfree

structure Inserted (h h' : Heap) (A B : List ℕ) (px : ℕ) (used : ℕ → Bool) (blocks : List ℕ) :
    Prop where
  tiled : Tiled h' blocks (Function.update used px false)
  apart : Apart blocks (Function.update used px false)
  used_eq : blocks.filter (Function.update used px false) = (A ++ B).filter used
  node : ∀ b, used b = true → b ≠ px → h'.node b = h.node b
  maxSize : h'.maxSize = h.maxSize
  first : h'.first = h.first

theorem filter_used {l : List ℕ} (hl : px ∉ l) :
    l.filter (Function.update used px false) = l.filter used := by
  refine List.filter_congr fun b hb => ?_
  rw [Function.update_of_ne (ne_of_mem_of_not_mem hb hl)]

theorem walk_congr (hnode : h'.node = h.node) (n : ℕ) (w : Offset) :
    h'.walk n w = h.walk n w := by
  induction n generalizing w with
  | zero => rfl
  | succ n ih =>
    unfold walk
    rw [hnode]
    cases pointer w with
    | none => rfl
    | some p =>
      dsimp only
      rw [ih]

theorem prevFor_congr (hnode : h'.node = h.node) (hfirst : h'.firstNode = h.firstNode)
    (hmax : h'.maxSize = h.maxSize) (px : ℕ) (aPrev : Option ℕ) :
    h'.prevFor px aPrev = h.prevFor px aPrev := by
  unfold prevFor
  rw [hfirst, hnode, hmax]
  cases aPrev.orElse fun _ => pointer h.firstNode with
  | none => rfl
  | some s =>
    dsimp only
    rw [walk_congr hnode]

def counted (h : Heap) (px : ℕ) : Heap :=
  { h with freeBytesRemaining := h.freeBytesRemaining + h.size px }

/-- What `MInsertIntoFreeList` does when it knows the free block before. -/
def insertBehind (h : Heap) (px : ℕ) : Option ℕ → Heap
  | none =>
    joinNext { (h.counted px).mSetNextNode px h.firstNode with firstNode := offsetOf px } px px
  | some s =>
    if h.endOf s = px then
      let h₁ := (h.counted px).mSetBlockSize s (h.size s + h.size px + sizeOfBlockNode)
      joinNext { h₁ with freeBytesRemaining := h₁.freeBytesRemaining + sizeOfBlockNode } s s
    else ((h.counted px).mSetNextNode px (h.next s)).joinNext px s

theorem Tiled.mInsertIntoFreeList_eq (ht : Tiled h (A ++ px :: B) used) (hused : used px = true)
    {aPrev : Option ℕ} (hprev : ∀ s ∈ aPrev, s ∈ A.filter (!used ·)) :
    h.mInsertIntoFreeList px aPrev =
      .ok (h.insertBehind px (A.filter (!used ·)).getLast?) := by
  have hlinked := ht.linked
  have hbound := ht.free_lt_bound
  rw [filter_middle_used hused] at hlinked hbound
  unfold mInsertIntoFreeList
  dsimp only
  change (if (pointer h.firstNode).isNone = true then _ else _) = _
  cases hfree : A.filter (!used ·) ++ B.filter (!used ·) with
  | nil =>
    rw [hfree] at hlinked
    have hfirst : h.firstNode = nullOffset := hlinked
    rw [hfirst, pointer_nullOffset, (List.append_eq_nil_iff.1 hfree).1,
      if_pos Option.isNone_none]
    change _ = Except.ok (joinNext _ px px)
    rw [joinNext_of_ne, if_pos rfl, hfirst]
    · rfl
    · intro n hn
      change n ∈ pointer (((h.counted px).mSetNextNode px h.firstNode).next px) at hn
      rw [next_mSetNextNode_self, hfirst, pointer_nullOffset] at hn
      cases hn
  | cons n l =>
    rw [hfree] at hlinked hbound
    have hfirst : pointer h.firstNode = some n := by
      rw [hlinked.1]
      exact pointer_offsetOf (hbound n List.mem_cons_self)
    have hsearch := ht.prevFor_eq hused hprev (by rw [hfree]; exact List.cons_ne_nil n l)
    have hcounted : (h.counted px).prevFor px aPrev = h.prevFor px aPrev := by
      apply prevFor_congr <;> rfl
    rw [hfirst]
    change (h.counted px).prevFor px aPrev >>= _ = _
    rw [hcounted, hsearch]
    cases (A.filter (!used ·)).getLast? with
    | none => rfl
    | some s =>
      change (if h.endOf s = px then _ else _) = Except.ok (if h.endOf s = px then _ else _)
      split_ifs <;> rfl

theorem apart_head {n : ℕ} (hapart : Apart (n :: B) used) (hn : used n = false) :
    Apart B used ∧ ∀ b ∈ B.head?, used b = true := by
  unfold Apart at hapart ⊢
  rw [List.isChain_cons] at hapart
  refine ⟨hapart.2, fun b hb => (hapart.1 b hb).resolve_left ?_⟩
  rw [hn]
  exact Bool.false_ne_true

theorem apart_last {s : ℕ} (hapart : Apart (A ++ [s]) used) (hs : used s = false) :
    Apart A used ∧ ∀ a ∈ A.getLast?, used a = true := by
  obtain ⟨hA, -, hlast, -⟩ := apart_middle.1 hapart
  refine ⟨hA, fun a ha => (hlast a ha).resolve_right ?_⟩
  rw [hs]
  exact Bool.false_ne_true

/-- The block joins the free one behind it, or leaves it. -/
theorem Tiled.joinNext (ht : Tiled h (A ++ px :: B) used) (hpx : used px = false)
    (hA : ∀ s ∈ A.getLast?, used s = true) (hapartA : Apart A used) (hapartB : Apart B used)
    (hnext : h.next px = ((B.filter (!used ·)).head?.map offsetOf).getD nullOffset) :
    ∃ B', Tiled (h.joinNext px px) (A ++ px :: B') used ∧ Apart (A ++ px :: B') used ∧
      B'.filter used = B.filter used ∧ B' ⊆ B ∧
      (∀ c, c ≠ px → (h.joinNext px px).node c = h.node c) ∧
      (h.joinNext px px).maxSize = h.maxSize ∧ (h.joinNext px px).first = h.first := by
  by_cases hB : ∀ n ∈ B.head?, used n = true
  · have hne : ∀ n ∈ pointer (h.next px), h.endOf px ≠ n := by
      intro n hn
      rw [hnext] at hn
      cases hhead : (B.filter (!used ·)).head? with
      | none =>
        rw [hhead] at hn
        change n ∈ pointer nullOffset at hn
        rw [pointer_nullOffset] at hn
        cases hn
      | some b =>
        have hmem := List.mem_of_mem_filter (List.mem_of_head? hhead)
        have hb : b < 2 ^ 63 := ht.lt_bound (by simp [hmem])
        rw [hhead] at hn
        change n ∈ pointer (offsetOf b) at hn
        rw [pointer_offsetOf hb] at hn
        cases hn
        obtain ⟨m, -, -, htail⟩ := Linked.append.1 ht.tiles
        cases B with
        | nil => cases hmem
        | cons c B =>
          have hend : h.endOf px = c := htail.1
          have hc := hB c rfl
          rw [hend]
          rintro rfl
          have hfree := (List.mem_filter.1 (List.mem_of_head? hhead)).2
          rw [hc] at hfree
          cases hfree
    rw [joinNext_of_ne hne, if_pos rfl]
    refine ⟨B, ht, ?_, rfl, List.Subset.refl B, fun _ _ => rfl, rfl, rfl⟩
    exact apart_middle.2 ⟨hapartA, hapartB, fun s hs => Or.inl (hA s hs),
      fun n hn => Or.inr (hB n hn)⟩
  · push Not at hB
    obtain ⟨n, hhead, hn⟩ := hB
    rw [ne_eq, Bool.not_eq_true] at hn
    obtain ⟨B', rfl⟩ : ∃ B', B = n :: B' := by
      cases B with
      | nil => cases hhead
      | cons c B =>
        cases hhead
        exact ⟨B, rfl⟩
    obtain ⟨m, -, -, htail⟩ := Linked.append.1 ht.tiles
    have hend : h.endOf px = n := htail.1
    have hbound : n < 2 ^ 63 := ht.lt_bound (by simp)
    have hpointer : pointer (h.next px) = some n := by
      rw [hnext, List.filter_cons, hn]
      exact pointer_offsetOf hbound
    obtain ⟨hapart, hlast⟩ := apart_head hapartB hn
    rw [joinNext_of_eq hpointer hend, if_pos rfl]
    refine ⟨B', ht.merge hpx hn, ?_, ?_, List.subset_cons_self n B', ?_, rfl, rfl⟩
    · exact apart_middle.2 ⟨hapartA, hapart, fun s hs => Or.inl (hA s hs),
        fun b hb => Or.inr (hlast b hb)⟩
    · rw [List.filter_cons, hn]
      rfl
    · intro c hc
      exact (node_setNode_of_ne hc _).trans (node_setNode_of_ne hc _)

theorem merge_mSetNextNode {s n : ℕ} (hs : s ≠ px) (hn : n ≠ s) (w : Offset) :
    (h.mSetNextNode s w).merge px n = (h.merge px n).mSetNextNode s w := by
  have hnode : ((h.mSetNextNode s w).merge px n).node = ((h.merge px n).mSetNextNode s w).node := by
    funext c
    unfold merge mSetNextNode mSetBlockSize setNode next size
    dsimp only
    by_cases hc : c = px
    · subst hc
      simp [Function.update_of_ne (Ne.symm hs), Function.update_of_ne hn]
    · by_cases hcs : c = s
      · subst hcs
        simp [Function.update_of_ne hc]
      · simp [Function.update_of_ne hc, Function.update_of_ne hcs]
  exact congrArg (fun node => Heap.mk (h.freeBytesRemaining + sizeOfBlockNode) h.maxSize
    h.aligmentHead h.firstNode node) hnode

/-- The order in which a block is listed and joined does not count. -/
theorem insertBehind_eq (ht : Tiled h (A ++ px :: B) used) (hused : used px = true)
    (hA : ∀ s ∈ A.getLast?, used s = true) :
    h.insertBehind px (A.filter (!used ·)).getLast? =
      (h.link px (A.filter (!used ·)).getLast?).joinNext px px := by
  have hbefore := ht.not_before hA
  have hnext := ht.next_getLast? hused
  have hnodup := ht.nodup
  rw [List.nodup_middle, List.nodup_cons, List.mem_append, not_or] at hnodup
  cases hlast : (A.filter (!used ·)).getLast? with
  | none => rfl
  | some s =>
    rw [hlast] at hbefore hnext
    have hmem := List.mem_of_mem_filter (List.mem_of_getLast? hlast)
    have hs : s ≠ px := ne_of_mem_of_not_mem hmem hnodup.1.1
    have hlink : (h.link px (some s)).next px = h.next s :=
      (next_mSetNextNode_of_ne hs.symm _).trans (next_mSetNextNode_self px _)
    have hsize : (h.link px (some s)).endOf px = h.endOf px :=
      endOf_congr (congrFun (size_link px (some s)) px)
    let h₁ := (h.counted px).mSetNextNode px (h.next s)
    have hnext₁ : h₁.next s = h.next s := next_mSetNextNode_of_ne hs _
    have hsize₁ : h₁.endOf px = h.endOf px := endOf_congr (size_mSetNextNode px px _)
    change (if h.endOf s = px then _ else h₁.joinNext px s) = _
    rw [if_neg (hbefore s rfl)]
    by_cases hjoin : ∀ n ∈ pointer (h.next s), h.endOf px ≠ n
    · rw [joinNext_of_ne (by rwa [hnext₁, hsize₁]), if_neg hs,
        joinNext_of_ne (by rwa [hlink, hsize]), if_pos rfl]
      rfl
    · push Not at hjoin
      obtain ⟨n, hn, hend⟩ := hjoin
      have hns : n ≠ s := by
        have hlt := ht.lt
        rw [List.pairwise_append] at hlt
        have hspx := hlt.2.2 s hmem px List.mem_cons_self
        have hpx := lt_endOf (h := h) px
        omega
      rw [joinNext_of_eq (by rwa [hnext₁]) (hsize₁.trans hend), if_neg hs,
        joinNext_of_eq (by rwa [hlink]) (hsize.trans hend), if_pos rfl]
      exact (merge_mSetNextNode hs hns _).symm

theorem Tiled.not_mem (ht : Tiled h (A ++ px :: B) used) : px ∉ A ∧ px ∉ B := by
  have hnodup := ht.nodup
  rw [List.nodup_middle, List.nodup_cons, List.mem_append, not_or] at hnodup
  exact hnodup.1

theorem update_of_mem (hpx : px ∉ A) : ∀ a ∈ A, Function.update used px false a = used a :=
  fun _ ha => Function.update_of_ne (ne_of_mem_of_not_mem ha hpx) _ _

/-- The block behind a used one is listed, and joins at most what is behind it. -/
theorem Tiled.insert_apart (ht : Tiled h (A ++ px :: B) used)
    (hapart : Apart (A ++ px :: B) used) (hused : used px = true)
    (hA : ∀ s ∈ A.getLast?, used s = true) :
    ∃ blocks, Inserted h (h.insertBehind px (A.filter (!used ·)).getLast?) A B px used blocks := by
  obtain ⟨hpA, hpB⟩ := ht.not_mem
  have hself : Function.update used px false px = false := Function.update_self _ _ _
  obtain ⟨hapartA, hapartB, -, -⟩ := apart_middle.1 hapart
  have hnext : (h.link px (A.filter (!used ·)).getLast?).next px =
      ((B.filter (!Function.update used px false ·)).head?.map offsetOf).getD nullOffset := by
    rw [filter_update_of_not_mem hpB, ← ht.next_getLast? hused]
    cases hlast : (A.filter (!used ·)).getLast? with
    | none => exact next_mSetNextNode_self px _
    | some s =>
      have hmem := List.mem_of_mem_filter (List.mem_of_getLast? hlast)
      have hs : px ≠ s := (ne_of_mem_of_not_mem hmem hpA).symm
      exact (next_mSetNextNode_of_ne hs _).trans (next_mSetNextNode_self px _)
  obtain ⟨B', htiled, hapart', hfilter, -, hnode, hmax, hfirst⟩ :=
    (ht.link hused).joinNext hself
      (fun s hs => (update_of_mem hpA s (List.mem_of_getLast? hs)).trans (hA s hs))
      (apart_congr hapartA (update_of_mem hpA)) (apart_congr hapartB (update_of_mem hpB)) hnext
  rw [insertBehind_eq ht hused hA]
  refine ⟨_, htiled, hapart', ?_, ?_, ?_, ?_⟩
  · rw [List.filter_append, List.filter_cons, hself, hfilter, filter_used hpA, filter_used hpB,
      List.filter_append]
    rfl
  · intro b hb hbpx
    rw [hnode b hbpx]
    cases hlast : (A.filter (!used ·)).getLast? with
    | none => exact node_setNode_of_ne hbpx _
    | some s =>
      have hfree := (List.mem_filter.1 (List.mem_of_getLast? hlast)).2
      have hbs : b ≠ s := by
        rintro rfl
        rw [hb] at hfree
        cases hfree
      exact (node_setNode_of_ne hbs _).trans (node_setNode_of_ne hbpx _)
  · rw [hmax, maxSize_link]
  · rw [hfirst, first_link]

/-- The free block `s` has the bytes of the block `px` behind it. -/
def takenBehind (h : Heap) (s px : ℕ) : Heap :=
  let h₁ := (h.counted px).mSetBlockSize s (h.size s + h.size px + sizeOfBlockNode)
  { h₁ with freeBytesRemaining := h₁.freeBytesRemaining + sizeOfBlockNode }

variable {s : ℕ}

theorem Tiled.endOf_last (ht : Tiled h ((A ++ [s]) ++ px :: B) used) : h.endOf s = px := by
  obtain ⟨m, hlink, hm, -⟩ := Linked.append.1 ht.tiles
  exact (Linked.concat.1 hlink).2.trans hm

theorem getLast?_filter_concat (hfree : used s = false) :
    ((A ++ [s]).filter (!used ·)).getLast? = some s := by
  rw [List.filter_append, List.filter_singleton, hfree]
  exact List.getLast?_concat

theorem Tiled.takenBehind (ht : Tiled h ((A ++ [s]) ++ px :: B) used) (hused : used px = true)
    (hfree : used s = false) :
    Tiled (h.takenBehind s px) (A ++ s :: B) (Function.update used px false) := by
  obtain ⟨hpA, hpB⟩ := ht.not_mem
  have hmem : s ∈ A ++ [s] := List.mem_append_right A (List.mem_singleton_self s)
  have hspx : s ≠ px := ne_of_mem_of_not_mem hmem hpA
  have hlinked := ht.link hused
  rw [getLast?_filter_concat hfree, List.append_assoc, List.singleton_append] at hlinked
  have hmerged := hlinked.merge ((update_of_mem hpA s hmem).trans hfree)
    (Function.update_self _ _ _)
  refine hmerged.congr (fun b _ => ?_) (fun b hb _ => ?_) rfl rfl rfl rfl
  · by_cases hb : b = s
    · rw [hb, size_merge_self, size_link]
      exact size_mSetBlockSize_self s _
    · rw [size_merge_of_ne hb, size_link]
      exact size_mSetBlockSize_of_ne hb _
  · have hbpx : b ≠ px := by
      rintro rfl
      rcases List.mem_append.1 hb with hb | hb
      · exact hpA (List.mem_append_left [s] hb)
      · rcases List.mem_cons.1 hb with hb | hb
        · exact hspx hb.symm
        · exact hpB hb
    have hold : (h.takenBehind s px).next b = h.next b := next_mSetBlockSize s b _
    by_cases hbs : b = s
    · rw [hold, hbs, next_merge_self]
      exact ((next_mSetNextNode_of_ne hspx.symm _).trans (next_mSetNextNode_self px _)).symm
    · rw [hold, next_merge_of_ne hbs]
      exact ((next_mSetNextNode_of_ne hbs _).trans (next_mSetNextNode_of_ne hbpx _)).symm

/-- The block behind a free one becomes a part of it, and then joins what is behind. -/
theorem Tiled.insert_joined (ht : Tiled h ((A ++ [s]) ++ px :: B) used)
    (hapart : Apart ((A ++ [s]) ++ px :: B) used) (hused : used px = true)
    (hfree : used s = false) :
    ∃ blocks, Inserted h (h.insertBehind px (some s)) (A ++ [s]) B px used blocks := by
  obtain ⟨hpA, hpB⟩ := ht.not_mem
  have heqA : ∀ a ∈ A ++ [s], Function.update used px false a = used a := update_of_mem hpA
  have hself : Function.update used px false s = false :=
    (heqA s (List.mem_append_right A (List.mem_singleton_self s))).trans hfree
  obtain ⟨hapartA, hapartB, -, -⟩ := apart_middle.1 hapart
  obtain ⟨hapartA, hlastA⟩ := apart_last hapartA hfree
  have hnext : (h.takenBehind s px).next s =
      ((B.filter (!Function.update used px false ·)).head?.map offsetOf).getD nullOffset := by
    rw [filter_update_of_not_mem hpB, ← ht.next_getLast? hused, getLast?_filter_concat hfree]
    exact next_mSetBlockSize s s _
  obtain ⟨B', htiled, hapart', hfilter, -, hnode, hmax, hfirst⟩ :=
    (ht.takenBehind hused hfree).joinNext hself
      (fun t ht => (heqA t (List.mem_append_left [s] (List.mem_of_getLast? ht))).trans
        (hlastA t ht))
      (apart_congr hapartA fun a ha => heqA a (List.mem_append_left [s] ha))
      (apart_congr hapartB (update_of_mem hpB)) hnext
  have hcode : h.insertBehind px (some s) = (h.takenBehind s px).joinNext s s :=
    if_pos ht.endOf_last
  rw [hcode]
  refine ⟨_, htiled, hapart', ?_, ?_, hmax, hfirst⟩
  · have hpA' : px ∉ A := fun hmem => hpA (List.mem_append_left [s] hmem)
    rw [List.filter_append, List.filter_cons, hself, hfilter, filter_used hpA', filter_used hpB,
      List.filter_append, List.filter_append, List.filter_singleton, hfree]
    simp
  · intro b hb _
    have hbs : b ≠ s := by
      rintro rfl
      rw [hb] at hfree
      cases hfree
    rw [hnode b hbs]
    exact node_setNode_of_ne hbs _

/-- A block is given back. -/
theorem Tiled.insert (ht : Tiled h (A ++ px :: B) used) (hapart : Apart (A ++ px :: B) used)
    (hused : used px = true) (aPrev : Option ℕ)
    (hprev : ∀ s ∈ aPrev, s ∈ A.filter (!used ·)) :
    ∃ h' blocks, h.mInsertIntoFreeList px aPrev = .ok h' ∧
      Inserted h h' A B px used blocks := by
  rw [ht.mInsertIntoFreeList_eq hused hprev]
  by_cases hA : ∀ s ∈ A.getLast?, used s = true
  · obtain ⟨blocks, hinserted⟩ := ht.insert_apart hapart hused hA
    exact ⟨_, blocks, rfl, hinserted⟩
  · push Not at hA
    obtain ⟨s, hs, hfree⟩ := hA
    rw [ne_eq, Bool.not_eq_true] at hfree
    obtain ⟨A', rfl⟩ := List.getLast?_eq_some_iff.1 hs
    obtain ⟨blocks, hinserted⟩ := ht.insert_joined hapart hused hfree
    rw [getLast?_filter_concat hfree]
    exact ⟨_, blocks, rfl, hinserted⟩

end Heap

end UdtKernel.SharedAllocator
