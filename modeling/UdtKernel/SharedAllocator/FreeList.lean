import Mathlib.Algebra.BigOperators.Group.List.Basic
import UdtKernel.Lib.Linked
import UdtKernel.SharedAllocator.Heap
import UdtKernel.SharedAllocator.SlotTable

set_option autoImplicit false

/-! The blocks tile the heap, and the free ones are listed. -/

namespace UdtKernel.SharedAllocator
open UdtKernel.Lib

namespace Heap

variable {h h' : Heap} {blocks : List ℕ} {used : ℕ → Bool}

def next (h : Heap) (p : ℕ) : Offset := (h.node p).nextNode

def first (h : Heap) : ℕ := h.aligmentHead + sizeOfHeapHead

theorem node_setNode_of_ne {p q : ℕ} (hne : q ≠ p) (b : BlockNode) :
    (h.setNode p b).node q = h.node q := Function.update_of_ne hne _ _

theorem node_setNode_self (p : ℕ) (b : BlockNode) : (h.setNode p b).node p = b :=
  Function.update_self _ _ _

@[simp] theorem size_mSetNextNode (p q : ℕ) (w : Offset) :
    (h.mSetNextNode p w).size q = h.size q := by
  unfold size mSetNextNode
  by_cases hq : q = p
  · rw [hq, node_setNode_self]
  · rw [node_setNode_of_ne hq]

theorem next_mSetNextNode_self (p : ℕ) (w : Offset) : (h.mSetNextNode p w).next p = w := by
  unfold next mSetNextNode
  rw [node_setNode_self]

theorem next_mSetNextNode_of_ne {p q : ℕ} (hne : q ≠ p) (w : Offset) :
    (h.mSetNextNode p w).next q = h.next q := by
  unfold next mSetNextNode
  rw [node_setNode_of_ne hne]

theorem size_mSetBlockSize_self (p n : ℕ) : (h.mSetBlockSize p n).size p = n := by
  unfold size mSetBlockSize
  rw [node_setNode_self]
  rfl

theorem size_mSetBlockSize_of_ne {p q : ℕ} (hne : q ≠ p) (n : ℕ) :
    (h.mSetBlockSize p n).size q = h.size q := by
  unfold size mSetBlockSize
  rw [node_setNode_of_ne hne]

@[simp] theorem next_mSetBlockSize (p q n : ℕ) : (h.mSetBlockSize p n).next q = h.next q := by
  unfold next mSetBlockSize
  by_cases hq : q = p
  · rw [hq, node_setNode_self]
    rfl
  · rw [node_setNode_of_ne hq]

@[simp] theorem size_mAllocate (p q : ℕ) (b : Bool) : (h.mAllocate p b).size q = h.size q := by
  unfold size mAllocate
  by_cases hq : q = p
  · rw [hq, node_setNode_self]
  · rw [node_setNode_of_ne hq]

@[simp] theorem next_mAllocate (p q : ℕ) (b : Bool) : (h.mAllocate p b).next q = h.next q := by
  unfold next mAllocate
  by_cases hq : q = p
  · rw [hq, node_setNode_self]
  · rw [node_setNode_of_ne hq]

theorem lt_endOf (p : ℕ) : p < h.endOf p := by
  unfold endOf sizeOfBlockNode
  omega

theorem endOf_congr {p : ℕ} (hsize : h'.size p = h.size p) : h'.endOf p = h.endOf p := by
  unfold endOf
  rw [hsize]

/-- A block becomes two. -/
theorem tiles_split {p q a s₁ s₂ : ℕ} {A B : List ℕ}
    (h₁ : Linked id h.endOf p (A ++ a :: B) q) (hs : h.size a = s₁ + sizeOfBlockNode + s₂)
    (hsize₁ : h'.size a = s₁) (hsize₂ : h'.size (a + sizeOfBlockNode + s₁) = s₂)
    (hsize : ∀ c ∈ A ++ B, h'.size c = h.size c) :
    Linked id h'.endOf p (A ++ a :: (a + sizeOfBlockNode + s₁) :: B) q := by
  obtain ⟨m, hA, hm, hB⟩ := Linked.append.1 h₁
  refine Linked.append.2 ⟨m, hA.congr fun c hc =>
    endOf_congr (hsize c (List.mem_append_left B hc)), hm, ?_, ?_⟩
  · unfold endOf
    rw [hsize₁]
    rfl
  · have hend : h'.endOf (a + sizeOfBlockNode + s₁) = h.endOf a := by
      unfold endOf
      rw [hsize₂, hs]
      omega
    rw [hend]
    exact hB.congr fun c hc => endOf_congr (hsize c (List.mem_append_right A hc))

/-- Two blocks become one. -/
theorem tiles_join {p q a b : ℕ} {A B : List ℕ}
    (h₁ : Linked id h.endOf p (A ++ a :: b :: B) q)
    (hs : h'.size a = h.size a + h.size b + sizeOfBlockNode)
    (hsize : ∀ c ∈ A ++ B, h'.size c = h.size c) :
    Linked id h'.endOf p (A ++ a :: B) q := by
  obtain ⟨m, hA, hm, hend, hB⟩ := Linked.append.1 h₁
  have hend : h.endOf a = b := hend
  refine Linked.append.2 ⟨m, hA.congr fun c hc =>
    endOf_congr (hsize c (List.mem_append_left B hc)), hm, ?_⟩
  have hend' : h'.endOf a = h.endOf b := by
    unfold endOf at hend ⊢
    rw [hs]
    omega
  rw [hend']
  exact hB.congr fun c hc => endOf_congr (hsize c (List.mem_append_right A hc))

/-- Blocks from the head to the end of the heap, of which those that are not used are linked. -/
structure Tiled (h : Heap) (blocks : List ℕ) (used : ℕ → Bool) : Prop where
  bound : h.maxSize < 2 ^ 63
  tiles : Linked id h.endOf h.first blocks h.maxSize
  linked : Linked offsetOf h.next h.firstNode (blocks.filter (!used ·)) nullOffset
  aligned : ∀ b ∈ blocks, alignment ∣ h.size b
  remaining : h.freeBytesRemaining = ((blocks.filter (!used ·)).map h.size).sum

/-- No block that is not used follows another. -/
def Apart (blocks : List ℕ) (used : ℕ → Bool) : Prop :=
  blocks.IsChain fun a b => used a = true ∨ used b = true

theorem pointer_offsetOf {p : ℕ} (hp : p < 2 ^ 63) : pointer (offsetOf p) = some p := by
  unfold pointer offsetOf
  rw [isNullOffset_ofNat hp, toNat_ofNat hp]
  rfl

theorem pointer_nullOffset : pointer nullOffset = none := rfl

/-- A loop over the list of free blocks meets them all. -/
theorem walk_eq {l : List ℕ} {w : Offset} {n : ℕ} (h₁ : Linked offsetOf h.next w l nullOffset)
    (hbound : ∀ a ∈ l, a < 2 ^ 63) (hn : l.length ≤ n) : h.walk n w = .ok l := by
  induction l generalizing w n with
  | nil =>
    cases h₁
    cases n <;> rfl
  | cons a l ih =>
    obtain ⟨rfl, htail⟩ := h₁
    cases n with
    | zero => exact absurd hn (Nat.not_succ_le_zero _)
    | succ n =>
      unfold walk
      rw [pointer_offsetOf (hbound a List.mem_cons_self)]
      have hwalk := ih htail (fun b hb => hbound b (List.mem_cons_of_mem a hb))
        (Nat.le_of_succ_le_succ hn)
      dsimp only
      unfold next at hwalk
      rw [hwalk]
      rfl

namespace Tiled

theorem sorted (ht : Tiled h blocks used) : blocks.Pairwise fun a b => h.endOf a ≤ b :=
  ht.tiles.pairwise lt_endOf

theorem lt (ht : Tiled h blocks used) : blocks.Pairwise (· < ·) :=
  ht.sorted.imp fun hab => Nat.lt_of_lt_of_le (lt_endOf _) hab

theorem nodup (ht : Tiled h blocks used) : blocks.Nodup :=
  ht.lt.imp Nat.ne_of_lt

theorem endOf_le (ht : Tiled h blocks used) {b : ℕ} (hb : b ∈ blocks) : h.endOf b ≤ h.maxSize :=
  (ht.tiles.bounds lt_endOf b hb).2

theorem lt_bound (ht : Tiled h blocks used) {b : ℕ} (hb : b ∈ blocks) : b < 2 ^ 63 :=
  Nat.lt_trans (Nat.lt_of_lt_of_le (lt_endOf b) (ht.endOf_le hb)) ht.bound

theorem length_le (ht : Tiled h blocks used) : blocks.length ≤ h.maxSize :=
  Nat.le_trans (Nat.le_add_left _ _) (ht.tiles.length_le lt_endOf)

theorem free_length_le (ht : Tiled h blocks used) :
    (blocks.filter (!used ·)).length ≤ h.maxSize :=
  Nat.le_trans (List.length_filter_le _ _) ht.length_le

theorem free_lt_bound (ht : Tiled h blocks used) :
    ∀ b ∈ blocks.filter (!used ·), b < 2 ^ 63 := fun _ hb =>
  ht.lt_bound (List.mem_of_mem_filter hb)

theorem freeNodes_eq (ht : Tiled h blocks used) :
    h.freeNodes = .ok (blocks.filter (!used ·)) :=
  walk_eq ht.linked ht.free_lt_bound ht.free_length_le

/-- What is in the headers of blocks alone counts. -/
theorem congr (ht : Tiled h blocks used) (hsize : ∀ b ∈ blocks, h'.size b = h.size b)
    (hnext : ∀ b ∈ blocks, used b = false → h'.next b = h.next b)
    (hfirst : h'.firstNode = h.firstNode) (hmax : h'.maxSize = h.maxSize)
    (hhead : h'.aligmentHead = h.aligmentHead)
    (hremaining : h'.freeBytesRemaining = h.freeBytesRemaining) : Tiled h' blocks used := by
  refine ⟨?_, ?_, ?_, ?_, ?_⟩
  · rw [hmax]
    exact ht.bound
  · rw [hmax, first, hhead]
    exact ht.tiles.congr fun b hb => endOf_congr (hsize b hb)
  · rw [hfirst]
    refine ht.linked.congr fun b hb => hnext b (List.mem_of_mem_filter hb) ?_
    exact Bool.not_eq_true' _ ▸ (List.mem_filter.1 hb).2
  · intro b hb
    rw [hsize b hb]
    exact ht.aligned b hb
  · rw [hremaining, ht.remaining]
    refine congrArg List.sum (List.map_congr_left fun b hb => (hsize b ?_).symm)
    exact List.mem_of_mem_filter hb

end Tiled

theorem filter_update_of_not_mem {l : List ℕ} {a : ℕ} (ha : a ∉ l) (v : Bool) :
    l.filter (!Function.update used a v ·) = l.filter (!used ·) := by
  refine List.filter_congr fun b hb => ?_
  rw [Function.update_of_ne (ne_of_mem_of_not_mem hb ha)]

theorem filter_update_true {l l₁ l₂ : List ℕ} {a : ℕ} (hnodup : l.Nodup)
    (hl : l.filter (!used ·) = l₁ ++ a :: l₂) :
    l.filter (!Function.update used a true ·) = l₁ ++ l₂ := by
  have hfilter := hnodup.filter (!used ·)
  rw [hl, List.nodup_middle, List.nodup_cons] at hfilter
  have hstep : l.filter (!Function.update used a true ·) =
      (l.filter (!used ·)).filter (· != a) := by
    rw [List.filter_filter]
    refine List.filter_congr fun b _ => ?_
    by_cases hb : b = a
    · rw [hb, Function.update_self, bne_self_eq_false]
      rfl
    · rw [Function.update_of_ne hb, bne_iff_ne.2 hb, Bool.true_and]
  have hkeep : ∀ l' : List ℕ, a ∉ l' → l'.filter (· != a) = l' := by
    intro l' hl'
    rw [List.filter_eq_self]
    intro b hb
    exact bne_iff_ne.2 fun heq => hl' (heq ▸ hb)
  have hnot := hfilter.1
  rw [List.mem_append, not_or] at hnot
  rw [hstep, hl, List.filter_append, List.filter_cons, bne_self_eq_false, hkeep l₁ hnot.1,
    hkeep l₂ hnot.2]
  rfl

theorem filter_middle {l₁ l₂ : List ℕ} {a : ℕ} (ha : used a = false) :
    (l₁ ++ a :: l₂).filter (!used ·) = l₁.filter (!used ·) ++ a :: l₂.filter (!used ·) := by
  rw [List.filter_append, List.filter_cons, ha]
  rfl

theorem filter_middle_used {l₁ l₂ : List ℕ} {a : ℕ} (ha : used a = true) :
    (l₁ ++ a :: l₂).filter (!used ·) = l₁.filter (!used ·) ++ l₂.filter (!used ·) := by
  rw [List.filter_append, List.filter_cons, ha]
  rfl

theorem sum_middle (l₁ l₂ : List ℕ) (a : ℕ) (f : ℕ → ℕ) :
    ((l₁ ++ a :: l₂).map f).sum = f a + ((l₁ ++ l₂).map f).sum := by
  rw [List.map_append, List.map_cons, List.sum_append, List.sum_cons, List.map_append,
    List.sum_append]
  omega

/-- A free block is taken out of the list. -/
theorem Tiled.erase (ht : Tiled h blocks used) {l₁ l₂ : List ℕ} {a : ℕ}
    (hfree : blocks.filter (!used ·) = l₁ ++ a :: l₂) :
    Tiled (h.mEraseNodeFromFreeList (a, l₁.getLast?)) blocks (Function.update used a true) := by
  have hrest := filter_update_true ht.nodup hfree
  have hlinked := ht.linked
  have hnodup := ht.nodup.filter (!used ·)
  have hremaining := ht.remaining
  rw [hfree, sum_middle] at hremaining
  rw [hfree] at hlinked hnodup
  rcases List.eq_nil_or_concat' l₁ with rfl | ⟨l, s, rfl⟩
  · refine ⟨ht.bound, ht.tiles, ?_, ht.aligned, ?_⟩
    · rw [hrest]
      exact hlinked.2
    · rw [hrest]
      change h.freeBytesRemaining - h.size a = _
      rw [hremaining]
      exact Nat.add_sub_cancel_left _ _
  · rw [List.getLast?_concat]
    have hsize : (h.mEraseNodeFromFreeList (a, some s)).size = h.size :=
      funext fun b => size_mSetNextNode s b _
    have hlast : (h.mEraseNodeFromFreeList (a, some s)).next s = h.next a :=
      next_mSetNextNode_self s _
    have hother : ∀ b, b ≠ s → (h.mEraseNodeFromFreeList (a, some s)).next b = h.next b :=
      fun b hb => next_mSetNextNode_of_ne hb _
    refine ⟨ht.bound, ?_, ?_, ?_, ?_⟩
    · exact ht.tiles.congr fun b _ => endOf_congr (congrFun hsize b)
    · rw [hrest]
      have hbypass := hlinked.bypass (h.mEraseNodeFromFreeList (a, some s)).next hnodup
      rw [List.getLast?_concat, if_neg (by simp)] at hbypass
      refine hbypass ?_ ?_
      · rintro b hb
        cases hb
        exact hlast
      · intro b _ hb
        exact hother b fun heq => hb (heq ▸ rfl)
    · rw [hsize]
      exact ht.aligned
    · rw [hrest, hsize]
      change h.freeBytesRemaining - (h.mSetNextNode s (h.next a)).size a = _
      rw [size_mSetNextNode, hremaining]
      exact Nat.add_sub_cancel_left _ _

def link (h : Heap) (px : ℕ) (prev : Option ℕ) : Heap :=
  let h₁ := match prev with
    | some s => (h.mSetNextNode px (h.next s)).mSetNextNode s (offsetOf px)
    | none => { h.mSetNextNode px h.firstNode with firstNode := offsetOf px }
  { h₁ with freeBytesRemaining := h.freeBytesRemaining + h.size px }

def merge (h : Heap) (a b : ℕ) : Heap :=
  { (h.mSetBlockSize a (h.size a + h.size b + sizeOfBlockNode)).mSetNextNode a (h.next b) with
    freeBytesRemaining := h.freeBytesRemaining + sizeOfBlockNode }

theorem size_link (px : ℕ) (prev : Option ℕ) : (h.link px prev).size = h.size := by
  funext b
  cases prev with
  | none => exact size_mSetNextNode px b _
  | some s => exact (size_mSetNextNode s b _).trans (size_mSetNextNode px b _)

theorem maxSize_link (px : ℕ) (prev : Option ℕ) : (h.link px prev).maxSize = h.maxSize := by
  cases prev <;> rfl

theorem first_link (px : ℕ) (prev : Option ℕ) : (h.link px prev).first = h.first := by
  cases prev <;> rfl

theorem size_merge_self (a b : ℕ) :
    (h.merge a b).size a = h.size a + h.size b + sizeOfBlockNode :=
  (size_mSetNextNode a a _).trans (size_mSetBlockSize_self a _)

theorem size_merge_of_ne {a c : ℕ} (hc : c ≠ a) (b : ℕ) : (h.merge a b).size c = h.size c :=
  (size_mSetNextNode a c _).trans (size_mSetBlockSize_of_ne hc _)

theorem next_merge_self (a b : ℕ) : (h.merge a b).next a = h.next b :=
  next_mSetNextNode_self a _

theorem next_merge_of_ne {a c : ℕ} (hc : c ≠ a) (b : ℕ) : (h.merge a b).next c = h.next c :=
  (next_mSetNextNode_of_ne hc _).trans (next_mSetBlockSize a c _)

theorem Tiled.link {A B : List ℕ} {px : ℕ} (ht : Tiled h (A ++ px :: B) used)
    (hused : used px = true) :
    Tiled (h.link px (A.filter (!used ·)).getLast?) (A ++ px :: B)
      (Function.update used px false) := by
  have hnodup := ht.nodup
  rw [List.nodup_middle, List.nodup_cons, List.mem_append, not_or] at hnodup
  obtain ⟨⟨hA, hB⟩, hnodup⟩ := hnodup
  have hlist : (A ++ px :: B).filter (!Function.update used px false ·) =
      A.filter (!used ·) ++ px :: B.filter (!used ·) := by
    rw [filter_middle (Function.update_self _ _ _), filter_update_of_not_mem hA,
      filter_update_of_not_mem hB]
  have hlinked := ht.linked
  have hremaining := ht.remaining
  rw [filter_middle_used hused] at hlinked hremaining
  have hfresh : px ∉ A.filter (!used ·) ++ B.filter (!used ·) := by
    rw [List.mem_append]
    rintro (hmem | hmem)
    · exact hA (List.mem_of_mem_filter hmem)
    · exact hB (List.mem_of_mem_filter hmem)
  have hfilter : (A.filter (!used ·) ++ B.filter (!used ·)).Nodup := by
    rw [← List.filter_append]
    exact hnodup.filter _
  have hinsert := hlinked.insert (h.link px (A.filter (!used ·)).getLast?).next hfilter hfresh
  refine ⟨?_, ?_, ?_, ?_, ?_⟩
  · rw [maxSize_link]
    exact ht.bound
  · rw [maxSize_link, first_link]
    refine ht.tiles.congr fun b _ => endOf_congr ?_
    rw [size_link]
  · rw [hlist]
    rcases List.eq_nil_or_concat' (A.filter (!used ·)) with hnil | ⟨l, s, hl⟩
    · rw [hnil] at hinsert ⊢
      refine hinsert (next_mSetNextNode_self px _) ?_ ?_
      · intro s hs
        cases hs
      · intro b hb _
        rw [hnil] at hfresh
        exact next_mSetNextNode_of_ne (ne_of_mem_of_not_mem hb hfresh) _
    · rw [hl] at hinsert hfresh ⊢
      rw [List.getLast?_concat, if_neg (by simp)] at hinsert
      rw [List.getLast?_concat]
      have hsx : px ≠ s := fun heq => hfresh (by rw [heq]; simp)
      refine hinsert ?_ ?_ ?_
      · exact (next_mSetNextNode_of_ne hsx _).trans (next_mSetNextNode_self px _)
      · intro t ht
        cases ht
        exact next_mSetNextNode_self s _
      · intro b hb hbs
        have hne : b ≠ s := fun heq => hbs (heq ▸ rfl)
        have hnx : b ≠ px := ne_of_mem_of_not_mem hb hfresh
        exact (next_mSetNextNode_of_ne hne _).trans (next_mSetNextNode_of_ne hnx _)
  · rw [size_link]
    exact ht.aligned
  · rw [hlist, size_link, sum_middle, ← hremaining]
    exact Nat.add_comm _ _

theorem Tiled.merge {A B : List ℕ} {a b : ℕ} (ht : Tiled h (A ++ a :: b :: B) used)
    (ha : used a = false) (hb : used b = false) : Tiled (h.merge a b) (A ++ a :: B) used := by
  have hlt := ht.lt
  have hnodup := ht.nodup
  rw [List.nodup_middle, List.nodup_cons, List.mem_append, List.mem_cons, not_or, not_or] at hnodup
  obtain ⟨⟨haA, hab, haB⟩, -⟩ := hnodup
  have hlinked := ht.linked
  have hremaining := ht.remaining
  have hlistnodup := ht.nodup.filter (!used ·)
  have hfilter : (A ++ a :: b :: B).filter (!used ·) =
      (A.filter (!used ·) ++ [a]) ++ b :: B.filter (!used ·) := by
    rw [filter_middle ha, List.filter_cons, hb, List.append_assoc]
    rfl
  have hfilter' : (A ++ a :: B).filter (!used ·) =
      (A.filter (!used ·) ++ [a]) ++ B.filter (!used ·) := by
    rw [filter_middle ha, List.append_assoc]
    rfl
  rw [hfilter] at hlinked hremaining hlistnodup
  have hsizeB : ∀ c ∈ B, (h.merge a b).size c = h.size c := fun c hc =>
    size_merge_of_ne (ne_of_mem_of_not_mem hc haB) b
  have hsizeA : ∀ c ∈ A, (h.merge a b).size c = h.size c := fun c hc =>
    size_merge_of_ne (ne_of_mem_of_not_mem hc haA) b
  refine ⟨ht.bound, ?_, ?_, ?_, ?_⟩
  · refine tiles_join ht.tiles (size_merge_self a b) fun c hc => ?_
    exact (List.mem_append.1 hc).elim (hsizeA c) (hsizeB c)
  · rw [hfilter']
    have hbypass := hlinked.bypass (h.merge a b).next hlistnodup
    rw [List.getLast?_concat, if_neg (by simp)] at hbypass
    refine hbypass ?_ ?_
    · intro c hc
      cases hc
      exact next_merge_self a b
    · intro c _ hca
      exact next_merge_of_ne (fun heq : c = a => hca (heq ▸ rfl)) b
  · intro c hc
    rcases List.mem_append.1 hc with hcA | hc
    · rw [hsizeA c hcA]
      exact ht.aligned c (List.mem_append_left _ hcA)
    · rcases List.mem_cons.1 hc with rfl | hcB
      · rw [size_merge_self]
        have hda := ht.aligned c (by simp)
        have hdb := ht.aligned b (by simp)
        exact Nat.dvd_add (Nat.dvd_add hda hdb) (by decide)
      · rw [hsizeB c hcB]
        exact ht.aligned c (by simp [hcB])
  · rw [hfilter']
    rw [List.append_assoc] at hremaining ⊢
    rw [List.singleton_append] at hremaining ⊢
    rw [sum_middle] at hremaining ⊢
    rw [sum_middle] at hremaining
    have hsum : ((A.filter (!used ·) ++ B.filter (!used ·)).map (h.merge a b).size) =
        (A.filter (!used ·) ++ B.filter (!used ·)).map h.size := by
      refine List.map_congr_left fun c hc => ?_
      rcases List.mem_append.1 hc with hc | hc
      · exact hsizeA c (List.mem_of_mem_filter hc)
      · exact hsizeB c (List.mem_of_mem_filter hc)
    rw [hsum, size_merge_self]
    change h.freeBytesRemaining + sizeOfBlockNode = _
    omega

end Heap

end UdtKernel.SharedAllocator
