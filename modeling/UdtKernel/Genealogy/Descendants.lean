import UdtKernel.Genealogy.Create

set_option autoImplicit false

/-! The families of the messages hold their descendants. -/

namespace UdtKernel
open UdtKernel.Lib UdtKernel.Lib.NestedMap

theorem InheritanceMsgHeader.place_farther {l : List InheritanceMsgHeader} {ys : List Msg}
    (h : l.map place = ys.zipIdx) :
    (l.map fun c => { c with depth := c.depth + 1 }).map place = ys.zipIdx 1 := by
  have hstep : place ∘ (fun c : InheritanceMsgHeader => { c with depth := c.depth + 1 }) =
      (fun p : Msg × ℕ => (p.1, p.2 + 1)) ∘ place := rfl
  rw [List.map_map, hstep, ← List.map_map, h]
  refine List.ext_getElem? fun i => ?_
  simp only [List.getElem?_map, List.getElem?_zipIdx]
  cases ys[i]? with
  | none => rfl
  | some y => simp [Nat.add_comm]

/-- The children of a child go behind the child, one further than they were. -/
theorem MsgFamily.putChildrenOfChild_eq {f : MsgFamily} {l : List InheritanceMsgHeader}
    (hl : (l.map InheritanceMsgHeader.depth).Pairwise (· < ·))
    (hbound : ∀ c ∈ l, c.depth + 1 < 2 ^ 32)
    (hf : ∀ b ∈ f.subMessages, ∀ c ∈ l, b.depth < c.depth + 1) :
    f.putChildrenOfChild l =
      { f with
        subMessages := f.subMessages ++ l.map fun c => { c with depth := c.depth + 1 } } := by
  induction l generalizing f with
  | nil => simp [putChildrenOfChild]
  | cons c l ih =>
    obtain ⟨hc, hl'⟩ := List.pairwise_cons.1 hl
    have hmod : (c.depth + 1) % 2 ^ 32 = c.depth + 1 :=
      Nat.mod_eq_of_lt (hbound c List.mem_cons_self)
    have hput : f.putChild { c with depth := c.depth + 1 } =
        { f with subMessages := f.subMessages ++ [{ c with depth := c.depth + 1 }] } :=
      putChild_of_far fun b hb => hf b hb c List.mem_cons_self
    unfold putChildrenOfChild at ih ⊢
    rw [List.foldl_cons, hmod, hput,
      ih hl' (fun d hd => hbound d (List.mem_cons_of_mem _ hd)) ?_]
    · simp
    · intro b hb d hd
      have hcd : c.depth < d.depth := hc d.depth (List.mem_map_of_mem hd)
      rcases List.mem_append.1 hb with hb | hb
      · exact hf b hb d (List.mem_cons_of_mem _ hd)
      · obtain rfl := List.mem_singleton.1 hb
        exact Nat.succ_lt_succ hcd

namespace HeirTree

def descendants (info : HeirTree) (x : Msg) : List Msg := chain info.heir maxInheritanceDepth x

/-- The heir, if it has one itself, comes before the message, and so on down: such a message
    is finished in the first circle. -/
inductive Early (info : HeirTree) : Msg → Prop
  | last {x y : Msg} (h : info.heir x = some y) (hy : info.heir y = none) : Early info x
  | step {x y : Msg} (h : info.heir x = some y) (hlt : Precedes y x) (hy : Early info y) :
      Early info x

/-- No message is finished too soon because the version its heir is asked for does not fit. -/
def Readable (info : HeirTree) : Prop :=
  ∀ x f, at_ info x = some f → (info.heir f.back.key).isSome →
    info.getMessageChildren f.back.protocol f.back.header ≠ [] ∨
      Precedes f.back.key x ∧ Early info f.back.key

theorem heir_of_at {info : HeirTree} {x : Msg} {f : HeirFamily} (h : at_ info x = some f) :
    info.heir x = some f.back.key := by
  rw [heir, h]
  rfl

theorem at_of_heir {info : HeirTree} {x y : Msg} (h : info.heir x = some y) :
    ∃ f, at_ info x = some f ∧ f.back.key = y := Option.map_eq_some_iff.1 h

theorem isSome_of_heir {info : HeirTree} {x y : Msg} (h : info.heir x = some y) :
    (at_ info x).isSome := by
  obtain ⟨f, hf, -⟩ := at_of_heir h
  rw [hf]
  rfl

theorem heir_eq_none {info : HeirTree} {x : Msg} : info.heir x = none ↔ at_ info x = none :=
  Option.map_eq_none_iff

theorem OneHeir.family {info : HeirTree} (hone : info.OneHeir) {x : Msg} {f : HeirFamily}
    (h : at_ info x = some f) :
    f.family.subMessages = [f.back] ∧ f.back.depth = 0 ∧ f.family.baseMessages = [] :=
  hone x (mem_allKeys_iff.2 (by rw [h]; rfl)) f h

theorem ChainsWithin.all {info : HeirTree} {N : ℕ} (h : info.ChainsWithin N) (x : Msg) :
    stepsOn info.heir (N + 1) x = none := by
  by_cases hx : x ∈ allKeys info
  · exact h x hx
  · refine stepsOn_of_none (heir_eq_none.2 ?_) N
    rw [mem_allKeys_iff, Option.not_isSome_iff_eq_none] at hx
    exact hx

/-- A message that is still there is read as it was. -/
theorem getMessageChildren_eq {direct info : HeirTree} {c : InheritanceMsgHeader} {g : HeirFamily}
    (h : at_ direct c.key = some g) (hinfo : at_ info c.key = some g) :
    direct.getMessageChildren c.protocol c.header =
      info.getMessageChildren c.protocol c.header := by
  unfold InheritanceMsgHeader.key at h hinfo
  unfold getMessageChildren
  rw [h, hinfo]

theorem getMessageChildren_of_none {direct : HeirTree} {c : InheritanceMsgHeader}
    (h : at_ direct c.key = none) : direct.getMessageChildren c.protocol c.header = [] := by
  unfold InheritanceMsgHeader.key at h
  unfold getMessageChildren
  rw [h]

end HeirTree

namespace Making

/-- What is true whenever the loop is between two messages: no family in the direct heir tree
    has changed, and those that left it have all their descendants. -/
structure Sound (info : HeirTree) (st : Making) : Prop where
  direct : ∀ x f, at_ st.direct x = some f → at_ info x = some f
  left : ∀ x g, at_ st.aTo x = some g → at_ st.direct x = none
  descendants : ∀ x g, at_ st.aTo x = some g →
    g.subMessages.map InheritanceMsgHeader.place = (info.descendants x).zipIdx
  noBases : ∀ x g, at_ st.aTo x = some g → g.baseMessages = []
  cover : ∀ x, (at_ info x).isSome → (at_ st.direct x).isSome ∨ (at_ st.aTo x).isSome
  closed : ∀ x y, (at_ st.aTo x).isSome → info.heir x = some y → (at_ st.aTo y).isSome
  leaf : ∀ x g, at_ st.aTo x = some g → info.heir x = none →
    ∃ z f, at_ info z = some f ∧ f.back.key = x ∧ g.version = f.back.header.version
  named : ∀ x g c, at_ st.aTo x = some g → c ∈ g.subMessages →
    ∃ z f, at_ info z = some f ∧ c = { f.back with depth := c.depth }
  peopled : Peopled st.aTo

/-- What the circles have left to do: `todo` are the messages the present circle still has to
    come to, least first. -/
structure Ahead (info : HeirTree) (todo : List Msg) (st : Making) : Prop where
  sorted : todo.Pairwise Precedes
  height : ∀ x, (at_ st.direct x).isSome → st.depth < (info.descendants x).length
  visited : ∀ x, (at_ st.direct x).isSome → x ∉ todo →
    st.depth + 1 < (info.descendants x).length
  early : ∀ x, (at_ st.direct x).isSome → info.Early x → st.depth = 0 ∧ x ∈ todo
  short : (∀ x, (info.descendants x).length ≤ 2) → st.invalid = []
  long : ∀ x, info.Early x → (info.descendants x).length = 3 → at_ st.direct x = none →
    st.invalid ≠ []

theorem childrenOfMyChild_eq (t : GenealogyTree) (c : InheritanceMsgHeader) :
    ((at_ (alterAt t c.key fun o => some (o.getD (.ofHeader c.header))) c.key).map
      MsgFamily.subMessages).getD [] = ((at_ t c.key).map MsgFamily.subMessages).getD [] := by
  rw [at_alterAt_self]
  cases at_ t c.key <;> rfl

/-- What `finish` does to the two trees. -/
theorem finish_aTo {x : Msg} {f : HeirFamily} {st : Making} (hx : at_ st.aTo x = none)
    (hxc : f.back.key ≠ x) (y : Msg) :
    at_ (st.finish x f).aTo y =
      if y = x then
        some (f.family.putChildrenOfChild
          (((at_ st.aTo f.back.key).map MsgFamily.subMessages).getD []))
      else if y = f.back.key then some ((at_ st.aTo y).getD (.ofHeader f.back.header))
      else at_ st.aTo y := by
  have hnone : at_ (alterAt st.aTo f.back.key fun o => some (o.getD (.ofHeader f.back.header))) x =
      none := by
    rw [at_alterAt_of_ne _ _ (Ne.symm hxc), hx]
  unfold finish
  dsimp only
  rw [at_alterAt, hnone, childrenOfMyChild_eq]
  by_cases hy : y = x
  · rw [if_pos hy, if_pos hy]
    rfl
  · rw [if_neg hy, if_neg hy, at_alterAt]
    by_cases hyc : y = f.back.key
    · rw [if_pos hyc, if_pos hyc, hyc]
    · rw [if_neg hyc, if_neg hyc]

/-- A message of the tree after `finish` is the one finished, was there before, or is the
    child, made because it was not. -/
theorem finish_cases {x : Msg} {f : HeirFamily} {st : Making} {family : MsgFamily}
    (hx : at_ st.aTo x = none) (hxc : f.back.key ≠ x)
    (hput : f.family.putChildrenOfChild
      (((at_ st.aTo f.back.key).map MsgFamily.subMessages).getD []) = family)
    (y : Msg) (g : MsgFamily) (h : at_ (st.finish x f).aTo y = some g) :
    y = x ∧ g = family ∨ at_ st.aTo y = some g ∨
      y = f.back.key ∧ at_ st.aTo y = none ∧ g = .ofHeader f.back.header := by
  rw [finish_aTo hx hxc, hput] at h
  split_ifs at h with h1 h2
  · exact .inl ⟨h1, (Option.some.inj h).symm⟩
  · cases hy : at_ st.aTo y with
    | none => rw [hy] at h; exact .inr (.inr ⟨h2, rfl, (Option.some.inj h).symm⟩)
    | some g' => rw [hy] at h; exact .inr (.inl h)
  · exact .inr (.inl h)

theorem finish_direct_self (x : Msg) (f : HeirFamily) (st : Making) :
    at_ (st.finish x f).direct x = none := at_alterAt_self ..

theorem finish_direct_of_ne {x y : Msg} (h : y ≠ x) (f : HeirFamily) (st : Making) :
    at_ (st.finish x f).direct y = at_ st.direct y := at_alterAt_of_ne _ _ h

theorem direct_of_finish {st : Making} {x y : Msg} {f g : HeirFamily}
    (h : at_ (st.finish x f).direct y = some g) : y ≠ x ∧ at_ st.direct y = some g := by
  by_cases hy : y = x
  · rw [hy, finish_direct_self] at h
    cases h
  · exact ⟨hy, by rw [← h, finish_direct_of_ne hy]⟩

/-- Of a child that is not in the direct heir tree all descendants are known. -/
theorem Sound.children {info : HeirTree} {st : Making} (hst : st.Sound info) {c : Msg}
    (hc : at_ st.direct c = none) :
    (((at_ st.aTo c).map MsgFamily.subMessages).getD []).map InheritanceMsgHeader.place =
      (info.descendants c).zipIdx := by
  cases haTo : at_ st.aTo c with
  | some g => exact hst.descendants c g haTo
  | none =>
    have hleaf : info.heir c = none := by
      rw [HeirTree.heir_eq_none, ← Option.not_isSome_iff_eq_none]
      intro hinfo
      rcases hst.cover c hinfo with h | h
      · rw [hc] at h; cases h
      · rw [haTo] at h; cases h
    rw [HeirTree.descendants, chain_of_none hleaf]
    rfl

theorem visit_cases (x : Msg) (st : Making) :
    (at_ st.direct x = none ∧ st.visit x = st) ∨ ∃ f, at_ st.direct x = some f ∧
      (st.direct.getMessageChildren f.back.protocol f.back.header ≠ [] ∧ st.visit x = st ∨
        st.direct.getMessageChildren f.back.protocol f.back.header = [] ∧
          st.visit x = st.finish x f) := by
  unfold visit
  cases hx : at_ st.direct x with
  | none => exact .inl ⟨rfl, rfl⟩
  | some f =>
    refine .inr ⟨f, rfl, ?_⟩
    cases hl : st.direct.getMessageChildren f.back.protocol f.back.header with
    | nil => exact .inr ⟨rfl, by simp [hl]⟩
    | cons c l => exact .inl ⟨List.cons_ne_nil c l, by simp [hl]⟩

section Circles

variable {info : HeirTree} (hone : info.OneHeir)
  (hchains : info.ChainsWithin maxInheritanceDepth)
include hchains

theorem descendants_of_heir {x : Msg} {f : HeirFamily} (h : at_ info x = some f) :
    info.descendants x = f.back.key :: info.descendants f.back.key :=
  chain_of_some hchains.all (HeirTree.heir_of_at h)

include hone in
/-- The family a message is finished with. -/
theorem finish_family {x : Msg} {f : HeirFamily} (hf : at_ info x = some f)
    {l : List InheritanceMsgHeader}
    (hl : l.map InheritanceMsgHeader.place = (info.descendants f.back.key).zipIdx) :
    f.family.putChildrenOfChild l = { f.family with
        subMessages := f.back :: l.map fun c => { c with depth := c.depth + 1 } } ∧
      (f.family.putChildrenOfChild l).subMessages.map InheritanceMsgHeader.place =
        (info.descendants x).zipIdx := by
  obtain ⟨hsub, hdepth, -⟩ := hone.family hf
  have hdepths : l.map InheritanceMsgHeader.depth =
      List.range' 0 (info.descendants f.back.key).length := by
    rw [← List.zipIdx_map_snd, ← hl, List.map_map]
    rfl
  have hput : f.family.putChildrenOfChild l = { f.family with
      subMessages := f.back :: l.map fun c => { c with depth := c.depth + 1 } } := by
    rw [MsgFamily.putChildrenOfChild_eq, hsub]
    · rfl
    · rw [hdepths]
      exact List.pairwise_lt_range'
    · intro c hc
      have hmem : c.depth ∈ List.range' 0 (info.descendants f.back.key).length :=
        hdepths ▸ List.mem_map_of_mem hc
      have hlen : (info.descendants f.back.key).length ≤ maxInheritanceDepth :=
        chain_length_le _ _
      have hlt := (List.mem_range'_1.1 hmem).2
      unfold maxInheritanceDepth at hlen
      omega
    · intro b hb c _
      rw [hsub] at hb
      rw [List.mem_singleton.1 hb, hdepth]
      exact Nat.succ_pos _
  refine ⟨hput, ?_⟩
  rw [hput, List.map_cons, InheritanceMsgHeader.place_farther hl, descendants_of_heir hchains hf,
    List.zipIdx_cons, InheritanceMsgHeader.place, hdepth]

include hone in
/-- Finishing a message whose child has left the direct heir tree. -/
theorem Sound.finish {st : Making} (hst : st.Sound info) {x : Msg} {f : HeirFamily}
    (hf : at_ st.direct x = some f) (hc : at_ st.direct f.back.key = none) :
    (st.finish x f).Sound info := by
  have hinfo := hst.direct x f hf
  have hx : at_ st.aTo x = none := by
    cases h : at_ st.aTo x with
    | none => rfl
    | some g => rw [hst.left x g h] at hf; cases hf
  have hxc : f.back.key ≠ x := by
    intro h
    rw [h, hf] at hc
    cases hc
  obtain ⟨hput, hplace⟩ := finish_family hone hchains hinfo (hst.children hc)
  have hcases := finish_cases hx hxc rfl
  have hisSome : ∀ y, (at_ (st.finish x f).aTo y).isSome ↔
      y = x ∨ y = f.back.key ∨ (at_ st.aTo y).isSome := by
    intro y
    rw [finish_aTo hx hxc]
    split_ifs with h1 h2
    · simp [h1]
    · simp [h2]
    · simp [h1, h2]
  constructor
  case direct => exact fun y g h => hst.direct y g (direct_of_finish h).2
  case left =>
    intro y g h
    by_cases hy : y = x
    · rw [hy]
      exact finish_direct_self ..
    · rw [finish_direct_of_ne hy]
      rcases hcases y g h with ⟨rfl, -⟩ | h | ⟨rfl, -, -⟩
      · exact absurd rfl hy
      · exact hst.left y g h
      · exact hc
  case descendants =>
    intro y g h
    rcases hcases y g h with ⟨rfl, rfl⟩ | h | ⟨rfl, hnone, rfl⟩
    · exact hplace
    · exact hst.descendants y g h
    · have hnil := hst.children hc
      rw [hnone] at hnil
      exact hnil
  case noBases =>
    intro y g h
    rcases hcases y g h with ⟨rfl, rfl⟩ | h | ⟨rfl, -, rfl⟩
    · rw [hput]
      exact (hone.family hinfo).2.2
    · exact hst.noBases y g h
    · rfl
  case cover =>
    intro y hy
    by_cases hyx : y = x
    · exact .inr ((hisSome y).2 (.inl hyx))
    · rw [finish_direct_of_ne hyx]
      exact (hst.cover y hy).imp_right fun h => (hisSome y).2 (.inr (.inr h))
  case closed =>
    intro y z hy hz
    rw [hisSome] at hy ⊢
    rcases hy with rfl | rfl | hy
    · rw [HeirTree.heir_of_at hinfo] at hz
      exact .inr (.inl (Option.some.inj hz).symm)
    · rcases hst.cover f.back.key (HeirTree.isSome_of_heir hz) with h | h
      · rw [hc] at h; cases h
      · exact .inr (.inr (hst.closed _ z h hz))
    · exact .inr (.inr (hst.closed y z hy hz))
  case peopled => exact (hst.peopled.alterAt _ fun _ => rfl).alterAt _ fun _ => rfl
  case leaf =>
    intro y g h hy
    rcases hcases y g h with ⟨rfl, -⟩ | h | ⟨rfl, -, rfl⟩
    · rw [HeirTree.heir_of_at hinfo] at hy
      cases hy
    · exact hst.leaf y g h hy
    · exact ⟨x, f, hinfo, rfl, rfl⟩
  case named =>
    intro y g c h hmem
    rcases hcases y g h with ⟨rfl, rfl⟩ | h | ⟨rfl, -, rfl⟩
    · rw [hput] at hmem
      rcases List.mem_cons.1 hmem with rfl | hmem
      · exact ⟨y, f, hinfo, rfl⟩
      · obtain ⟨b, hb, rfl⟩ := List.mem_map.1 hmem
        cases haTo : at_ st.aTo f.back.key with
        | none => rw [haTo] at hb; cases hb
        | some g =>
          rw [haTo] at hb
          obtain ⟨z, fz, hz, hbz⟩ := hst.named _ g b haTo hb
          exact ⟨z, fz, hz, by rw [hbz]⟩
    · exact hst.named y g c h hmem
    · cases hmem

include hone in
/-- The depth the check of `finish` looks at. -/
theorem finish_invalid {st : Making} (hst : st.Sound info) {x : Msg} {f : HeirFamily}
    (hf : at_ st.direct x = some f) (hc : at_ st.direct f.back.key = none) :
    (st.finish x f).invalid =
      if (info.descendants x).length = st.depth + 1 ∨ (info.descendants x).length = st.depth + 2
      then st.invalid
      else st.invalid ++ [((info.descendants x).length - 1, st.depth)] := by
  have hinfo := hst.direct x f hf
  obtain ⟨-, hplace⟩ := finish_family hone hchains hinfo (hst.children hc)
  have hback : (f.putChildrenOfChild
      (((at_ st.aTo f.back.key).map MsgFamily.subMessages).getD [])).back.depth + 1 =
      (info.descendants x).length := by
    have hdepths := congrArg (List.map Prod.snd) hplace
    rw [List.map_map, List.zipIdx_map_snd] at hdepths
    have hlast := congrArg List.getLast? hdepths
    rw [List.getLast?_map, List.getLast?_range', List.getLast?_eq_some_getLast
      (MsgFamily.putChildrenOfChild_ne_nil f.hasChild _)] at hlast
    have hlen : (info.descendants x).length ≠ 0 := by
      rw [descendants_of_heir hchains hinfo]
      exact Nat.succ_ne_zero _
    rw [if_neg hlen] at hlast
    have hdepth : (f.putChildrenOfChild _).back.depth = _ := Option.some.inj hlast
    rw [hdepth]
    omega
  unfold finish
  dsimp only
  rw [childrenOfMyChild_eq]
  generalize (f.putChildrenOfChild
    (((at_ st.aTo f.back.key).map MsgFamily.subMessages).getD [])).back.depth = d at hback ⊢
  rw [← hback]
  by_cases hd : d = st.depth ∨ d = st.depth + 1
  · rw [if_pos hd, if_pos (by omega)]
  · rw [if_neg hd, if_neg (by omega)]
    rfl

omit hchains in
/-- A message that is finished in the first circle and comes before the present one is gone. -/
theorem Ahead.early_left {x c : Msg} {todo : List Msg} {st : Making}
    (h : st.Ahead info (x :: todo)) (hc : info.Early c) (hlt : Precedes c x) :
    at_ st.direct c = none := by
  rw [← Option.not_isSome_iff_eq_none]
  intro hsome
  rcases List.mem_cons.1 (h.early c hsome hc).2 with rfl | hmem
  · exact Precedes.irrefl c hlt
  · exact hlt.asymm ((List.pairwise_cons.1 h.sorted).1 c hmem)

omit hchains in
/-- A message is finished only when its child has left the direct heir tree. -/
theorem Ahead.child_left (hread : info.Readable) {x : Msg} {todo : List Msg} {st : Making}
    (hst : st.Sound info) (h : st.Ahead info (x :: todo)) {f : HeirFamily}
    (hf : at_ st.direct x = some f)
    (hempty : st.direct.getMessageChildren f.back.protocol f.back.header = []) :
    at_ st.direct f.back.key = none := by
  cases hc : at_ st.direct f.back.key with
  | none => rfl
  | some g =>
    have hg := hst.direct _ g hc
    rw [HeirTree.getMessageChildren_eq hc hg] at hempty
    have hsome : (info.heir f.back.key).isSome := by
      rw [HeirTree.heir_of_at hg]
      rfl
    rcases hread x f (hst.direct x f hf) hsome with hne | ⟨hlt, hearly⟩
    · exact absurd hempty hne
    · rw [h.early_left hearly hlt] at hc
      cases hc

include hone in
/-- One turn of the inner loop. -/
theorem Ahead.visit (hread : info.Readable) {x : Msg} {todo : List Msg} {st : Making}
    (hst : st.Sound info) (h : st.Ahead info (x :: todo)) :
    (st.visit x).Sound info ∧ (st.visit x).Ahead info todo := by
  have hsorted := (List.pairwise_cons.1 h.sorted).2
  rcases visit_cases x st with ⟨hx, hvisit⟩ | ⟨f, hf, ⟨hne, hvisit⟩ | ⟨hempty, hvisit⟩⟩
  · rw [hvisit]
    have hnot : ∀ y, (at_ st.direct y).isSome → y ≠ x := by
      rintro y hy rfl
      rw [hx] at hy
      cases hy
    refine ⟨hst, hsorted, h.height, fun y hy hmem => h.visited y hy ?_, fun y hy he => ?_,
      h.short, h.long⟩
    · exact List.not_mem_cons_of_ne_of_not_mem (hnot y hy) hmem
    · obtain ⟨h0, hmem⟩ := h.early y hy he
      exact ⟨h0, List.mem_of_ne_of_mem (hnot y hy) hmem⟩
  · rw [hvisit]
    have hinfo := hst.direct x f hf
    have hc : (at_ st.direct f.back.key).isSome := by
      rw [Option.isSome_iff_ne_none]
      exact fun hnone => hne (HeirTree.getMessageChildren_of_none hnone)
    refine ⟨hst, hsorted, h.height, fun y hy hmem => ?_, fun y hy he => ?_, h.short, h.long⟩
    · by_cases hyx : y = x
      · rw [hyx, descendants_of_heir hchains hinfo, List.length_cons]
        exact Nat.succ_lt_succ (h.height _ hc)
      · exact h.visited y hy (List.not_mem_cons_of_ne_of_not_mem hyx hmem)
    · obtain ⟨h0, hmem⟩ := h.early y hy he
      refine ⟨h0, List.mem_of_ne_of_mem ?_ hmem⟩
      rintro rfl
      cases he with
      | last hy hlast =>
        rw [HeirTree.heir_of_at hinfo] at hy
        cases hy
        obtain ⟨g, hg⟩ := Option.isSome_iff_exists.1 hc
        rw [HeirTree.heir_of_at (hst.direct _ g hg)] at hlast
        cases hlast
      | step hy hlt he =>
        rw [HeirTree.heir_of_at hinfo] at hy
        cases hy
        rw [h.early_left he hlt] at hc
        cases hc
  · rw [hvisit]
    have hc := h.child_left hread hst hf hempty
    have hinvalid := finish_invalid hone hchains hst hf hc
    have hdirect : ∀ y, (at_ (st.finish x f).direct y).isSome →
        y ≠ x ∧ (at_ st.direct y).isSome := by
      intro y hy
      obtain ⟨g, hg⟩ := Option.isSome_iff_exists.1 hy
      obtain ⟨hyx, hg⟩ := direct_of_finish hg
      exact ⟨hyx, by rw [hg]; rfl⟩
    have hheight : st.depth < (info.descendants x).length := h.height x (by rw [hf]; rfl)
    refine ⟨hst.finish hone hchains hf hc, hsorted, fun y hy => h.height y (hdirect y hy).2,
      fun y hy hmem => ?_, fun y hy he => ?_, fun hshort => ?_, fun y he h3 hy => ?_⟩
    · obtain ⟨hyx, hy⟩ := hdirect y hy
      exact h.visited y hy (List.not_mem_cons_of_ne_of_not_mem hyx hmem)
    · obtain ⟨hyx, hy⟩ := hdirect y hy
      obtain ⟨h0, hmem⟩ := h.early y hy he
      exact ⟨h0, List.mem_of_ne_of_mem hyx hmem⟩
    · rw [hinvalid, if_pos, h.short hshort]
      have hx2 := hshort x
      omega
    · rw [hinvalid]
      by_cases hyx : y = x
      · have h0 : st.depth = 0 := (h.early x (by rw [hf]; rfl) (hyx ▸ he)).1
        rw [hyx] at h3
        rw [if_neg (by omega)]
        exact List.append_ne_nil_of_right_ne_nil _ (List.cons_ne_nil _ _)
      · rw [finish_direct_of_ne hyx] at hy
        split_ifs
        · exact h.long y he h3 hy
        · exact List.append_ne_nil_of_right_ne_nil _ (List.cons_ne_nil _ _)

end Circles

end Making

end UdtKernel
