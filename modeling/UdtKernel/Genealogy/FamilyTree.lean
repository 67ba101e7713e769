import UdtKernel.Genealogy.Circles
import UdtKernel.Genealogy.Parents

set_option autoImplicit false

/-! The tree made of the heirs is a family tree when they can be read in order. -/

namespace UdtKernel
open UdtKernel.Lib UdtKernel.Lib.NestedMap

/-- A tree in which every message has all its descendants, the nearer before the further, and
    all its ancestors, each once. -/
structure IsFamilyTree (info : HeirTree) (tree : GenealogyTree) : Prop where
  messages : ∀ x, (at_ tree x).isSome ↔ info.IsMessage x
  descendants : ∀ x f, at_ tree x = some f → ∀ y d,
    (y, d) ∈ f.subMessages.map InheritanceMsgHeader.place ↔ stepsOn info.heir (d + 1) x = some y
  ancestors : ∀ x f, at_ tree x = some f → ∀ y d,
    (y, d) ∈ f.baseMessages.map InheritanceMsgHeader.place ↔ stepsOn info.heir (d + 1) y = some x
  subNodup : ∀ x f, at_ tree x = some f → (f.subMessages.map InheritanceMsgHeader.key).Nodup
  baseNodup : ∀ x f, at_ tree x = some f → (f.baseMessages.map InheritanceMsgHeader.key).Nodup
  subSorted : ∀ x f, at_ tree x = some f →
    (f.subMessages.map InheritanceMsgHeader.depth).Pairwise (· ≤ ·)

section Filling

variable {aTo : GenealogyTree} {filled : Filled} (h : parentInfo aTo = (true, filled))
include h

theorem filled_tree (x : Msg) : at_ filled.tree x = (at_ aTo x).map fun g =>
    { g with baseMessages := g.baseMessages ++ parrents aTo x } := parentInfoFrom_tree h x

/-- Where nothing was put to the parents before, the families are these. -/
theorem filled_family (hbase : ∀ x g, at_ aTo x = some g → g.baseMessages = []) {x : Msg}
    {f : MsgFamily} (hf : at_ filled.tree x = some f) :
    ∃ g, at_ aTo x = some g ∧ f = { g with baseMessages := parrents aTo x } := by
  rw [filled_tree h] at hf
  obtain ⟨g, hg, rfl⟩ := Option.map_eq_some_iff.1 hf
  exact ⟨g, hg, by rw [hbase x g hg, List.nil_append]⟩

/-- The check of the depths passes when each ancestor stands at the place of its depth. -/
theorem filled_invalid (hbase : ∀ x g, at_ aTo x = some g → g.baseMessages = []) :
    filled.invalid = [] ↔ ∀ x g, at_ aTo x = some g →
      ∀ (i : ℕ) (b : InheritanceMsgHeader), (parrents aTo x)[i]? = some b → b.depth = i := by
  have hinvalid := parentInfoFrom_invalid h
  rw [hinvalid]
  constructor
  · rintro ⟨-, hall⟩ x g hg i b hb
    have hdepth := hall x g hg i b hb
    rw [hbase x g hg, List.length_nil, Nat.zero_add] at hdepth
    exact hdepth
  · refine fun hall => ⟨rfl, fun x g hg i b hb => ?_⟩
    rw [hbase x g hg, List.length_nil, Nat.zero_add]
    exact hall x g hg i b hb

end Filling

theorem InheritanceMsgHeader.map_key {l : List InheritanceMsgHeader} {ys : List Msg}
    (h : l.map place = ys.zipIdx) : l.map key = ys := by
  have hfst := congrArg (List.map Prod.fst) h
  rw [List.map_map, List.zipIdx_map_fst] at hfst
  exact hfst

theorem InheritanceMsgHeader.map_depth {l : List InheritanceMsgHeader} {ys : List Msg}
    (h : l.map place = ys.zipIdx) : l.map depth = List.range' 0 ys.length := by
  have hsnd := congrArg (List.map Prod.snd) h
  rw [List.map_map, List.zipIdx_map_snd] at hsnd
  exact hsnd

section Made

variable {info : HeirTree} (hone : info.OneHeir)
  (hchains : info.ChainsWithin maxInheritanceDepth) (hread : info.Readable) {n : ℕ} {st : Making}
  (hst : createGenealogyTreeFromChildInfo n info = some st)
include hchains

theorem mem_place_iff {x y : Msg} {d : ℕ} {l : List InheritanceMsgHeader}
    (hl : l.map InheritanceMsgHeader.place = (info.descendants x).zipIdx) :
    (y, d) ∈ l.map InheritanceMsgHeader.place ↔ stepsOn info.heir (d + 1) x = some y := by
  rw [hl, List.mk_mem_zipIdx_iff_getElem?, HeirTree.descendants, chain_at hchains.all]

include hone hread hst

theorem made_isSome (x : Msg) : (at_ st.aTo x).isSome ↔ info.IsMessage x := by
  obtain ⟨hempty, ⟨hsound, -, -, -⟩⟩ := Making.create_spec hone hchains hread hst
  have hinfo : ∀ x, (at_ info x).isSome → (at_ st.aTo x).isSome := by
    intro x hx
    rcases hsound.cover x hx with h | h
    · have hmem := Making.mem_keys_of_isSome h
      rw [hempty] at hmem
      cases hmem
    · exact h
  constructor
  · intro hx
    obtain ⟨g, hg⟩ := Option.isSome_iff_exists.1 hx
    cases hheir : info.heir x with
    | some y => exact .inl (HeirTree.isSome_of_heir hheir)
    | none =>
      obtain ⟨z, f, hf, hkey, -⟩ := hsound.leaf x g hg hheir
      exact .inr ⟨z, by rw [HeirTree.heir_of_at hf, hkey]⟩
  · rintro (hx | ⟨y, hy⟩)
    · exact hinfo x hx
    · exact hsound.closed y x (hinfo y (HeirTree.isSome_of_heir hy)) hy

/-- No child of the tree is missing from it. -/
theorem made_parentInfo : ∃ filled, parentInfo st.aTo = (true, filled) := by
  obtain ⟨-, ⟨hsound, -, -, -⟩⟩ := Making.create_spec hone hchains hread hst
  refine parentInfoFrom_ends fun p hp => ?_
  obtain ⟨y, -, hy⟩ := List.mem_flatMap.1 hp
  obtain ⟨g, hg, c, hc, hkey, -⟩ := mem_parrentsOf.1 (show (p.1, p.2) ∈ _ from hy)
  have hstep := (mem_place_iff hchains (hsound.descendants y g hg)).1
    (List.mem_map_of_mem (f := InheritanceMsgHeader.place) hc)
  rw [stepsOn_succ] at hstep
  obtain ⟨z, -, hz⟩ := Option.bind_eq_some_iff.1 hstep
  rw [← hkey]
  exact (made_isSome hone hchains hread hst _).2 (.inr ⟨z, hz⟩)

theorem mem_parrents_made {x y : Msg} {d : ℕ} :
    (y, d) ∈ (parrents st.aTo x).map InheritanceMsgHeader.place ↔
      stepsOn info.heir (d + 1) y = some x := by
  obtain ⟨-, ⟨hsound, -, -, -⟩⟩ := Making.create_spec hone hchains hread hst
  rw [List.mem_map]
  constructor
  · rintro ⟨b, hb, hplace⟩
    obtain ⟨z, g, hg, c, hc, hkey, rfl⟩ := mem_parrents.1 hb
    cases hplace
    have hmem := List.mem_map_of_mem (f := InheritanceMsgHeader.place) hc
    have hstep := (mem_place_iff hchains (hsound.descendants z g hg)).1 hmem
    rw [hkey] at hstep
    exact hstep
  · intro hstep
    have hy : info.IsMessage y := by
      cases hheir : info.heir y with
      | none => rw [stepsOn_of_none hheir] at hstep; cases hstep
      | some z => exact .inl (HeirTree.isSome_of_heir hheir)
    obtain ⟨g, hg⟩ := Option.isSome_iff_exists.1 ((made_isSome hone hchains hread hst y).2 hy)
    obtain ⟨c, hc, hplace⟩ := List.mem_map.1
      ((mem_place_iff hchains (hsound.descendants y g hg)).2 hstep)
    cases hplace
    exact ⟨_, mem_parrents.2 ⟨y, g, hg, c, hc, rfl, rfl⟩, rfl⟩

theorem made_parrents_sorted (x : Msg) :
    ((parrents st.aTo x).map InheritanceMsgHeader.key).Pairwise Precedes := by
  obtain ⟨-, ⟨hsound, -, -, -⟩⟩ := Making.create_spec hone hchains hread hst
  refine parrents_sorted (fun y g hg => ?_) x
  rw [InheritanceMsgHeader.map_key (hsound.descendants y g hg)]
  exact (List.nodup_cons.1 (chain_nodup hchains.all y)).2

/-- Where no version hides an heir, whatever the order of the headers, the direct heir tree
    is used up, and every message has its descendants and its ancestors. -/
theorem isFamilyTree_of_readable {filled : Filled} (hfilled : parentInfo st.aTo = (true, filled)) :
    st.direct.keys = [] ∧ IsFamilyTree info filled.tree := by
  obtain ⟨hempty, ⟨hsound, -, -, -⟩⟩ := Making.create_spec hone hchains hread hst
  have hfamily := fun x f => filled_family hfilled hsound.noBases (x := x) (f := f)
  refine ⟨hempty, fun x => ?_, fun x f hf y d => ?_, fun x f hf y d => ?_, fun x f hf => ?_,
    fun x f hf => ?_, fun x f hf => ?_⟩
  · rw [filled_tree hfilled, Option.isSome_map, made_isSome hone hchains hread hst]
  · obtain ⟨g, hg, rfl⟩ := hfamily x f hf
    exact mem_place_iff hchains (hsound.descendants x g hg)
  · obtain ⟨g, hg, rfl⟩ := hfamily x f hf
    exact mem_parrents_made hone hchains hread hst
  · obtain ⟨g, hg, rfl⟩ := hfamily x f hf
    change (g.subMessages.map _).Nodup
    rw [InheritanceMsgHeader.map_key (hsound.descendants x g hg)]
    exact (List.nodup_cons.1 (chain_nodup hchains.all x)).2
  · obtain ⟨g, hg, rfl⟩ := hfamily x f hf
    refine (made_parrents_sorted hone hchains hread hst x).imp fun hlt heq => ?_
    rw [heq] at hlt
    exact Precedes.irrefl _ hlt
  · obtain ⟨g, hg, rfl⟩ := hfamily x f hf
    change (g.subMessages.map _).Pairwise _
    rw [InheritanceMsgHeader.map_depth (hsound.descendants x g hg)]
    exact List.Pairwise.imp Nat.le_of_lt List.pairwise_lt_range'

end Made

end UdtKernel
