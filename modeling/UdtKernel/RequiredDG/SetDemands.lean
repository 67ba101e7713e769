import UdtKernel.RequiredDG.Recompute

set_option autoImplicit false

/-! What a new list of demands makes of the table. -/

namespace UdtKernel.RequiredDG
open UdtKernel.Lib UdtKernel.Address

variable {swap : SwapHeader}

/-- Of different demands only one is erased. -/
theorem eraseP_isEqual {l : List DemandDg} (h : l.Pairwise fun d e => d.isEqual e = false)
    (d : DemandDg) : l.eraseP (·.isEqual d) = l.filter fun o => !o.isEqual d := by
  induction l with
  | nil => rfl
  | cons x l ih =>
    obtain ⟨hx, hl⟩ := List.pairwise_cons.1 h
    cases hxd : x.isEqual d with
    | false => rw [List.eraseP_cons_of_neg (by simp [hxd]), List.filter_cons_of_pos (by simp [hxd]),
        ih hl]
    | true =>
      rw [List.eraseP_cons, hxd, cond_true, List.filter_cons_of_neg (by simp [hxd])]
      refine (List.filter_eq_self.2 fun y hy => ?_).symm
      cases hyd : y.isEqual d with
      | false => rfl
      | true =>
        have hxy := hx y hy
        rw [DemandDg.isEqual_trans hxd (DemandDg.isEqual_symm hyd)] at hxy
        cases hxy

theorem foldr_diffTurn {old new : List DemandDg}
    (hold : old.Pairwise fun d e => d.isEqual e = false)
    (hnew : new.Pairwise fun d e => d.isEqual e = false) :
    new.foldr diffTurn (old, []) = (old.filter fun o => !new.any fun d => o.isEqual d,
      new.filter fun d => !old.any fun o => o.isEqual d) := by
  induction new with
  | nil => simp
  | cons d ns ih =>
    obtain ⟨hd, hns⟩ := List.pairwise_cons.1 hnew
    -- what is equal to `d` is equal to none of the others
    have hother : ∀ o : DemandDg, o.isEqual d = true → (ns.any fun e => o.isEqual e) = false := by
      intro o ho
      rw [List.any_eq_false]
      intro e he hoe
      have hde := hd e he
      rw [DemandDg.isEqual_trans (DemandDg.isEqual_symm ho) hoe] at hde
      cases hde
    rw [List.foldr_cons, ih hns, diffTurn]
    dsimp only
    have hany : ((old.filter fun o => !ns.any fun e => o.isEqual e).any fun o => o.isEqual d) =
        old.any fun o => o.isEqual d := by
      rw [Bool.eq_iff_iff, List.any_eq_true, List.any_eq_true]
      constructor
      · rintro ⟨o, ho, hod⟩
        exact ⟨o, (List.mem_filter.1 ho).1, hod⟩
      · rintro ⟨o, ho, hod⟩
        exact ⟨o, List.mem_filter.2 ⟨ho, by rw [hother o hod]; rfl⟩, hod⟩
    rw [hany, eraseP_isEqual (hold.filter _), List.filter_filter]
    have hfilter : (old.filter fun o => !(d :: ns).any fun e => o.isEqual e) =
        old.filter fun o => !o.isEqual d && !ns.any fun e => o.isEqual e := by
      simp only [List.any_cons, Bool.not_or]
    rw [hfilter]
    cases hod : old.any fun o => o.isEqual d with
    | true => rw [if_pos rfl, List.filter_cons_of_neg (by simp [hod])]
    | false =>
      rw [if_neg Bool.false_ne_true, List.filter_cons_of_pos (by simp [hod])]
      congr 1
      refine List.filter_congr fun o ho => ?_
      rw [Bool.eq_false_iff.2 fun hh => List.any_eq_false.1 hod o ho hh, Bool.not_false,
        Bool.true_and]

/-- The diff of two lists of different demands. -/
theorem getDiffDemandsDG_eq {old : Option (List DemandDg)} {new : List DemandDg}
    (hold : ListOk (old.getD [])) (hnew : ListOk new) :
    getDiffDemandsDG old new =
      ((old.getD []).filter fun o => !new.any fun d => o.isEqual d,
        new.filter fun d => !(old.getD []).any fun o => o.isEqual d) := by
  cases old with
  | none =>
    simp only [getDiffDemandsDG, Option.getD_none, List.filter_nil, List.any_nil, Bool.not_false,
      List.filter_true]
  | some old =>
    have hrev : old.reverse.Pairwise fun d e => d.isEqual e = false :=
      List.pairwise_reverse.2 (hold.different.imp fun {d e} hde => by
        cases hed : e.isEqual d with
        | false => rfl
        | true => rw [DemandDg.isEqual_symm hed] at hde; cases hde)
    simp only [getDiffDemandsDG, Option.getD_some, foldr_diffTurn hrev hnew.different,
      List.any_reverse, List.filter_reverse, List.reverse_reverse]

/-- First triples are lost, then triples are gained, and just these are reported. -/
def Reports (dg : RequiredDG) (s' : Patch) : Prop :=
  ∃ s, Loses ⟨dg, .empty, .empty⟩ s ∧ Gains s s'

/-- What is recorded for a demand is right, or what was recorded for the same one before. -/
def Rerecorded (dg dg' : RequiredDG) : Prop :=
  ∀ r, ∀ d ∈ dg'.getDemandFor r, d.flags.nearest = true →
    dg'.nearestOf r d.handler = leastDepth dg'.ids d ∨
      ∃ o ∈ dg.getDemandFor r, plain o = plain d ∧
        dg'.nearestOf r d.handler = dg.nearestOf r o.handler

theorem Rerecorded.nearest {dg dg' : RequiredDG} (h : Rerecorded dg dg') (hk : Kept swap dg)
    (hids : dg'.ids = dg.ids) (hgen : dg'.msgsGenealogy = dg.msgsGenealogy) :
    ∀ r, ∀ d ∈ dg'.getDemandFor r, d.flags.nearest = true → Live swap dg' d →
      ∀ u, Selected dg'.ids d u → dg'.nearestOf r d.handler = depthOf dg'.ids d u := by
  intro r d hd hn hlive u hsel
  rcases h r d hd hn with heq | ⟨o, ho, hpl, heq⟩
  · rw [heq, leastDepth_of_selected hn hsel]
  · rw [hids] at hsel ⊢
    rw [heq, ← depthOf_plain hpl]
    refine hk.nearest r o ho (by rw [plain_flags hpl]; exact hn) ?_ u
      ((selected_plain hpl _ u).2 hsel)
    rwa [Live, hgen, ← plain_msgsOf hpl] at hlive

theorem getDemandFor_insert (dg : RequiredDG) (r r' : Uuid) (ds : List DemandDg) :
    ({ dg with dgs := dg.dgs.insert r ds } : RequiredDG).getDemandFor r' =
      if r' = r then ds else dg.getDemandFor r' := by
  unfold getDemandFor
  dsimp only
  rw [SortedMap.find_insert]
  split_ifs <;> rfl

theorem getDemandFor_erase (dg : RequiredDG) (r r' : Uuid) :
    ({ dg with dgs := dg.dgs.erase r } : RequiredDG).getDemandFor r' =
      if r' = r then [] else dg.getDemandFor r' := by
  unfold getDemandFor
  dsimp only
  rw [SortedMap.find_erase]
  split_ifs <;> rfl

theorem Base.getDemandFor {dg dg' : RequiredDG} (h : Base dg dg') (r : Uuid) :
    dg'.getDemandFor r = dg.getDemandFor r := by
  unfold RequiredDG.getDemandFor
  rw [h.dgs]

theorem ListOk.plain_ne {ds : List DemandDg} (h : ListOk ds) :
    ds.Pairwise fun d e => plain d ≠ plain e :=
  h.different.imp fun hde heq => by
    rw [plain_isEqual heq] at hde
    cases hde

theorem listOk_nil : ListOk [] := ⟨List.nodup_nil, List.Pairwise.nil⟩

theorem ListOk.filter {ds : List DemandDg} (h : ListOk ds) (p : DemandDg → Bool) :
    ListOk (ds.filter p) :=
  ⟨h.handlers.sublist (List.filter_sublist.map _), h.different.filter p⟩

/-- `removeAllSendersOfMsgsFor` takes all demands of a receiver away. -/
theorem removeAllSendersOfMsgsFor_spec {s : Patch} (hk : Kept swap s.dg) (r : Uuid) :
    ∃ s', removeAllSendersOfMsgsFor swap r s = .ok s' ∧ Kept swap s'.dg ∧
      s'.dg.ids = s.dg.ids ∧ s'.dg.msgsGenealogy = s.dg.msgsGenealogy ∧
      (∀ r', s'.dg.getDemandFor r' = if r' = r then [] else s.dg.getDemandFor r') ∧
      (∀ r' h, r' ≠ r → s'.dg.nearestOf r' h = s.dg.nearestOf r' h) ∧ Loses s s' := by
  unfold removeAllSendersOfMsgsFor
  cases hfind : s.dg.dgs.find r with
  | none =>
    refine ⟨s, rfl, hk, rfl, rfl, fun r' => ?_, fun _ _ _ => rfl, Loses.refl _⟩
    split_ifs with hr
    · rw [hr, getDemandFor, hfind]
      rfl
    · rfl
  | some ds =>
    have hds : s.dg.getDemandFor r = ds := by rw [getDemandFor, hfind]; rfl
    have hlist := hk.lists r
    rw [hds] at hlist
    let dg₀ : RequiredDG := { s.dg with dgs := s.dg.dgs.erase r }
    have hcells₀ : CellsOk swap dg₀ (target s.dg) :=
      hk.cells.congr rfl (fun _ _ _ => rfl) fun _ _ _ _ => Iff.rfl
    obtain ⟨s', hs', hbase, hcells, hnear, hloses⟩ := removeSendersOfMsgFor_spec
      ds (s := { s with dg := dg₀ }) (r := r) hcells₀
      (fun d hd => hk.conformable r d (hds ▸ hd))
      (fun d hd u hsel => ⟨d, hds ▸ hd, rfl, hsel⟩) hlist.plain_ne
    have hdemand : ∀ r', s'.dg.getDemandFor r' = if r' = r then [] else s.dg.getDemandFor r' :=
      fun r' => (hbase.getDemandFor r').trans (getDemandFor_erase s.dg r r')
    refine ⟨s', hs', ⟨fun r' => ?_, fun r' d hd => ?_, ?_, fun r' d hd hn hlive u hsel => ?_⟩,
      hbase.ids, hbase.msgsGenealogy, hdemand, fun r' h hr => hnear r' h fun _ _ hh => hr hh.1,
      (Loses.of_same id rfl rfl (real_congr fun _ _ _ => rfl)).trans hloses⟩
    · rw [hdemand]
      split_ifs
      · exact listOk_nil
      · exact hk.lists r'
    · rw [hdemand] at hd
      rw [hbase.ids]
      split_ifs at hd
      · cases hd
      · exact hk.conformable r' d hd
    · refine hcells.congr rfl (fun _ _ _ => rfl) fun u r' e _ => ?_
      unfold target
      rw [hdemand, hbase.ids]
      by_cases hr : r' = r
      · subst hr
        rw [if_pos rfl]
        constructor
        · rintro ⟨x, hx, -⟩
          cases hx
        · rintro ⟨⟨x, hx, he, hsel⟩, hnot⟩
          exact absurd ⟨rfl, x, hds ▸ hx, he, hsel⟩ hnot
      · simp [hr, dg₀]
    · rw [hdemand] at hd
      rw [hbase.ids] at hsel ⊢
      split_ifs at hd with hr
      · cases hd
      · rw [hnear r' _ fun _ _ hh => hr hh.1]
        exact hk.nearest r' d hd hn (by rwa [Live, hbase.msgsGenealogy] at hlive) u hsel

theorem setDemandsDGFor_eq {dg : RequiredDG} (hk : Kept swap dg) {r : Uuid}
    {new : List DemandDg} (hlist : ListOk new) (hnil : new ≠ []) :
    setDemandsDGFor swap r new dg = (do
      let s ← removeSendersOfMsgFor swap r
        ((dg.getDemandFor r).filter fun o => !new.any fun d => o.isEqual d)
        ⟨{ dg with dgs := dg.dgs.insert r new }, .empty, .empty⟩
      addSendersOfMsgFor swap r
        (new.filter fun d => !(dg.getDemandFor r).any fun o => o.isEqual d) s) := by
  unfold setDemandsDGFor
  rw [if_neg hnil, getDiffDemandsDG_eq (hk.lists r) hlist]
  rfl

/-- The demands that are not among the new ones. -/
def removedDemands (old new : List DemandDg) : List DemandDg :=
  old.filter fun o => !new.any fun d => o.isEqual d

def addedDemands (old new : List DemandDg) : List DemandDg :=
  new.filter fun d => !old.any fun o => o.isEqual d

section
variable {old new : List DemandDg}

theorem mem_removedDemands {o : DemandDg} :
    o ∈ removedDemands old new ↔ o ∈ old ∧ ∀ d ∈ new, o.isEqual d = false := by
  rw [removedDemands, List.mem_filter, Bool.not_eq_true', List.any_eq_false]
  simp

theorem mem_addedDemands {d : DemandDg} :
    d ∈ addedDemands old new ↔ d ∈ new ∧ ∀ o ∈ old, o.isEqual d = false := by
  rw [addedDemands, List.mem_filter, Bool.not_eq_true', List.any_eq_false]
  simp

variable (hsame : ∀ d ∈ new, ∀ o ∈ old, o.isEqual d = true → plain o = plain d)
include hsame

/-- A demand that stays has the same one among the new ones. -/
theorem exists_new_of_stays {o : DemandDg} (ho : o ∈ old) (hnot : o ∉ removedDemands old new) :
    ∃ d ∈ new, d ∉ addedDemands old new ∧ plain o = plain d := by
  have hex : ∃ d ∈ new, o.isEqual d = true := by
    by_contra hno
    exact hnot (mem_removedDemands.2
      ⟨ho, fun d hd => Bool.eq_false_iff.2 fun hh => hno ⟨d, hd, hh⟩⟩)
  obtain ⟨d, hd, hod⟩ := hex
  refine ⟨d, hd, fun hadded => ?_, hsame d hd o ho hod⟩
  rw [(mem_addedDemands.1 hadded).2 o ho] at hod
  cases hod

theorem exists_old_of_stays {d : DemandDg} (hd : d ∈ new) (hnot : d ∉ addedDemands old new) :
    ∃ o ∈ old, o ∉ removedDemands old new ∧ plain o = plain d := by
  have hex : ∃ o ∈ old, o.isEqual d = true := by
    by_contra hno
    exact hnot (mem_addedDemands.2
      ⟨hd, fun o ho => Bool.eq_false_iff.2 fun hh => hno ⟨o, ho, hh⟩⟩)
  obtain ⟨o, ho, hod⟩ := hex
  refine ⟨o, ho, fun hremoved => ?_, hsame d hd o ho hod⟩
  rw [(mem_removedDemands.1 hremoved).2 d hd] at hod
  cases hod

/-- What the new demands ask for is what the old ones ask for, without what the removed ones do
and with what the added ones do. -/
theorem asks_new_iff (hold : ListOk old) {ids : SortedMap Uuid Text} {u : Uuid}
    {e : DemandDg} :
    (∃ d ∈ new, e = plain d ∧ Selected ids d u) ↔
      ((∃ o ∈ old, e = plain o ∧ Selected ids o u) ∧
        ¬ ∃ o ∈ removedDemands old new, e = plain o ∧ Selected ids o u) ∨
      ∃ d ∈ addedDemands old new, e = plain d ∧ Selected ids d u := by
  constructor
  · rintro ⟨d, hd, rfl, hsel⟩
    by_cases hadded : d ∈ addedDemands old new
    · exact .inr ⟨d, hadded, rfl, hsel⟩
    · obtain ⟨o, ho, hnot, hpl⟩ := exists_old_of_stays hsame hd hadded
      refine .inl ⟨⟨o, ho, hpl.symm, (selected_plain hpl _ u).2 hsel⟩, ?_⟩
      rintro ⟨x, hx, hxd, -⟩
      have hxo : x = o := hold.eq_of_isEqual (mem_removedDemands.1 hx).1 ho
        (plain_isEqual (hxd.symm.trans hpl.symm))
      exact hnot (hxo ▸ hx)
  · rintro (⟨⟨o, ho, rfl, hsel⟩, hnot⟩ | ⟨d, hd, rfl, hsel⟩)
    · obtain ⟨d, hd, -, hpl⟩ := exists_new_of_stays hsame ho fun hremoved =>
        hnot ⟨o, hremoved, rfl, hsel⟩
      exact ⟨d, hd, hpl, (selected_plain hpl _ u).1 hsel⟩
    · exact ⟨d, (mem_addedDemands.1 hd).1, rfl, hsel⟩

end

/-- `setDemandsDGFor` on an empty list takes all demands away. -/
theorem setDemandsDGFor_nil_spec {dg : RequiredDG} (hk : Kept swap dg) (r : Uuid) :
    ∃ s', setDemandsDGFor swap r [] dg = .ok s' ∧ Kept swap s'.dg ∧ s'.dg.ids = dg.ids ∧
      s'.dg.msgsGenealogy = dg.msgsGenealogy ∧
      (∀ r', s'.dg.getDemandFor r' = if r' = r then [] else dg.getDemandFor r') ∧
      Rerecorded dg s'.dg ∧ Reports dg s' := by
  obtain ⟨s', hs', hk', hids, hgen, hdemand, hnear, hloses⟩ :=
    removeAllSendersOfMsgsFor_spec (s := ⟨dg, .empty, .empty⟩) hk r
  rw [setDemandsDGFor, if_pos rfl]
  refine ⟨s', hs', hk', hids, hgen, hdemand, fun r' d hd _ => ?_, s', hloses, Gains.refl _⟩
  rw [hdemand] at hd
  split_ifs at hd with hr
  · cases hd
  · exact .inr ⟨d, hd, rfl, hnear r' _ hr⟩

/-- `setDemandsDGFor` on a list whose demands that are not new are unchanged. -/
theorem setDemandsDGFor_spec {dg : RequiredDG} (hk : Kept swap dg) {r : Uuid}
    {new : List DemandDg} (hlist : ListOk new) (hconf : ∀ d ∈ new, AllConformable dg.ids d)
    (hsame : ∀ d ∈ new, ∀ o ∈ dg.getDemandFor r, o.isEqual d = true → plain o = plain d) :
    ∃ s', setDemandsDGFor swap r new dg = .ok s' ∧ Kept swap s'.dg ∧ s'.dg.ids = dg.ids ∧
      s'.dg.msgsGenealogy = dg.msgsGenealogy ∧
      (∀ r', s'.dg.getDemandFor r' = if r' = r then new else dg.getDemandFor r') ∧
      Rerecorded dg s'.dg ∧ Reports dg s' := by
  by_cases hnil : new = []
  · rw [hnil]
    exact setDemandsDGFor_nil_spec hk r
  have heq := setDemandsDGFor_eq hk (r := r) hlist hnil
  generalize hold : dg.getDemandFor r = old at hsame heq
  have holdOk : ListOk old := hold ▸ hk.lists r
  have hremoved : ∀ {o}, o ∈ removedDemands old new → o ∈ old := fun ho =>
    (mem_removedDemands.1 ho).1
  have hadded : ∀ {d}, d ∈ addedDemands old new → d ∈ new := fun hd => (mem_addedDemands.1 hd).1
  let dg₀ : RequiredDG := { dg with dgs := dg.dgs.insert r new }
  have hcells₀ : CellsOk swap dg₀ (target dg) :=
    hk.cells.congr rfl (fun _ _ _ => rfl) fun _ _ _ _ => Iff.rfl
  obtain ⟨s₁, hs₁, hbase₁, hcells₁, hnear₁, hloses⟩ :=
    removeSendersOfMsgFor_spec (removedDemands old new)
      (s := ⟨dg₀, .empty, .empty⟩) (r := r) hcells₀
      (fun d hd => hk.conformable r d (hold ▸ hremoved hd))
      (fun d hd u hsel => ⟨d, hold ▸ hremoved hd, rfl, hsel⟩) (holdOk.filter _).plain_ne
  obtain ⟨s₂, hs₂, hbase₂, hcells₂, hother₂, hnear₂, hgains⟩ :=
    addSendersOfMsgFor_spec (addedDemands old new) (s := s₁) (r := r) hcells₁
      (fun d hd => by rw [hbase₁.ids]; exact hconf d (hadded hd))
      (fun d hd u e he => by
        obtain ⟨⟨o, ho, rfl, hsel⟩, hnot⟩ := he
        rw [hold] at ho
        obtain ⟨n, hn, hnA, hpl⟩ := exists_new_of_stays hsame ho fun hoR =>
          hnot ⟨rfl, o, hoR, rfl, hsel⟩
        intro heq
        have hnd : n = d := hlist.eq_of_handler hn (hadded hd) ((plain_handler hpl).symm.trans heq)
        exact hnA (hnd ▸ hd))
      (hlist.filter _).handlers
  have hrun : setDemandsDGFor swap r new dg = .ok s₂ := by
    rw [heq]
    change removeSendersOfMsgFor swap r (removedDemands old new) _ >>= _ = _
    rw [hs₁]
    exact hs₂
  have hbase := hbase₁.trans hbase₂
  have hdemand : ∀ r', s₂.dg.getDemandFor r' = if r' = r then new else dg.getDemandFor r' :=
    fun r' => (hbase.getDemandFor r').trans (getDemandFor_insert dg r r' new)
  have hrerecorded : Rerecorded dg s₂.dg := by
    intro r' d hd hn
    rw [hdemand] at hd
    rw [hbase.ids]
    split_ifs at hd with hr
    · subst hr
      by_cases hdA : d ∈ addedDemands old new
      · left
        rw [hnear₂ d hdA hn, hbase₁.ids]
      · obtain ⟨o, ho, hoR, hpl⟩ := exists_old_of_stays hsame hd hdA
        refine .inr ⟨o, hold ▸ ho, hpl, ?_⟩
        rw [hother₂ _ _ fun x hx hh => hdA (hlist.eq_of_handler hd (hadded hx) hh.2 ▸ hx),
          ← plain_handler hpl, hnear₁ _ _ fun x hx hh =>
            hoR (holdOk.eq_of_handler ho (hremoved hx) hh.2 ▸ hx)]
        rfl
    · refine .inr ⟨d, hd, rfl, ?_⟩
      rw [hother₂ _ _ fun _ _ hh => hr hh.1, hnear₁ _ _ fun _ _ hh => hr hh.1]
      rfl
  refine ⟨s₂, hrun, ⟨fun r' => ?_, fun r' d hd => ?_, ?_,
    hrerecorded.nearest hk hbase.ids hbase.msgsGenealogy⟩, hbase.ids, hbase.msgsGenealogy,
    hdemand, hrerecorded, s₁,
    (Loses.of_same id rfl rfl (real_congr fun _ _ _ => rfl)).trans hloses, hgains⟩
  · rw [hdemand]
    split_ifs
    · exact hlist
    · exact hk.lists r'
  · rw [hdemand] at hd
    rw [hbase.ids]
    split_ifs at hd
    · exact hconf d hd
    · exact hk.conformable r' d hd
  · refine hcells₂.congr rfl (fun _ _ _ => rfl) fun u r' e _ => ?_
    unfold target
    rw [hdemand, hbase.ids, hbase₁.ids]
    by_cases hr : r' = r
    · rw [if_pos hr, asks_new_iff hsame holdOk, hr, hold]
      simp [dg₀]
    · simp [hr, dg₀]

end UdtKernel.RequiredDG
