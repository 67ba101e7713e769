import UdtKernel.Senders.Awake

set_option autoImplicit false

/-! What becomes of the packets that the buffers took. -/

namespace UdtKernel.Senders
open UdtKernel.Lib

/-- The packets that a sender has taken and not yet brought to an end, as they were accepted. -/
def Place.hand : Place → List UserData
  | .started | .chosen _ | .next _ _ => []
  | .begun _ data | .looping _ _ data => data.map Packet.data
  | .sending _ _ _ data _ => data.map Item.accepted

/-- The reports that a sender has not yet passed on. -/
def Place.fails : Place → List FailSend
  | .sending _ _ _ _ fails => fails
  | .started | .chosen _ | .begun _ _ | .looping _ _ _ | .next _ _ => []

def Outcome.isSent : Outcome → Bool
  | .sent _ => true
  | .failed _ _ | .refused _ _ | .dropped | .closed _ => false

namespace State

def outcomesOf (s : State) (d : Descriptor) : List (UserData × Outcome) :=
  s.outcomes.filterMap fun o => if o.1 = d then some o.2 else none

/-- The packets that `MSend` took for a descriptor, in this order. -/
def sentTo (s : State) (d : Descriptor) : List UserData :=
  ((s.outcomesOf d).filter fun o => o.2.isSent).map Prod.fst

def stored (s : State) (d : Descriptor) : List UserData :=
  ((s.managers d).map fun m => m.data.map Packet.data).getD []

/-- The packets for a descriptor that are not in its buffer are in one hand, or are through. -/
structure Accounts (s : State) (d : Descriptor) (hand : List UserData) : Prop where
  held : ∀ t p, s.running.find t = some p → p.works = some d → p.hand = hand
  idle : (∀ t, ¬ s.WorksOn t d) → hand = []
  all : (s.accepted d).Perm ((s.outcomesOf d).map Prod.fst ++ hand ++ s.stored d)
  order : (s.sentTo d ++ hand ++ s.stored d).Sublist (s.accepted d)

variable {s s' : State} {d : Descriptor} {t : ℕ}

theorem outcomesOf_conclude_self (l : List (UserData × Outcome)) :
    (s.conclude d l).outcomesOf d = s.outcomesOf d ++ l := by
  unfold outcomesOf conclude
  simp [List.filterMap_append, List.filterMap_map]

theorem outcomesOf_conclude_of_ne {d' : Descriptor} (h : d ≠ d') (l : List (UserData × Outcome)) :
    (s.conclude d' l).outcomesOf d = s.outcomesOf d := by
  unfold outcomesOf conclude
  simp [List.filterMap_append, List.filterMap_map, h.symm]

theorem stored_congr (h : s'.managers d = s.managers d) : s'.stored d = s.stored d := by
  unfold stored
  rw [h]

/-- Nothing that the account of a descriptor is about changes. -/
structure Kept (s s' : State) (d : Descriptor) : Prop where
  places : ∀ t p, p.works = some d → (s'.running.find t = some p ↔ s.running.find t = some p)
  accepted : s'.accepted d = s.accepted d
  outcomes : s'.outcomesOf d = s.outcomesOf d
  stored : s'.stored d = s.stored d

theorem Kept.refl : s.Kept s d := ⟨fun _ _ _ => Iff.rfl, rfl, rfl, rfl⟩

theorem Kept.trans {s'' : State} (h : s.Kept s' d) (h' : s'.Kept s'' d) : s.Kept s'' d :=
  ⟨fun t p hp => (h'.places t p hp).trans (h.places t p hp), h'.accepted.trans h.accepted,
    h'.outcomes.trans h.outcomes, h'.stored.trans h.stored⟩

theorem Accounts.congr {hand : List UserData} (h : s.Accounts d hand) (hkept : s.Kept s' d) :
    s'.Accounts d hand := by
  have hsent : s'.sentTo d = s.sentTo d := by
    unfold sentTo
    rw [hkept.outcomes]
  refine ⟨fun t p hp hw => ?_, fun hno => h.idle fun t ⟨p, hp, hw⟩ => ?_, ?_, ?_⟩
  · exact h.held t p ((hkept.places t p hw).1 hp) hw
  · exact hno t ⟨p, (hkept.places t p hw).2 hp, hw⟩
  · rw [hkept.accepted, hkept.outcomes, hkept.stored]
    exact h.all
  · rw [hkept.accepted, hsent, hkept.stored]
    exact h.order

theorem kept_of_find (hbefore : ∀ p, s.running.find t = some p → p.works ≠ some d)
    (hafter : ∀ p, s'.running.find t = some p → p.works ≠ some d)
    (hrest : ∀ t', t' ≠ t → s'.running.find t' = s.running.find t')
    (haccepted : s'.accepted = s.accepted) (houtcomes : s'.outcomes = s.outcomes)
    (hmanagers : s'.managers = s.managers) : s.Kept s' d := by
  refine ⟨fun t' p hw => ?_, by rw [haccepted], ?_, ?_⟩
  · by_cases heq : t' = t
    · rw [heq]
      exact ⟨fun hp => absurd hw (hafter p hp), fun hp => absurd hw (hbefore p hp)⟩
    · rw [hrest t' heq]
  · unfold outcomesOf
    rw [houtcomes]
  · unfold stored
    rw [hmanagers]

theorem kept_setPlace {p : Place} (hbefore : ∀ p', s.running.find t = some p' → p'.works ≠ some d)
    (hafter : p.works ≠ some d) : s.Kept (s.setPlace t p) d := by
  refine kept_of_find hbefore (fun p' hp' => ?_) (fun t' ht' => find_setPlace_of_ne ht' p) rfl rfl
    rfl
  rw [find_setPlace_self] at hp'
  exact Option.some.inj hp' ▸ hafter

theorem kept_end (hbefore : ∀ p', s.running.find t = some p' → p'.works ≠ some d) :
    s.Kept (s.end_ t) d := by
  refine kept_of_find hbefore (fun p' hp' => ?_) (fun t' ht' => find_end_of_ne ht') rfl rfl rfl
  rw [find_end, if_pos rfl] at hp'
  cases hp'

theorem kept_conclude {d' : Descriptor} (h : d ≠ d') (l : List (UserData × Outcome)) :
    s.Kept (s.conclude d' l) d :=
  ⟨fun _ _ _ => Iff.rfl, rfl, outcomesOf_conclude_of_ne h l, rfl⟩

theorem kept_setManager {d' : Descriptor} (h : d ≠ d') (currentSm : ℕ) (m : Buffering) :
    s.Kept (s.setManager d' currentSm m) d := by
  exact ⟨fun _ _ _ => Iff.rfl, rfl, rfl, stored_congr (same_setManager h currentSm m).managers⟩

theorem kept_note (fails : List FailSend) : s.Kept (s.note fails) d := by
  unfold State.note
  split_ifs
  · exact Kept.refl
  · exact ⟨fun _ _ _ => Iff.rfl, rfl, rfl, rfl⟩

/-- What a thread does is without meaning for the descriptors that its place is not about. -/
theorem kept_went {p : Place} (hp : s.running.find t = some p) (hwent : s.Went t p s')
    (hdesc : p.desc ≠ some d) : s.Kept s' d := by
  have hold : ∀ q, s.running.find t = some q → q.works ≠ some d := by
    intro q hq hw
    obtain rfl := Option.some.inj (hp.symm.trans hq)
    exact hdesc (p.desc_of_works hw)
  have hne : ∀ d', p.desc = some d' → d ≠ d' := by
    rintro d' hd' rfl
    exact hdesc hd'
  cases hwent with
  | chosen h =>
    exact kept_of_find hold (fun p' hp' => by
        rw [find_setPlace_self] at hp'
        obtain rfl := Option.some.inj hp'
        exact fun hw => by cases hw) (fun t' ht' => find_setPlace_of_ne ht' _) rfl rfl rfl
  | nothing h => exact kept_end hold
  | unchosen desc => exact kept_end hold
  | taken currentSm hm hdata =>
    exact (kept_setManager (hne _ rfl) _ _).trans (kept_setPlace hold hdesc)
  | entered desc isConsumer data => exact kept_setPlace hold hdesc
  | dropped data h => exact (kept_conclude (hne _ rfl) _).trans (kept_end hold)
  | filled filling desc data =>
    exact (kept_conclude (hne _ rfl) _).trans (kept_setPlace hold hdesc)
  | unfilled desc data => exact kept_setPlace hold hdesc
  | sent desc isConsumer isNotClosed i rest fails =>
    exact (kept_conclude (hne _ rfl) _).trans (kept_setPlace hold hdesc)
  | failed desc isConsumer isNotClosed isNotClosed' i rest fails error =>
    exact (kept_conclude (hne _ rfl) _).trans (kept_setPlace hold hdesc)
  | noted desc isConsumer isNotClosed fails =>
    refine (kept_note fails).trans (kept_setPlace ?_ hdesc)
    rw [note_running]
    exact hold
  | left isConsumer h => exact kept_end hold
  | emptied currentSm isConsumer hm hempty hdata =>
    exact (kept_setManager (hne _ rfl) _ _).trans (kept_end hold)
  | again currentSm isConsumer hm hdata =>
    exact (kept_setManager (hne _ rfl) _ _).trans (kept_setPlace hold hdesc)

/-- Some packets come into the buffer, some change hands and some come to their end. -/
theorem Accounts.turn {hand hand' n : List UserData} {l : List (UserData × Outcome)}
    (h : s.Accounts d hand)
    (held : ∀ t p, s'.running.find t = some p → p.works = some d → p.hand = hand')
    (idle : (∀ t, ¬ s'.WorksOn t d) → hand' = [])
    (haccepted : s'.accepted d = s.accepted d ++ n)
    (houtcomes : s'.outcomesOf d = s.outcomesOf d ++ l)
    (hperm : (hand ++ s.stored d ++ n).Perm (l.map Prod.fst ++ hand' ++ s'.stored d))
    (hsub : ((l.filter fun o => o.2.isSent).map Prod.fst ++ hand' ++ s'.stored d).Sublist
      (hand ++ s.stored d ++ n)) : s'.Accounts d hand' := by
  refine ⟨held, idle, ?_, ?_⟩
  · rw [haccepted, houtcomes, List.map_append]
    have hfirst := (h.all.append_right n).trans (List.Perm.of_eq
      (by simp only [List.append_assoc] :
        _ = (s.outcomesOf d).map Prod.fst ++ (hand ++ s.stored d ++ n)))
    refine (hfirst.trans (hperm.append_left _)).trans (List.Perm.of_eq ?_)
    simp only [List.append_assoc]
  · have hsent : s'.sentTo d = s.sentTo d ++ (l.filter fun o => o.2.isSent).map Prod.fst := by
      unfold sentTo
      rw [houtcomes, List.filter_append, List.map_append]
    have hlast := h.order.append (List.Sublist.refl n)
    rw [haccepted, hsent]
    refine List.Sublist.trans ?_ hlast
    have hall := hsub.append_left (s.sentTo d)
    simp only [List.append_assoc] at hall ⊢
    exact hall

theorem held_setPlace {p' : Place} (hrun : s'.running = (s.setPlace t p').running)
    (hfree : ∀ t', s.WorksOn t' d → t' = t) :
    ∀ t' q, s'.running.find t' = some q → q.works = some d → q.hand = p'.hand := by
  intro t' q hq hw
  rw [hrun] at hq
  by_cases heq : t' = t
  · rw [heq, find_setPlace_self] at hq
    rw [Option.some.inj hq]
  · rw [find_setPlace_of_ne heq] at hq
    exact absurd (hfree t' ⟨q, hq, hw⟩) heq

theorem idle_setPlace {p' : Place} (hrun : s'.running = (s.setPlace t p').running)
    (hw : p'.works = some d) {hand : List UserData} (hno : ∀ t, ¬ s'.WorksOn t d) : hand = [] := by
  refine absurd ⟨p', ?_, hw⟩ (hno t)
  rw [hrun]
  exact find_setPlace_self t p'

theorem held_end (hrun : s'.running = (s.end_ t).running)
    (hfree : ∀ t', s.WorksOn t' d → t' = t) {hand : List UserData} :
    ∀ t' q, s'.running.find t' = some q → q.works = some d → q.hand = hand := by
  intro t' q hq hw
  rw [hrun] at hq
  by_cases heq : t' = t
  · rw [heq, find_end, if_pos rfl] at hq
    cases hq
  · rw [find_end_of_ne heq] at hq
    exact absurd (hfree t' ⟨q, hq, hw⟩) heq

theorem sublist_of_eq {α : Type} {l l' : List α} (h : l = l') : l.Sublist l' := by
  rw [h]

theorem perm_filter_not {α : Type} (p : α → Prop) [DecidablePred p] (l : List α) :
    l.Perm (l.filter (fun a => p a) ++ l.filter fun a => ¬ p a) := by
  have hperm := List.filter_append_perm (fun a => decide (p a)) l
  simp only [← decide_not] at hperm
  exact hperm.symm

theorem filter_isSent_of_not {l : List (UserData × Outcome)} (h : ∀ o ∈ l, o.2.isSent = false) :
    l.filter (fun o => o.2.isSent) = [] := by
  rw [List.filter_eq_nil_iff]
  intro o ho hsent
  rw [h o ho] at hsent
  cases hsent

theorem stored_of_none (h : s.managers d = none) : s.stored d = [] := by
  unfold stored
  rw [h]
  rfl

theorem stored_of_some {m : Buffering} (h : s.managers d = some m) :
    s.stored d = m.data.map Packet.data := by
  unfold stored
  rw [h]
  rfl

theorem stored_setManager (currentSm : ℕ) (m : Buffering) :
    (s.setManager d currentSm m).stored d = m.data.map Packet.data :=
  stored_of_some (setManager_self d currentSm m)

/-- What a thread has in its hand afterwards, and what came to its end, was in its hand or in the
buffer. -/
theorem Accounts.goes_on {p q : Place} {l : List (UserData × Outcome)}
    (h : s.Accounts d p.hand) (hfree : ∀ t', s.WorksOn t' d → t' = t)
    (hrun : s'.running = (s.setPlace t q).running) (hw : q.works = some d)
    (haccepted : s'.accepted d = s.accepted d) (houtcomes : s'.outcomesOf d = s.outcomesOf d ++ l)
    (hperm : (p.hand ++ s.stored d).Perm (l.map Prod.fst ++ q.hand ++ s'.stored d))
    (hsub : ((l.filter fun o => o.2.isSent).map Prod.fst ++ q.hand ++ s'.stored d).Sublist
      (p.hand ++ s.stored d)) : ∃ hand', s'.Accounts d hand' := by
  refine ⟨q.hand, h.turn (n := []) (held_setPlace hrun hfree) (idle_setPlace hrun hw) ?_ houtcomes
    ?_ ?_⟩
  · rw [haccepted, List.append_nil]
  · rw [List.append_nil]
    exact hperm
  · rw [List.append_nil]
    exact hsub

/-- A thread that goes away leaves nothing in its hand. -/
theorem Accounts.ends {p : Place} {l : List (UserData × Outcome)} (h : s.Accounts d p.hand)
    (hfree : ∀ t', s.WorksOn t' d → t' = t) (hrun : s'.running = (s.end_ t).running)
    (haccepted : s'.accepted d = s.accepted d) (houtcomes : s'.outcomesOf d = s.outcomesOf d ++ l)
    (hperm : (p.hand ++ s.stored d).Perm (l.map Prod.fst ++ s'.stored d))
    (hsub : ((l.filter fun o => o.2.isSent).map Prod.fst ++ s'.stored d).Sublist
      (p.hand ++ s.stored d)) : ∃ hand', s'.Accounts d hand' := by
  refine ⟨[], h.turn (n := []) (held_end hrun hfree) (fun _ => rfl) ?_ houtcomes ?_ ?_⟩
  · rw [haccepted, List.append_nil]
  · rw [List.append_nil, List.append_nil]
    exact hperm
  · rw [List.append_nil, List.append_nil]
    exact hsub

/-- A thread that works on a buffer accounts for what it does. -/
theorem Accounts.went_working (hs : s.Sound) {p : Place} (h : s.Accounts d p.hand)
    (hp : s.running.find t = some p) (hw : p.works = some d) (hwent : s.Went t p s') :
    ∃ hand', s'.Accounts d hand' := by
  have hfree : ∀ t', s.WorksOn t' d → t' = t := fun t' ht' =>
    (hs.desc d).unique t' t ht' ⟨p, hp, hw⟩
  cases hwent with
  | chosen h => cases hw
  | nothing h => cases hw
  | unchosen desc => cases hw
  | taken currentSm hm hdata => cases hw
  | entered desc isConsumer data =>
    exact h.goes_on hfree rfl hw rfl (List.append_nil _).symm (List.Perm.refl _)
      (List.Sublist.refl _)
  | dropped data hno =>
    obtain rfl := Option.some.inj hw
    refine h.ends hfree rfl rfl (outcomesOf_conclude_self _) ?_ ?_
    · simp only [List.map_map]
      exact List.Perm.refl _
    · rw [filter_isSent_of_not (fun o ho => ?_)]
      · exact List.sublist_append_right _ _
      · obtain ⟨p, -, rfl⟩ := List.mem_map.1 ho
        rfl
  | filled filling desc data =>
    obtain rfl := Option.some.inj hw
    refine h.goes_on hfree rfl rfl rfl (outcomesOf_conclude_self _) ?_ ?_
    · refine List.Perm.append_right _ ?_
      have hperm := (perm_filter_not (fun p : Packet => (filling p.data).2 ≠ eNoError)
        data).map Packet.data
      simp only [not_not, List.map_append] at hperm
      simp only [Place.hand, List.map_map]
      exact hperm
    · rw [filter_isSent_of_not (fun o ho => ?_)]
      · refine List.Sublist.append_right ?_ _
        simp only [Place.hand, List.map_map]
        exact List.filter_sublist.map Packet.data
      · obtain ⟨p, -, rfl⟩ := List.mem_map.1 ho
        rfl
  | unfilled desc data =>
    have hsame : (data.map fun p => (⟨p.data, p.data⟩ : Item)).map Item.accepted =
        data.map Packet.data := List.map_map
    refine h.goes_on hfree rfl hw rfl (List.append_nil _).symm (List.Perm.append_right _ ?_)
      (List.Sublist.append_right ?_ _)
    · exact List.Perm.of_eq hsame.symm
    · exact sublist_of_eq hsame
  | sent desc isConsumer isNotClosed i rest fails =>
    obtain rfl := Option.some.inj hw
    exact h.goes_on hfree rfl rfl rfl (outcomesOf_conclude_self _) (List.Perm.refl _)
      (List.Sublist.refl _)
  | failed desc isConsumer isNotClosed isNotClosed' i rest fails error =>
    obtain rfl := Option.some.inj hw
    exact h.goes_on hfree rfl rfl rfl (outcomesOf_conclude_self _) (List.Perm.refl _)
      (List.sublist_cons_self _ _)
  | noted desc isConsumer isNotClosed fails =>
    have hkept := s.kept_note (d := d) fails
    refine h.goes_on (q := .next desc isConsumer) (l := []) hfree ?_ hw hkept.accepted ?_
      (List.Perm.of_eq ?_) (sublist_of_eq ?_)
    · unfold setPlace
      rw [note_running]
    · rw [List.append_nil]
      exact hkept.outcomes
    · exact congrArg (List.append []) hkept.stored.symm
    · exact congrArg (List.append []) hkept.stored
  | left isConsumer hno =>
    obtain rfl := Option.some.inj hw
    exact h.ends hfree rfl rfl (List.append_nil _).symm (List.Perm.refl _) (List.Sublist.refl _)
  | @emptied desc m m' currentSm isConsumer hm hempty hdata =>
    obtain rfl := Option.some.inj hw
    have hsame : s.stored desc = [] := by rw [stored_of_some hm, hempty, List.map_nil]
    have hsame' := s.stored_setManager (d := desc) currentSm m'
    rw [hdata, List.map_nil] at hsame'
    exact h.ends hfree rfl rfl (List.append_nil _).symm (List.Perm.of_eq (hsame.trans hsame'.symm))
      (sublist_of_eq (hsame'.trans hsame.symm))
  | @again desc m m' currentSm isConsumer hm hdata =>
    obtain rfl := Option.some.inj hw
    have hsame' := s.stored_setManager (d := desc) currentSm m'
    rw [hdata, List.map_nil] at hsame'
    have hall : s.stored desc = m.data.map Packet.data ++
        (s.setManager desc currentSm m').stored desc := by
      rw [stored_of_some hm, hsame', List.append_nil]
    exact h.goes_on (q := .looping desc isConsumer m.data) hfree rfl rfl rfl
      (List.append_nil _).symm (List.Perm.of_eq hall) (sublist_of_eq hall.symm)

/-- A thread that has chosen a descriptor takes what is in its buffer, on which nobody works. -/
theorem Accounts.went_chosen (hs' : s'.Sound) {hand : List UserData}
    (h : s.Accounts d hand) (hp : s.running.find t = some (.chosen d))
    (hwent : s.Went t (.chosen d) s') : ∃ hand', s'.Accounts d hand' := by
  have hidle : ∀ q, s.running.find t = some q → q.works ≠ some d := by
    intro q hq hw
    obtain rfl := Option.some.inj (hp.symm.trans hq)
    cases hw
  cases hwent with
  | unchosen desc => exact ⟨hand, h.congr (kept_end hidle)⟩
  | @taken desc m m' currentSm hm hdata =>
    have hworks : ((s.setManager d currentSm m').setPlace t (.begun d m.data)).WorksOn t d :=
      ⟨_, find_setPlace_self t _, rfl⟩
    have hfree : ∀ t', s.WorksOn t' d → t' = t := by
      rintro t' ⟨q, hq, hw⟩
      by_contra heq
      refine heq ((hs'.desc d).unique t' t ⟨q, ?_, hw⟩ hworks)
      exact (find_setPlace_of_ne heq _).trans hq
    have hnone : hand = [] := h.idle fun t' ht' => by
      obtain rfl := hfree t' ht'
      obtain ⟨q, hq, hw⟩ := ht'
      exact hidle q hq hw
    subst hnone
    have hsame' := s.stored_setManager (d := d) currentSm m'
    rw [hdata, List.map_nil] at hsame'
    have hall : s.stored d = m.data.map Packet.data ++ (s.setManager d currentSm m').stored d := by
      rw [stored_of_some hm, hsame', List.append_nil]
    exact Accounts.goes_on (p := .chosen d) (q := .begun d m.data) h hfree rfl rfl rfl
      (List.append_nil _).symm (List.Perm.of_eq hall) (sublist_of_eq hall.symm)

theorem Accounts.went (hs : s.Sound) (hs' : s'.Sound) {hand : List UserData}
    (h : s.Accounts d hand) {p : Place} (hp : s.running.find t = some p)
    (hwent : s.Went t p s') : ∃ hand', s'.Accounts d hand' := by
  by_cases hdesc : p.desc = some d
  · by_cases hw : p.works = some d
    · obtain rfl := h.held t p hp hw
      exact h.went_working hs hp hw hwent
    · cases p with
      | chosen desc =>
        obtain rfl := Option.some.inj hdesc
        exact h.went_chosen hs' hp hwent
      | started => cases hdesc
      | begun desc data => exact absurd hdesc hw
      | looping desc isConsumer data => exact absurd hdesc hw
      | sending desc isConsumer isNotClosed data fails => exact absurd hdesc hw
      | next desc isConsumer => exact absurd hdesc hw
  · exact ⟨hand, h.congr (kept_went hp hwent hdesc)⟩

theorem kept_wake (aBy : Descriptor) (m : Buffering) : s.Kept (s.wake aBy m) d := by
  unfold State.wake
  split_ifs
  · exact ⟨fun _ _ _ => Iff.rfl, rfl, rfl, rfl⟩
  · exact Kept.refl

/-- The packets that `MPut` took are the first ones of those it was called with. -/
theorem take_of_put {m : Buffering} {currentSm : ℕ} {aData taken : List Packet}
    (h : aData = taken ++ (m.put currentSm aData).2) :
    aData.take (aData.length - (m.put currentSm aData).2.length) = taken := by
  have hlength := congrArg List.length h
  rw [List.length_append] at hlength
  have heq : aData.length - (m.put currentSm aData).2.length = taken.length := by omega
  rw [heq]
  nth_rewrite 1 [h]
  exact List.take_left

theorem Accounts.put {aBy : Descriptor} {m : Buffering} {hand : List UserData}
    (h : s.Accounts d hand) (hm : s.managers aBy = some m) (aData : List Packet) :
    (s.take aBy (m.put s.currentSm aData).1.1 (m.put s.currentSm aData).1.2
      (aData.take (aData.length - (m.put s.currentSm aData).2.length))).Accounts d hand := by
  obtain ⟨taken, hdata, hgrew⟩ := m.grew_put s.currentSm aData
  rw [take_of_put hdata]
  by_cases hd : d = aBy
  · subst hd
    obtain ⟨more, hmore, hsame⟩ := hgrew.data
    have hstored : (s.take d (m.put s.currentSm aData).1.1 (m.put s.currentSm aData).1.2
        taken).stored d = s.stored d ++ taken.map Packet.data := by
      rw [stored_of_some hm, ← hsame, ← List.map_append, ← hmore]
      exact s.stored_setManager (d := d) (m.put s.currentSm aData).1.1 (m.put s.currentSm aData).1.2
    refine h.turn (l := []) h.held h.idle (Function.update_self _ _ _) (List.append_nil _).symm
      (List.Perm.of_eq ?_) (sublist_of_eq ?_)
    · rw [hstored, List.append_assoc]
      rfl
    · rw [hstored, ← List.append_assoc]
      rfl
  · exact h.congr ⟨fun _ _ _ => Iff.rfl, Function.update_of_ne hd _ _, rfl,
      stored_congr (same_take hd _ _ taken).managers⟩

theorem Accounts.mSendUserData {hand : List UserData} (h : s.Accounts d hand) {aBy : Descriptor}
    {aData : List Packet} {r : ErrorType × State × List Packet}
    (happly : s.mSendUserData aBy aData = .ok r) : r.2.1.Accounts d hand := by
  unfold State.mSendUserData at happly
  split_ifs at happly
  · cases happly
    exact h
  · cases happly
    exact h
  · unfold State.mPutUserDataToSendFifo at happly
    split at happly
    · cases happly
      exact h
    · next m hm =>
      split_ifs at happly
      cases happly
      exact (h.put hm aData).congr (kept_wake aBy _)

/-- What is in the buffer of a channel is given up with it. -/
theorem Accounts.closed {hand : List UserData} (h : s.Accounts d hand) {aVal : Descriptor}
    {m : Buffering} {r : State} (hm : s.managers aVal = some m)
    (hmanagers : r.managers = Function.update s.managers aVal none)
    (hrunning : r.running = s.running) (haccepted : r.accepted = s.accepted)
    (houtcomes : r.outcomes = s.outcomes) :
    (r.conclude aVal (m.data.map fun p => (p.data, .closed p.data))).Accounts d hand := by
  have hkept : r.outcomesOf d = s.outcomesOf d := by
    unfold outcomesOf
    rw [houtcomes]
  by_cases hd : d = aVal
  · subst hd
    have hstored' : (r.conclude d (m.data.map fun p => (p.data, .closed p.data))).stored d = [] :=
      stored_of_none (by
        change r.managers d = none
        rw [hmanagers, Function.update_self])
    refine h.turn (n := []) (l := m.data.map fun p => (p.data, .closed p.data)) ?_ ?_ ?_ ?_ ?_ ?_
    · intro t p hp
      refine h.held t p ?_
      rw [← hrunning]
      exact hp
    · intro hno
      refine h.idle fun t ht => hno t ?_
      unfold WorksOn at ht ⊢
      rw [← hrunning] at ht
      exact ht
    · rw [List.append_nil]
      exact congrFun haccepted d
    · rw [outcomesOf_conclude_self, hkept]
    · rw [hstored', stored_of_some hm, List.map_map, List.append_nil, List.append_nil]
      exact List.perm_append_comm
    · rw [hstored', filter_isSent_of_not, List.append_nil, List.append_nil]
      · exact List.sublist_append_left _ _
      · intro o ho
        obtain ⟨p, -, rfl⟩ := List.mem_map.1 ho
        rfl
  · refine (h.congr ⟨fun t p _ => ?_, congrFun haccepted d, hkept, stored_congr ?_⟩).congr
      (kept_conclude hd _)
    · rw [hrunning]
    · rw [hmanagers, Function.update_of_ne hd]

theorem Accounts.mRemoveChannelFor {hand : List UserData} (h : s.Accounts d hand)
    (aVal : Descriptor) : (s.mRemoveChannelFor aVal).Accounts d hand := by
  cases hm : s.managers aVal with
  | none =>
    simp only [State.mRemoveChannelFor, State.mRemoveManagerFor, hm, List.map_nil]
    have hkept : s.Kept (({ s with
        operationSendFor := s.operationSendFor.erase aVal } : State).conclude aVal []) d := by
      refine ⟨fun _ _ _ => Iff.rfl, rfl, ?_, rfl⟩
      exact congrArg (fun l => List.filterMap (fun o => if o.1 = d then some o.2 else none) l)
        (List.append_nil s.outcomes)
    exact h.congr (hkept.trans (kept_note _))
  | some m =>
    simp only [State.mRemoveChannelFor, State.mRemoveManagerFor, hm]
    have hclosed := h.closed (r := { s with
      operationSendFor := s.operationSendFor.erase aVal
      managers := Function.update s.managers aVal none }) hm rfl rfl rfl rfl
    exact hclosed.congr (kept_note _)

theorem Accounts.mAddChannelFor {hand : List UserData} (h : s.Accounts d hand)
    (aVal : Descriptor) (limits : ℕ × ℕ) : (s.mAddChannelFor aVal limits).Accounts d hand := by
  unfold State.mAddChannelFor
  split
  · exact h
  · next hm =>
    refine h.congr ⟨fun _ _ _ => Iff.rfl, rfl, rfl, ?_⟩
    by_cases hd : d = aVal
    · rw [hd, stored_of_none hm]
      exact stored_of_some (m := .init limits.1 limits.2) (Function.update_self _ _ _)
    · exact stored_congr (Function.update_of_ne hd _ _)

theorem Accounts.start {hand : List UserData} (h : s.Accounts d hand) (t : ℕ) :
    (s.start t).Accounts d hand := by
  unfold State.start
  split_ifs with hstart
  · refine h.congr (kept_of_find (t := t) (fun p hp => ?_) (fun p hp => ?_)
      (fun t' ht' => find_setPlace_of_ne ht' _) rfl rfl rfl)
    · rw [hstart.2.2] at hp
      cases hp
    · rw [find_setPlace_self] at hp
      obtain rfl := Option.some.inj hp
      exact fun hw => by cases hw
  · exact h

theorem Accounts.step (hs : s.Sound) (hs' : s'.Sound) {hand : List UserData}
    (h : s.Accounts d hand) {op : Step} (happly : Senders.step op s = .ok s') :
    ∃ hand', s'.Accounts d hand' := by
  cases op with
  | addChannel aVal limits =>
    cases happly
    split_ifs
    · exact ⟨hand, h⟩
    · exact ⟨hand, h.mAddChannelFor aVal limits⟩
  | removeChannel aVal =>
    cases happly
    split_ifs
    · exact ⟨hand, h⟩
    · exact ⟨hand, h.mRemoveChannelFor aVal⟩
  | opened aVal type =>
    cases happly
    exact ⟨hand, h.congr ⟨fun _ _ _ => Iff.rfl, rfl, rfl, rfl⟩⟩
  | closed aVal =>
    cases happly
    exact ⟨hand, h.congr ⟨fun _ _ _ => Iff.rfl, rfl, rfl, rfl⟩⟩
  | send aBy aData =>
    obtain ⟨r, hsend, hr⟩ := eq_ok_of_bind happly
    cases hr
    exact ⟨hand, h.mSendUserData hsend⟩
  | start t =>
    cases happly
    exact ⟨hand, h.start t⟩
  | goOn t meeting =>
    cases hp : s.running.find t with
    | none =>
      simp only [Senders.step, State.goOn, hp] at happly
      cases happly
      exact ⟨hand, h⟩
    | some p => exact h.went hs hs' hp (went_of_goOn hp happly)

theorem accounts_init (d : Descriptor) : init.Accounts d [] :=
  ⟨fun t p hp => (by cases hp), fun _ => rfl, List.Perm.refl _, List.Sublist.refl _⟩

end State

/-- In every run each packet that a buffer took is still in it, is in the hand of the one sender
that works for its descriptor, or came to one end; and the packets that `MSend` took, those in the
hand and those in the buffer are in the order in which they came. When no operation is left and no
thread runs, every packet came to its end. -/
theorem run_accounts {ops : List Step} (hused : EveryStep step Used ops .init) :
    ∃ s, runAll step ops .init = .ok s ∧ ∀ d, (∃ hand, s.Accounts d hand) ∧
      (s.pending = 0 → s.running = .empty →
        (s.accepted d).Perm ((s.outcomesOf d).map Prod.fst) ∧
        (s.sentTo d).Sublist (s.accepted d)) := by
  obtain ⟨s, hrun, ⟨hsound, hawake⟩, haccounts⟩ := runAll_of_step
    (I := fun s => (s.Sound ∧ s.Awake) ∧ ∀ d, ∃ hand, s.Accounts d hand) (fun s op h hop => by
      obtain ⟨s', happly, hsound⟩ := h.1.1.step hop
      refine ⟨s', happly, ⟨hsound, h.1.2.step happly⟩, fun d => ?_⟩
      obtain ⟨hand, haccounts⟩ := h.2 d
      exact haccounts.step h.1.1 hsound happly)
    ⟨⟨State.sound_init, Nat.le_refl 0⟩, fun d => ⟨[], State.accounts_init d⟩⟩ hused
  refine ⟨s, hrun, fun d => ⟨haccounts d, fun hpending hrunning => ?_⟩⟩
  obtain ⟨hand, hall⟩ := haccounts d
  have hnone : hand = [] := hall.idle fun t ⟨p, hp, _⟩ => by
    rw [hrunning] at hp
    cases hp
  have hempty : s.stored d = [] := by
    cases hm : s.managers d with
    | none => exact State.stored_of_none hm
    | some m =>
      rw [State.stored_of_some hm, State.data_of_quiet hsound hawake hpending hrunning hm]
      rfl
  have hperm := hall.all
  have horder := hall.order
  rw [hnone, hempty, List.append_nil, List.append_nil] at hperm horder
  exact ⟨hperm, horder⟩

theorem run_accounts_quietRun : ∃ s, runAll step quietRun .init = .ok s ∧
    ∀ d, (∃ hand, s.Accounts d hand) ∧
      (s.pending = 0 → s.running = .empty →
        (s.accepted d).Perm ((s.outcomesOf d).map Prod.fst) ∧
        (s.sentTo d).Sublist (s.accepted d)) :=
  run_accounts (by decide +kernel)

end UdtKernel.Senders
