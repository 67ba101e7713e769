import UdtKernel.Senders.Account

set_option autoImplicit false

/-! Every packet that was not sent is reported. -/

namespace UdtKernel.Senders
open UdtKernel.Lib

namespace State

def reports (s : State) : List FailSend := s.outcomes.filterMap fun o => o.2.2.report

def fails (s : State) : List FailSend := s.running.values.flatMap Place.fails

def Reported (s : State) : Prop := (s.noted.flatten ++ s.fails).Perm s.reports

variable {s s' : State} {t : ℕ}

theorem fails_setPlace {p : Place} (hp : s.running.find t = some p) (p' : Place) :
    ∃ rest, s.fails.Perm (p.fails ++ rest) ∧ (s.setPlace t p').fails.Perm (p'.fails ++ rest) :=
  ⟨_, SortedMap.flatMap_erase _ hp, SortedMap.flatMap_insert _ _ _ _⟩

theorem fails_end {p : Place} (hp : s.running.find t = some p) :
    s.fails.Perm (p.fails ++ (s.end_ t).fails) := SortedMap.flatMap_erase _ hp

theorem noted_note (fails : List FailSend) :
    (s.note fails).noted.flatten = s.noted.flatten ++ fails := by
  unfold State.note
  split_ifs with h
  · rw [h, List.append_nil]
  · rw [List.flatten_append, List.flatten_singleton]

theorem outcomes_note (fails : List FailSend) : (s.note fails).outcomes = s.outcomes := by
  unfold State.note
  split_ifs <;> rfl

theorem outcomes_wake (aBy : Descriptor) (m : Buffering) :
    (s.wake aBy m).outcomes = s.outcomes := by
  unfold State.wake
  split_ifs <;> rfl

theorem reports_conclude (d : Descriptor) (l : List (UserData × Outcome)) :
    (s.conclude d l).reports = s.reports ++ l.filterMap fun o => o.2.report := by
  unfold reports conclude
  rw [List.filterMap_append, List.filterMap_map]
  rfl

theorem Reported.setPlace (h : s.Reported) {p p' : Place} {l : List FailSend}
    (hp : s.running.find t = some p) (hrunning : s'.running = (s.setPlace t p').running)
    (hnoted : s'.noted = s.noted) (hreports : s'.reports = s.reports ++ l)
    (hfails : p'.fails.Perm (p.fails ++ l)) : s'.Reported := by
  obtain ⟨rest, hbefore, hafter⟩ := fails_setPlace hp p'
  have hsame : s'.fails = (s.setPlace t p').fails := by
    unfold fails
    rw [hrunning]
  unfold Reported at h ⊢
  rw [hnoted, hreports, hsame]
  have hmoved : (s.setPlace t p').fails.Perm (s.fails ++ l) := by
    refine (hafter.trans (hfails.append_right rest)).trans ?_
    rw [List.append_assoc]
    refine (List.perm_append_comm.append_left p.fails).trans ?_
    rw [← List.append_assoc]
    exact hbefore.symm.append_right l
  have hall := hmoved.append_left s.noted.flatten
  rw [← List.append_assoc] at hall
  exact hall.trans (h.append_right l)

theorem Reported.end_ (h : s.Reported) {p : Place} (hp : s.running.find t = some p)
    (hnone : p.fails = []) (hrunning : s'.running = (s.end_ t).running)
    (hnoted : s'.noted = s.noted) (hreports : s'.reports = s.reports) : s'.Reported := by
  have hsame : s'.fails = (s.end_ t).fails := by
    unfold fails
    rw [hrunning]
  have hend := fails_end hp
  rw [hnone, List.nil_append] at hend
  unfold Reported at h ⊢
  rw [hnoted, hreports, hsame]
  exact (hend.symm.append_left _).trans h

theorem filterMap_report_eq_nil {l : List (UserData × Outcome)}
    (h : ∀ o ∈ l, o.2.report = none) : (l.filterMap fun o => o.2.report) = [] :=
  List.filterMap_eq_nil_iff.2 h

theorem Reported.went (h : s.Reported) {p : Place} (hp : s.running.find t = some p)
    (hwent : s.Went t p s') : s'.Reported := by
  have hnil : ∀ l : List FailSend, l = l ++ [] := fun l => (List.append_nil l).symm
  cases hwent with
  | chosen hne => exact h.setPlace hp rfl rfl (hnil _) (List.Perm.refl _)
  | nothing hempty => exact h.end_ hp rfl rfl rfl rfl
  | unchosen desc => exact h.end_ hp rfl rfl rfl rfl
  | taken currentSm hm hdata => exact h.setPlace hp rfl rfl (hnil _) (List.Perm.refl _)
  | entered desc isConsumer data => exact h.setPlace hp rfl rfl (hnil _) (List.Perm.refl _)
  | dropped data hno =>
    refine h.end_ hp rfl rfl rfl ((reports_conclude _ _).trans ?_)
    rw [filterMap_report_eq_nil, List.append_nil]
    intro o ho
    obtain ⟨q, -, rfl⟩ := List.mem_map.1 ho
    rfl
  | filled filling desc data =>
    refine h.setPlace hp rfl rfl (reports_conclude _ _) ?_
    rw [List.filterMap_map]
    exact List.Perm.of_eq (congrFun List.filterMap_eq_map' _).symm
  | unfilled desc data => exact h.setPlace hp rfl rfl (hnil _) (List.Perm.refl _)
  | sent desc isConsumer isNotClosed i rest fails =>
    exact h.setPlace hp rfl rfl (reports_conclude _ _) (List.Perm.of_eq (hnil _))
  | failed desc isConsumer isNotClosed isNotClosed' i rest fails error =>
    exact h.setPlace hp rfl rfl (reports_conclude _ _) (List.Perm.refl _)
  | noted desc isConsumer isNotClosed fails =>
    obtain ⟨rest, hbefore, hafter⟩ := fails_setPlace hp (.next desc isConsumer)
    have hsame : ((s.note fails).setPlace t (.next desc isConsumer)).fails =
        (s.setPlace t (.next desc isConsumer)).fails := by
      unfold State.fails State.setPlace
      rw [note_running]
    unfold Reported at h ⊢
    unfold State.reports at h ⊢
    rw [hsame]
    simp only [State.setPlace]
    rw [noted_note, outcomes_note, List.append_assoc]
    exact ((hafter.append_left fails).trans hbefore.symm).append_left _ |>.trans h
  | left isConsumer hm => exact h.end_ hp rfl rfl rfl rfl
  | emptied currentSm isConsumer hm hempty hdata => exact h.end_ hp rfl rfl rfl rfl
  | again currentSm isConsumer hm hdata =>
    exact h.setPlace hp rfl rfl (hnil _) (List.Perm.refl _)

theorem fails_start (hfree : s.running.find t = none) :
    (s.setPlace t .started).fails.Perm s.fails := by
  have hperm := SortedMap.flatMap_insert Place.fails s.running t .started
  rwa [SortedMap.erase_of_find_none hfree] at hperm

theorem Reported.congr (h : s.Reported) (hfails : s'.fails.Perm s.fails)
    (hnoted : s'.noted = s.noted) (houtcomes : s'.outcomes = s.outcomes) : s'.Reported := by
  unfold Reported reports at h ⊢
  rw [hnoted, houtcomes]
  exact (hfails.append_left _).trans h

theorem Reported.mRemoveChannelFor (h : s.Reported) (aVal : Descriptor) :
    (s.mRemoveChannelFor aVal).Reported := by
  have hclosed : ∀ (s₁ : State) (l : List Packet), s₁.running = s.running → s₁.noted = s.noted →
      s₁.outcomes = s.outcomes →
      ((s₁.conclude aVal (l.map fun p => (p.data, .closed p.data))).note
        (l.map fun p => (FailSend.ofInfo p.data.dataId).setError eSocketClosed)).Reported := by
    intro s₁ l hrunning hnoted houtcomes
    unfold Reported reports fails at h ⊢
    rw [noted_note, outcomes_note, note_running]
    simp only [conclude]
    rw [hnoted, hrunning, houtcomes, List.filterMap_append, List.append_assoc, List.map_map,
      List.filterMap_map]
    refine (List.perm_append_comm.append_left _).trans ?_
    rw [← List.append_assoc]
    exact h.append (List.Perm.of_eq (congrFun List.filterMap_eq_map' l).symm)
  cases hm : s.managers aVal with
  | none =>
    simp only [State.mRemoveChannelFor, State.mRemoveManagerFor, hm]
    exact hclosed _ [] rfl rfl rfl
  | some m =>
    simp only [State.mRemoveChannelFor, State.mRemoveManagerFor, hm]
    exact hclosed _ m.data rfl rfl rfl

theorem Reported.step (h : s.Reported) {op : Step} (happly : Senders.step op s = .ok s') :
    s'.Reported := by
  cases op with
  | addChannel aVal limits =>
    cases happly
    split_ifs
    · exact h
    · unfold State.mAddChannelFor
      split
      · exact h
      · exact h
  | removeChannel aVal =>
    cases happly
    split_ifs
    · exact h
    · exact h.mRemoveChannelFor aVal
  | opened aVal type =>
    cases happly
    exact h
  | closed aVal =>
    cases happly
    exact h
  | send aBy aData =>
    obtain ⟨r, hsend, hr⟩ := eq_ok_of_bind happly
    cases hr
    unfold State.mSendUserData at hsend
    split_ifs at hsend
    · cases hsend
      exact h
    · cases hsend
      exact h
    · unfold State.mPutUserDataToSendFifo at hsend
      split at hsend
      · cases hsend
        exact h
      · split_ifs at hsend
        cases hsend
        unfold State.wake
        split_ifs
        all_goals exact h
  | start t =>
    cases happly
    unfold State.start
    split_ifs with hstart
    · exact h.congr (fails_start hstart.2.2) rfl rfl
    · exact h
  | goOn t meeting =>
    cases hp : s.running.find t with
    | none =>
      simp only [Senders.step, State.goOn, hp] at happly
      cases happly
      exact h
    | some p => exact h.went hp (went_of_goOn hp happly)

/-- The channel of a descriptor is removed for good. -/
def Gone (s : State) (d : Descriptor) : Prop := s.managers d = none ∧ s.added d = true

/-- The packets that nobody reports were for a channel that is removed. -/
def Excused (s : State) : Prop := ∀ d u, (d, u, Outcome.dropped) ∈ s.outcomes → s.Gone d

theorem Gone.setManager {d d' : Descriptor} (h : s.Gone d) {m : Buffering}
    (hm : s.managers d' = some m) (currentSm : ℕ) (m' : Buffering) :
    (s.setManager d' currentSm m').Gone d := by
  refine ⟨?_, h.2⟩
  have hne : d ≠ d' := by
    rintro rfl
    rw [h.1] at hm
    cases hm
  rw [(same_setManager hne currentSm m').managers]
  exact h.1

theorem Gone.note {d : Descriptor} (h : s.Gone d) (fails : List FailSend) :
    (s.note fails).Gone d := by
  unfold State.note
  split_ifs
  · exact h
  · exact h

theorem Gone.went {d : Descriptor} (h : s.Gone d) {p : Place} (hwent : s.Went t p s') :
    s'.Gone d := by
  cases hwent with
  | chosen hne => exact h
  | nothing hempty => exact h
  | unchosen desc => exact h
  | taken currentSm hm hdata => exact h.setManager hm currentSm _
  | entered desc isConsumer data => exact h
  | dropped data hno => exact h
  | filled filling desc data => exact h
  | unfilled desc data => exact h
  | sent desc isConsumer isNotClosed i rest fails => exact h
  | failed desc isConsumer isNotClosed isNotClosed' i rest fails error => exact h
  | noted desc isConsumer isNotClosed fails => exact h.note fails
  | left isConsumer hm => exact h
  | emptied currentSm isConsumer hm hempty hdata => exact h.setManager hm currentSm _
  | again currentSm isConsumer hm hdata => exact h.setManager hm currentSm _

/-- A step ends a packet without a report only when the channel is gone. -/
theorem Excused.went (h : s.Excused) (hs : s.Sound) {p : Place} (hp : s.running.find t = some p)
    (hwent : s.Went t p s') : s'.Excused := by
  have hkeep : ∀ s₁ : State, s₁.outcomes = s.outcomes → (∀ d, s.Gone d → s₁.Gone d) →
      s₁.Excused := by
    intro s₁ houtcomes hgone d u ho
    rw [houtcomes] at ho
    exact hgone d (h d u ho)
  have hmore : ∀ (d' : Descriptor) (l : List (UserData × Outcome)),
      (∀ o ∈ l, o.2 = .dropped → s.Gone d') → (s.conclude d' l).Excused := by
    intro d' l hl d u ho
    rcases List.mem_append.1 ho with ho | ho
    · exact h d u ho
    · obtain ⟨o, hmem, heq⟩ := List.mem_map.1 ho
      cases heq
      exact hl _ hmem rfl
  have hgone : ∀ d, s.Gone d → s'.Gone d := fun d hd => hd.went hwent
  cases hwent with
  | chosen hne => exact hkeep _ rfl hgone
  | nothing hempty => exact hkeep _ rfl hgone
  | unchosen desc => exact hkeep _ rfl hgone
  | taken currentSm hm hdata => exact hkeep _ rfl hgone
  | entered desc isConsumer data => exact hkeep _ rfl hgone
  | @dropped desc data hno =>
    refine hmore desc _ fun o ho _ => ?_
    have hinv := hs.desc desc
    have hworks : s.WorksOn t desc := ⟨_, hp, rfl⟩
    have hclosed := hno (hinv.fits t _ hp rfl).2
    refine ⟨?_, hinv.added t hworks⟩
    by_contra hm
    have hopen := hinv.opened t hworks (Option.isSome_iff_ne_none.2 hm)
    rw [hclosed] at hopen
    cases hopen
  | filled filling desc data =>
    refine hmore desc _ fun o ho heq => ?_
    obtain ⟨q, -, rfl⟩ := List.mem_map.1 ho
    cases heq
  | unfilled desc data => exact hkeep _ rfl hgone
  | sent desc isConsumer isNotClosed i rest fails =>
    refine hmore desc _ fun o ho heq => ?_
    obtain rfl := List.mem_singleton.1 ho
    cases heq
  | failed desc isConsumer isNotClosed isNotClosed' i rest fails error =>
    refine hmore desc _ fun o ho heq => ?_
    obtain rfl := List.mem_singleton.1 ho
    cases heq
  | noted desc isConsumer isNotClosed fails => exact hkeep _ (outcomes_note fails) hgone
  | left isConsumer hm => exact hkeep _ rfl hgone
  | emptied currentSm isConsumer hm hempty hdata => exact hkeep _ rfl hgone
  | again currentSm isConsumer hm hdata => exact hkeep _ rfl hgone

theorem Gone.mAddChannelFor {d aVal : Descriptor} (h : s.Gone d) (hnew : s.added aVal = false)
    (limits : ℕ × ℕ) : (s.mAddChannelFor aVal limits).Gone d := by
  have hne : d ≠ aVal := by
    rintro rfl
    have hadded := h.2
    rw [hnew] at hadded
    cases hadded
  unfold State.mAddChannelFor
  split
  · exact h
  · exact ⟨(Function.update_of_ne hne _ _).trans h.1, (Function.update_of_ne hne _ _).trans h.2⟩

theorem Gone.mRemoveChannelFor {d : Descriptor} (h : s.Gone d) (aVal : Descriptor) :
    (s.mRemoveChannelFor aVal).Gone d := by
  cases hm : s.managers aVal with
  | none =>
    simp only [State.mRemoveChannelFor, State.mRemoveManagerFor, hm]
    refine Gone.note ?_ _
    exact h
  | some m =>
    have hne : d ≠ aVal := by
      rintro rfl
      rw [h.1] at hm
      cases hm
    simp only [State.mRemoveChannelFor, State.mRemoveManagerFor, hm]
    refine Gone.note ?_ _
    exact ⟨(Function.update_of_ne hne _ _).trans h.1, h.2⟩

theorem Excused.mRemoveChannelFor (h : s.Excused) (aVal : Descriptor) :
    (s.mRemoveChannelFor aVal).Excused := by
  have hsub : ∀ (s₁ : State) (l : List Packet) (fails : List FailSend),
      s₁.outcomes = s.outcomes →
      ∀ d u, (d, u, Outcome.dropped) ∈
        ((s₁.conclude aVal (l.map fun p => (p.data, .closed p.data))).note fails).outcomes →
      (d, u, Outcome.dropped) ∈ s.outcomes := by
    intro s₁ l fails houtcomes d u ho
    rw [outcomes_note] at ho
    rcases List.mem_append.1 ho with ho | ho
    · rw [← houtcomes]
      exact ho
    · simp only [List.map_map, List.mem_map] at ho
      obtain ⟨q, -, hq⟩ := ho
      cases hq
  intro d u ho
  refine Gone.mRemoveChannelFor (h d u ?_) aVal
  cases hm : s.managers aVal with
  | none =>
    simp only [State.mRemoveChannelFor, State.mRemoveManagerFor, hm] at ho
    exact hsub _ [] _ (by rfl) d u ho
  | some m =>
    simp only [State.mRemoveChannelFor, State.mRemoveManagerFor, hm] at ho
    exact hsub _ m.data _ (by rfl) d u ho

theorem Excused.step (h : s.Excused) (hs : s.Sound) {op : Step} (hused : Used s op)
    (happly : Senders.step op s = .ok s') : s'.Excused := by
  cases op with
  | addChannel aVal limits =>
    cases happly
    split_ifs
    · exact h
    · intro d u ho
      refine Gone.mAddChannelFor (h d u ?_) hused limits
      unfold State.mAddChannelFor at ho
      split at ho
      · exact ho
      · exact ho
  | removeChannel aVal =>
    cases happly
    split_ifs
    · exact h
    · exact h.mRemoveChannelFor aVal
  | opened aVal type =>
    cases happly
    exact h
  | closed aVal =>
    cases happly
    exact h
  | send aBy aData =>
    obtain ⟨r, hsend, hr⟩ := eq_ok_of_bind happly
    cases hr
    unfold State.mSendUserData at hsend
    split_ifs at hsend
    · cases hsend
      exact h
    · cases hsend
      exact h
    · unfold State.mPutUserDataToSendFifo at hsend
      split at hsend
      · cases hsend
        exact h
      · next m hm =>
        split_ifs at hsend
        cases hsend
        intro d u ho
        rw [outcomes_wake] at ho
        have hgone : s.Gone d := h d u ho
        refine ⟨?_, ?_⟩
        · rw [wake_managers]
          exact (hgone.setManager hm (m.put s.currentSm aData).1.1 _).1
        · rw [wake_added]
          exact hgone.2
  | start t =>
    cases happly
    unfold State.start
    split_ifs
    · exact h
    · exact h
  | goOn t meeting =>
    cases hp : s.running.find t with
    | none =>
      simp only [Senders.step, State.goOn, hp] at happly
      cases happly
      exact h
    | some p => exact h.went hs hp (went_of_goOn hp happly)

end State

/-- In every run each packet that was refused, that could not be sent or that was in a buffer when
its channel was removed is reported once, or is going to be; the packets that nobody reports are
those that a sender had taken for a channel that was removed. -/
theorem run_reports {ops : List Step} (hused : EveryStep step Used ops .init) :
    ∃ s, runAll step ops .init = .ok s ∧ s.Reported ∧ s.Excused := by
  obtain ⟨s, hrun, hsound, hall⟩ := runAll_of_step
    (I := fun s => s.Sound ∧ s.Reported ∧ s.Excused) (fun s op h hop => by
      obtain ⟨s', happly, hsound⟩ := h.1.step hop
      exact ⟨s', happly, hsound, h.2.1.step happly, h.2.2.step h.1 hop happly⟩)
    ⟨State.sound_init, List.Perm.refl _, fun d u ho => by cases ho⟩ hused
  exact ⟨s, hrun, hall⟩

theorem run_reports_quietRun :
    ∃ s, runAll step quietRun .init = .ok s ∧ s.Reported ∧ s.Excused :=
  run_reports (by decide +kernel)

end UdtKernel.Senders
