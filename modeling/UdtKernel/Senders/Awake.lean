import UdtKernel.Lib.SortedMap
import UdtKernel.Senders.Exclusive

set_option autoImplicit false

/-! What a sender can do next, and why there is always somebody to send what is in the buffers. -/

namespace UdtKernel.Senders
open UdtKernel.Lib

def Place.isStarted : Place → Bool
  | .started => true
  | .chosen _ | .begun _ _ | .looping _ _ _ | .sending _ _ _ _ _ | .next _ _ => false

namespace State

inductive Went (s : State) (t : ℕ) : Place → State → Prop where
  | chosen (h : s.operationSendFor.Nonempty) :
    Went s t .started
      ({ s with
        operationSendFor := s.operationSendFor.erase (s.operationSendFor.min' h) }.setPlace t
        (.chosen (s.operationSendFor.min' h)))
  | nothing (h : s.operationSendFor = ∅) : Went s t .started (s.end_ t)
  | unchosen (desc : Descriptor) : Went s t (.chosen desc) (s.end_ t)
  | taken {desc : Descriptor} {m m' : Buffering} (currentSm : ℕ) (hm : s.managers desc = some m)
    (hdata : m'.data = []) :
    Went s t (.chosen desc) ((s.setManager desc currentSm m').setPlace t (.begun desc m.data))
  | entered (desc : Descriptor) (isConsumer : Bool) (data : List Packet) :
    Went s t (.begun desc data) (s.setPlace t (.looping desc isConsumer data))
  | dropped {desc : Descriptor} (data : List Packet)
    (h : isValidDescriptor desc = true → s.descriptors desc = none) :
    Went s t (.begun desc data)
      ((s.conclude desc (data.map fun p => (p.data, .dropped))).end_ t)
  | filled (filling : Filling) (desc : Descriptor) (data : List Packet) :
    Went s t (.looping desc true data)
      ((s.conclude desc ((data.filter fun p => (filling p.data).2 ≠ eNoError).map fun p =>
          (p.data, .refused (filling p.data).1 (filling p.data).2))).setPlace t
        (.sending desc true true
          ((data.filter fun p => (filling p.data).2 = eNoError).map fun p =>
            ⟨p.data, (filling p.data).1⟩)
          ((data.filter fun p => (filling p.data).2 ≠ eNoError).map fun p =>
            (FailSend.ofInfo (filling p.data).1.dataId).setError (filling p.data).2)))
  | unfilled (desc : Descriptor) (data : List Packet) :
    Went s t (.looping desc false data)
      (s.setPlace t (.sending desc false true (data.map fun p => ⟨p.data, p.data⟩) []))
  | sent (desc : Descriptor) (isConsumer isNotClosed : Bool) (i : Item) (rest : List Item)
    (fails : List FailSend) :
    Went s t (.sending desc isConsumer isNotClosed (i :: rest) fails)
      ((s.conclude desc [(i.accepted, .sent i.current)]).setPlace t
        (.sending desc isConsumer isNotClosed rest fails))
  | failed (desc : Descriptor) (isConsumer isNotClosed isNotClosed' : Bool) (i : Item)
    (rest : List Item) (fails : List FailSend) (error : ErrorType) :
    Went s t (.sending desc isConsumer isNotClosed (i :: rest) fails)
      ((s.conclude desc [(i.accepted, .failed i.current error)]).setPlace t
        (.sending desc isConsumer isNotClosed' rest
          (fails ++ [(FailSend.ofInfo i.current.dataId).setError error])))
  | noted (desc : Descriptor) (isConsumer isNotClosed : Bool) (fails : List FailSend) :
    Went s t (.sending desc isConsumer isNotClosed [] fails)
      ((s.note fails).setPlace t (.next desc isConsumer))
  | left {desc : Descriptor} (isConsumer : Bool) (h : s.managers desc = none) :
    Went s t (.next desc isConsumer) (s.end_ t)
  | emptied {desc : Descriptor} {m m' : Buffering} (currentSm : ℕ) (isConsumer : Bool)
    (hm : s.managers desc = some m) (hempty : m.data = []) (hdata : m'.data = []) :
    Went s t (.next desc isConsumer) ((s.setManager desc currentSm m').end_ t)
  | again {desc : Descriptor} {m m' : Buffering} (currentSm : ℕ) (isConsumer : Bool)
    (hm : s.managers desc = some m) (hdata : m'.data = []) :
    Went s t (.next desc isConsumer)
      ((s.setManager desc currentSm m').setPlace t (.looping desc isConsumer m.data))

variable {s s' : State} {t : ℕ}

theorem went_choose : s.Went t .started (s.choose t) := by
  unfold choose
  split_ifs with h
  · exact .chosen h
  · exact .nothing (Finset.not_nonempty_iff_eq_empty.1 h)

theorem went_begin {desc : Descriptor} (h : s.begin_ t desc = .ok s') :
    s.Went t (.chosen desc) s' := by
  unfold begin_ at h
  split at h
  · cases h
    exact .unchosen desc
  · next m hm =>
    split_ifs at h
    · cases h
      exact .unchosen desc
    · obtain ⟨r, htry, hr⟩ := eq_ok_of_bind h
      rcases Buffering.try_cases htry with ⟨rfl, -⟩ | ⟨c', m', rfl, hdata, -⟩
      · cases hr
        exact .unchosen desc
      · cases hr
        exact .taken c' hm hdata

theorem went_enter (desc : Descriptor) (data : List Packet) :
    s.Went t (.begun desc data) (s.enter t desc data) := by
  unfold enter
  split
  · exact .entered desc _ data
  · next h =>
    refine .dropped data fun hvalid => ?_
    rw [if_pos hvalid] at h
    exact h

theorem went_fill {filling : Filling} {desc : Descriptor} {isConsumer : Bool} {data : List Packet}
    (h : s.fill filling t desc isConsumer data = .ok s') :
    s.Went t (.looping desc isConsumer data) s' := by
  unfold fill at h
  cases isConsumer with
  | true =>
    rw [if_pos rfl] at h
    split_ifs at h
    cases h
    exact .filled filling desc data
  | false =>
    rw [if_neg Bool.false_ne_true] at h
    cases h
    exact .unfilled desc data

theorem went_send (isSent : Bool) (desc : Descriptor) (isConsumer isNotClosed : Bool)
    (fails : List FailSend) (data : List Item) :
    s.Went t (.sending desc isConsumer isNotClosed data fails)
      (s.send isSent t desc isConsumer isNotClosed fails data) := by
  cases data with
  | nil => exact .noted desc isConsumer isNotClosed fails
  | cons i rest =>
    unfold send
    split_ifs
    · exact .sent desc isConsumer isNotClosed i rest fails
    all_goals exact .failed desc isConsumer isNotClosed _ i rest fails _

theorem went_next {desc : Descriptor} {isConsumer : Bool}
    (h : s.mNextSend t desc isConsumer = .ok s') : s.Went t (.next desc isConsumer) s' := by
  unfold mNextSend at h
  split at h
  · next hm =>
    cases h
    exact .left isConsumer hm
  · next m hm =>
    obtain ⟨m₁, hfinish, h⟩ := eq_ok_of_bind h
    have hsame := Buffering.data_of_finish hfinish
    obtain ⟨r, htry, hr⟩ := eq_ok_of_bind h
    rcases Buffering.try_cases htry with ⟨rfl, hempty⟩ | ⟨c', m', rfl, hdata, -⟩
    · cases hr
      exact .emptied _ isConsumer hm (hsame.symm.trans hempty) hempty
    · cases hr
      rw [hsame]
      exact .again c' isConsumer hm hdata

/-- All that a thread can do. -/
theorem went_of_goOn {meeting : Meeting} {p : Place} (hp : s.running.find t = some p)
    (h : s.goOn t meeting = .ok s') : s.Went t p s' := by
  unfold goOn at h
  rw [hp] at h
  cases p with
  | started =>
    cases h
    exact went_choose
  | chosen desc => exact went_begin h
  | begun desc data =>
    cases h
    exact went_enter desc data
  | looping desc isConsumer data => exact went_fill h
  | sending desc isConsumer isNotClosed data fails =>
    cases h
    exact went_send _ desc isConsumer isNotClosed fails data
  | next desc isConsumer => exact went_next h

def started (s : State) : ℕ := s.running.values.countP Place.isStarted

/-- For every descriptor that somebody has to send for there is an operation or a thread. -/
def Awake (s : State) : Prop := s.operationSendFor.card ≤ s.pending + s.started

theorem started_setPlace {p : Place} (hp : s.running.find t = some p) (p' : Place) :
    (s.setPlace t p').started + (if p.isStarted then 1 else 0) =
      s.started + if p'.isStarted then 1 else 0 :=
  SortedMap.countP_insert _ hp p'

theorem started_end {p : Place} (hp : s.running.find t = some p) :
    s.started = (s.end_ t).started + if p.isStarted then 1 else 0 :=
  SortedMap.countP_erase _ hp

theorem note_operationSendFor (fails : List FailSend) :
    (s.note fails).operationSendFor = s.operationSendFor := by
  unfold State.note
  split_ifs <;> rfl

theorem note_pending (fails : List FailSend) : (s.note fails).pending = s.pending := by
  unfold State.note
  split_ifs <;> rfl

/-- What neither changes the operations nor has to do with the threads at the beginning. -/
theorem Awake.of_eq (h : s.Awake) (hqueue : s'.operationSendFor = s.operationSendFor)
    (hpending : s'.pending = s.pending) (hstarted : s'.started = s.started) : s'.Awake := by
  unfold Awake at h ⊢
  rw [hqueue, hpending, hstarted]
  exact h

theorem Awake.went (h : s.Awake) {p : Place} (hp : s.running.find t = some p)
    (hwent : s.Went t p s') : s'.Awake := by
  cases hwent with
  | chosen hne =>
    unfold Awake at h
    have hcard := Finset.card_erase_of_mem (Finset.min'_mem _ hne)
    have hpos := Finset.card_pos.2 hne
    have hcount := started_setPlace (s := s) hp (.chosen (s.operationSendFor.min' hne))
    simp only [Place.isStarted, if_true, Bool.false_eq_true, if_false] at hcount
    change (s.operationSendFor.erase _).card ≤ s.pending + (s.setPlace t (.chosen _)).started
    omega
  | nothing hempty =>
    unfold Awake
    simp only [end_, hempty, Finset.card_empty, Nat.zero_le]
  | unchosen desc =>
    exact h.of_eq rfl rfl (started_end hp).symm
  | taken currentSm hm hdata => exact h.of_eq rfl rfl (started_setPlace hp _)
  | entered desc isConsumer data => exact h.of_eq rfl rfl (started_setPlace hp _)
  | dropped data hno => exact h.of_eq rfl rfl (started_end hp).symm
  | filled filling desc data => exact h.of_eq rfl rfl (started_setPlace hp _)
  | unfilled desc data => exact h.of_eq rfl rfl (started_setPlace hp _)
  | sent desc isConsumer isNotClosed i rest fails => exact h.of_eq rfl rfl (started_setPlace hp _)
  | failed desc isConsumer isNotClosed isNotClosed' i rest fails error =>
    exact h.of_eq rfl rfl (started_setPlace hp _)
  | noted desc isConsumer isNotClosed fails =>
    have hnote : (s.note fails).running = s.running := note_running fails
    refine h.of_eq ?_ ?_ ?_
    · exact note_operationSendFor fails
    · exact note_pending fails
    · have hcount := started_setPlace (s := s) hp (.next desc isConsumer)
      change (SortedMap.insert (s.note fails).running t _).values.countP _ = _
      rw [hnote]
      exact hcount
  | left isConsumer hm => exact h.of_eq rfl rfl (started_end hp).symm
  | emptied currentSm isConsumer hm hempty hdata => exact h.of_eq rfl rfl (started_end hp).symm
  | again currentSm isConsumer hm hdata => exact h.of_eq rfl rfl (started_setPlace hp _)

theorem Awake.wake (h : s.Awake) (aBy : Descriptor) (m : Buffering) : (s.wake aBy m).Awake := by
  unfold Awake at h
  unfold State.wake
  split_ifs
  · have hcard := Finset.card_insert_le aBy s.operationSendFor
    change (insert aBy s.operationSendFor).card ≤ s.pending + 1 + s.started
    omega
  · exact h

theorem mRemoveManagerFor_same (s : State) (aVal : Descriptor) :
    (s.mRemoveManagerFor aVal).1.operationSendFor = s.operationSendFor.erase aVal ∧
      (s.mRemoveManagerFor aVal).1.pending = s.pending ∧
      (s.mRemoveManagerFor aVal).1.running = s.running := by
  unfold State.mRemoveManagerFor
  cases hm : s.managers aVal with
  | none =>
    simp only [hm]
    exact ⟨trivial, trivial, trivial⟩
  | some m =>
    simp only [hm]
    exact ⟨trivial, trivial, trivial⟩

theorem Awake.mRemoveChannelFor (h : s.Awake) (aVal : Descriptor) :
    (s.mRemoveChannelFor aVal).Awake := by
  obtain ⟨hqueue, hpending, hrunning⟩ := s.mRemoveManagerFor_same aVal
  have hcard := Finset.card_erase_le (s := s.operationSendFor) (a := aVal)
  unfold Awake at h ⊢
  unfold started at h ⊢
  unfold State.mRemoveChannelFor
  simp only [note_operationSendFor, note_pending, note_running, conclude]
  rw [hqueue, hpending, hrunning]
  omega

theorem Awake.start (h : s.Awake) (t : ℕ) : (s.start t).Awake := by
  unfold Awake at h
  unfold State.start
  split_ifs with hstart
  · obtain ⟨-, hpending, hfree⟩ := hstart
    have hcount := SortedMap.countP_insert_of_none Place.isStarted hfree .started
    change s.operationSendFor.card ≤ s.pending - 1 +
      (s.running.insert t .started).values.countP Place.isStarted
    rw [hcount]
    simp only [Place.isStarted, if_true]
    unfold started at h
    omega
  · exact h

theorem Awake.step (h : s.Awake) {op : Step} (happly : Senders.step op s = .ok s') :
    s'.Awake := by
  cases op with
  | addChannel aVal limits =>
    cases happly
    split_ifs
    · exact h
    · unfold State.mAddChannelFor
      split
      · exact h
      · exact h
  | removeChannel aVal =>
    cases happly
    split_ifs
    · exact h
    · exact h.mRemoveChannelFor aVal
  | opened aVal type =>
    cases happly
    exact h
  | closed aVal =>
    cases happly
    exact h
  | send aBy aData =>
    obtain ⟨r, hsend, hr⟩ := eq_ok_of_bind happly
    cases hr
    unfold State.mSendUserData at hsend
    split_ifs at hsend
    · cases hsend
      exact h
    · cases hsend
      exact h
    · unfold State.mPutUserDataToSendFifo at hsend
      split at hsend
      · cases hsend
        exact h
      · split_ifs at hsend
        cases hsend
        have htaken : ∀ c m l, (s.take aBy c m l).Awake := fun _ _ _ => h.of_eq rfl rfl rfl
        exact (htaken _ _ _).wake aBy _
  | start t =>
    cases happly
    exact h.start t
  | goOn t meeting =>
    cases hp : s.running.find t with
    | none =>
      simp only [Senders.step, State.goOn, hp] at happly
      cases happly
      exact h
    | some p => exact h.went hp (went_of_goOn hp happly)

/-- Data in a buffer has somebody to send it. -/
theorem waits_for (hsound : s.Sound) (hawake : s.Awake) {d : Descriptor} {m : Buffering}
    (hm : s.managers d = some m) (hne : m.data ≠ []) : (∃ t, s.WorksOn t d) ∨
      (d ∈ s.operationSendFor ∧ s.operationSendFor.card ≤ s.pending + s.started) ∨
      ∃ t, s.running.find t = some (.chosen d) := by
  rcases (hsound.desc d).awake m hm hne with hthread | hqueued | hchosen
  · exact Or.inl ⟨_, (hsound.desc d).working m hm hthread⟩
  · exact Or.inr (Or.inl ⟨hqueued, hawake⟩)
  · exact Or.inr (Or.inr hchosen)

/-- When no operation is left and no thread runs, the buffers are empty. -/
theorem data_of_quiet (hsound : s.Sound) (hawake : s.Awake) (hpending : s.pending = 0)
    (hrunning : s.running = .empty) {d : Descriptor} {m : Buffering}
    (hm : s.managers d = some m) : m.data = [] := by
  by_contra hne
  rcases waits_for hsound hawake hm hne with ⟨t, p, hp, -⟩ | ⟨hqueued, hcard⟩ | ⟨t, ht⟩
  · rw [hrunning] at hp
    cases hp
  · have hpos := Finset.card_pos.2 ⟨d, hqueued⟩
    have hstarted : s.started = 0 := by
      unfold State.started
      rw [hrunning]
      rfl
    omega
  · rw [hrunning] at ht
    cases ht

end State

/-- In every run packets wait in a buffer only while a thread works on it, while there is an
operation that will choose it, or while a thread has just chosen it; when no operation is left and
no thread runs, no packet waits. -/
theorem run_strands_nothing {ops : List Step} (hused : EveryStep step Used ops .init) :
    ∃ s, runAll step ops .init = .ok s ∧
      (∀ d m, s.managers d = some m → m.data ≠ [] → (∃ t, s.WorksOn t d) ∨
        (d ∈ s.operationSendFor ∧ s.operationSendFor.card ≤ s.pending + s.started) ∨
        ∃ t, s.running.find t = some (.chosen d)) ∧
      (s.pending = 0 → s.running = .empty → ∀ d m, s.managers d = some m → m.data = []) := by
  obtain ⟨s, hrun, hsound, hawake⟩ := runAll_of_step (I := fun s => s.Sound ∧ s.Awake)
    (fun s op h hop => by
      obtain ⟨s', happly, hsound⟩ := h.1.step hop
      exact ⟨s', happly, hsound, h.2.step happly⟩) ⟨State.sound_init, Nat.le_refl 0⟩ hused
  exact ⟨s, hrun, fun d m hm hne => State.waits_for hsound hawake hm hne,
    fun hpending hrunning d m hm => State.data_of_quiet hsound hawake hpending hrunning hm⟩

/-- The last thread sends what is left. -/
def quietRun : List Step := sendRun ++ List.replicate 4 (.goOn 7 (meets true))

theorem run_strands_nothing_quietRun : ∃ s, runAll step quietRun .init = .ok s ∧
    (∀ d m, s.managers d = some m → m.data ≠ [] → (∃ t, s.WorksOn t d) ∨
      (d ∈ s.operationSendFor ∧ s.operationSendFor.card ≤ s.pending + s.started) ∨
      ∃ t, s.running.find t = some (.chosen d)) ∧
    (s.pending = 0 → s.running = .empty → ∀ d m, s.managers d = some m → m.data = []) :=
  run_strands_nothing (by decide +kernel)

end UdtKernel.Senders
