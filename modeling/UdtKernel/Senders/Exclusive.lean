import UdtKernel.Lib.Run
import UdtKernel.Senders.Schedule

set_option autoImplicit false

/-! No two senders work on one buffer. -/

namespace UdtKernel

namespace Buffering

/-- What `MPut` makes of a buffer when it takes the packets `taken`, whatever its limits are. -/
structure Grew (b : Buffering) (taken : List Packet) (b' : Buffering) : Prop where
  thread : b'.doingThread = b.doingThread
  data : ∃ stored, b'.data = b.data ++ stored ∧
    stored.map Packet.data = taken.map Packet.data

theorem Grew.refl (b : Buffering) : Grew b [] b :=
  ⟨rfl, [], (List.append_nil _).symm, rfl⟩

theorem Grew.trans {b b' b'' : Buffering} {l l' : List Packet} (h : Grew b l b')
    (h' : Grew b' l' b'') : Grew b (l ++ l') b'' := by
  obtain ⟨stored, hdata, hsame⟩ := h.data
  obtain ⟨stored', hdata', hsame'⟩ := h'.data
  refine ⟨h'.thread.trans h.thread, stored ++ stored', ?_, ?_⟩
  · rw [hdata', hdata, List.append_assoc]
  · rw [List.map_append, List.map_append, hsame, hsame']

theorem grew_accept (c : ℕ) (b : Buffering) (p : Packet) : Grew b [p] (b.accept c p).2 := by
  simp only [accept]
  split_ifs
  all_goals first
    | exact ⟨rfl, [p], rfl, rfl⟩
    | exact ⟨rfl, [p.deepCopy], rfl, rfl⟩

theorem grew_putAll (c : ℕ) (b : Buffering) (l : List Packet) :
    ∃ taken, l = taken ++ (b.putAll c l).2 ∧ Grew b taken (b.putAll c l).1.2 := by
  induction l generalizing c b with
  | nil => exact ⟨[], rfl, Grew.refl b⟩
  | cons p l ih =>
    rw [putAll]
    split_ifs
    · exact ⟨[], rfl, Grew.refl b⟩
    · obtain ⟨taken, hl, hgrew⟩ := ih (b.accept c p).1 (b.accept c p).2
      refine ⟨p :: taken, ?_, (grew_accept c b p).trans hgrew⟩
      rw [List.cons_append, ← hl]

theorem grew_put (c : ℕ) (b : Buffering) (l : List Packet) :
    ∃ taken, l = taken ++ (b.put c l).2 ∧ Grew b taken (b.put c l).1.2 := by
  unfold put
  split_ifs
  · exact grew_putAll c b l
  · exact ⟨l, (List.append_nil l).symm, rfl, l, rfl, rfl⟩

theorem try_of_empty {b : Buffering} (h : b.data = []) (thread c : ℕ) :
    b.try_ thread c = .ok none := by
  unfold try_ isEmpty
  rw [h]
  rfl

theorem try_of_idle {b : Buffering} (h : b.data ≠ []) (hidle : b.doingThread = 0)
    (thread c : ℕ) : ∃ c' b', b.try_ thread c = .ok (some ((c', b'), b.data)) ∧ b'.data = [] ∧
      b'.doingThread = thread := by
  have hempty : b.isEmpty = false := List.isEmpty_eq_false_iff.2 h
  unfold try_
  rw [hempty, hidle]
  exact ⟨_, _, rfl, rfl, rfl⟩

theorem finish_nothing (b : Buffering) (aTryAgain : Bool) : ∃ b',
    b.finish b.doingThread [] aTryAgain = .ok b' ∧ b'.data = b.data ∧ b'.doingThread = 0 :=
  ⟨_, if_neg (not_not.2 rfl), rfl, rfl⟩

/-- `MTry` takes nothing, or everything. -/
theorem try_cases {b : Buffering} {thread c : ℕ} {r : Option ((ℕ × Buffering) × List Packet)}
    (h : b.try_ thread c = .ok r) :
    (r = none ∧ b.data = []) ∨
      ∃ c' b', r = some ((c', b'), b.data) ∧ b'.data = [] ∧ b'.doingThread = thread := by
  unfold try_ at h
  split_ifs at h with hempty
  · cases h
    exact Or.inl ⟨rfl, List.isEmpty_iff.1 hempty⟩
  · cases h
    exact Or.inr ⟨_, _, rfl, rfl, rfl⟩

theorem data_of_finish {b b' : Buffering} {thread : ℕ} {aTryAgain : Bool}
    (h : b.finish thread [] aTryAgain = .ok b') : b'.data = b.data := by
  unfold finish at h
  split_ifs at h
  cases h
  rfl

end Buffering

namespace Senders
open UdtKernel.Lib

/-- What is in the hand of a sender that works on a buffer. -/
def Place.works : Place → Option Descriptor
  | .started | .chosen _ => none
  | .begun desc _ | .looping desc _ _ | .sending desc _ _ _ _ | .next desc _ => some desc

def Place.desc : Place → Option Descriptor
  | .started => none
  | .chosen desc | .begun desc _ | .looping desc _ _ | .sending desc _ _ _ _ | .next desc _ =>
    some desc

theorem Place.desc_of_works (p : Place) {d : Descriptor} (h : p.works = some d) :
    p.desc = some d := by
  cases p with
  | started => cases h
  | chosen desc => cases h
  | begun desc data => exact h
  | looping desc isConsumer data => exact h
  | sending desc isConsumer isNotClosed data fails => exact h
  | next desc isConsumer => exact h

/-- The packets have one receiver when they are sent to a consumer. -/
def OneReceiver (type : Option ProgramType) (data : List Packet) : Prop :=
  ∃ ty, type = some ty ∧
    (ty = .consumer → ∀ p ∈ data, p.data.dataId.routing.uuids.length = 1)

/-- What a sender knows of the program that it sends to. -/
def Place.Fits (type : Option ProgramType) : Place → Prop
  | .started | .chosen _ => True
  | .begun desc data => OneReceiver type data ∧ isValidDescriptor desc = true
  | .looping _ isConsumer data => ∃ ty, type = some ty ∧ isConsumer = decide (ty = .consumer) ∧
      (ty = .consumer → ∀ p ∈ data, p.data.dataId.routing.uuids.length = 1)
  | .sending _ isConsumer _ _ _ | .next _ isConsumer =>
      ∃ ty, type = some ty ∧ isConsumer = decide (ty = .consumer)

namespace State

variable (s : State)

def WorksOn (t : ℕ) (d : Descriptor) : Prop := ∃ p, s.running.find t = some p ∧ p.works = some d

structure Inv (d : Descriptor) : Prop where
  queued : d ∈ s.operationSendFor → (s.managers d).isSome = true ∧ isValidDescriptor d = true
  chosen : ∀ t, s.running.find t = some (.chosen d) →
    (s.managers d).isSome = true ∧ isValidDescriptor d = true
  known : (s.managers d).isSome = true → s.added d = true
  working : ∀ m, s.managers d = some m → m.doingThread ≠ 0 → s.WorksOn m.doingThread d
  added : ∀ t, s.WorksOn t d → s.added d = true
  owned : ∀ t m, s.WorksOn t d → s.managers d = some m → m.doingThread = t
  unique : ∀ t t', s.WorksOn t d → s.WorksOn t' d → t = t'
  typed : ∀ ty, s.descriptors d = some ty → s.types d = some ty
  stored : ∀ m, s.managers d = some m → m.data ≠ [] →
    OneReceiver (s.types d) m.data ∧ (s.descriptors d).isSome = true
  fits : ∀ t p, s.running.find t = some p → p.works = some d → p.Fits (s.types d)
  opened : ∀ t, s.WorksOn t d → (s.managers d).isSome = true → (s.descriptors d).isSome = true
  awake : ∀ m, s.managers d = some m → m.data ≠ [] → m.doingThread ≠ 0 ∨
    d ∈ s.operationSendFor ∨ ∃ t, s.running.find t = some (.chosen d)

/-- Every thread has a number, and every descriptor is as it should be. -/
structure Sound : Prop where
  thread : ∀ t p, s.running.find t = some p → t ≠ 0
  desc : ∀ d, s.Inv d

variable {s}

theorem find_setPlace (t : ℕ) (p : Place) (t' : ℕ) :
    (s.setPlace t p).running.find t' = if t' = t then some p else s.running.find t' :=
  SortedMap.find_insert _ _ _ _

theorem find_end (t t' : ℕ) :
    (s.end_ t).running.find t' = if t' = t then none else s.running.find t' :=
  SortedMap.find_erase _ _ _

structure Same (s s' : State) (d : Descriptor) : Prop where
  queued : d ∈ s'.operationSendFor ↔ d ∈ s.operationSendFor
  managers : s'.managers d = s.managers d
  descriptors : s'.descriptors d = s.descriptors d
  added : s'.added d = s.added d
  types : s'.types d = s.types d
  places : ∀ t p, p.desc = some d → (s'.running.find t = some p ↔ s.running.find t = some p)

theorem Same.refl {s : State} {d : Descriptor} : s.Same s d :=
  ⟨Iff.rfl, rfl, rfl, rfl, rfl, fun _ _ _ => Iff.rfl⟩

theorem Same.trans {s s' s'' : State} {d : Descriptor} (h : s.Same s' d) (h' : s'.Same s'' d) :
    s.Same s'' d :=
  ⟨h'.queued.trans h.queued, h'.managers.trans h.managers, h'.descriptors.trans h.descriptors,
    h'.added.trans h.added, h'.types.trans h.types,
    fun t p hp => (h'.places t p hp).trans (h.places t p hp)⟩

theorem Same.worksOn {s s' : State} {d : Descriptor} (h : s.Same s' d) (t : ℕ) :
    s'.WorksOn t d ↔ s.WorksOn t d := by
  constructor
  · rintro ⟨p, hp, hw⟩
    exact ⟨p, (h.places t p (p.desc_of_works hw)).1 hp, hw⟩
  · rintro ⟨p, hp, hw⟩
    exact ⟨p, (h.places t p (p.desc_of_works hw)).2 hp, hw⟩

theorem Inv.congr {s s' : State} {d : Descriptor} (hinv : s.Inv d) (h : s.Same s' d) :
    s'.Inv d := by
  have hchosen : ∀ t, s'.running.find t = some (.chosen d) ↔ s.running.find t = some (.chosen d) :=
    fun t => h.places t (.chosen d) rfl
  constructor
  · rw [h.queued, h.managers]
    exact hinv.queued
  · intro t ht
    rw [h.managers]
    exact hinv.chosen t ((hchosen t).1 ht)
  · rw [h.managers, h.added]
    exact hinv.known
  · intro m hm hne
    rw [h.managers] at hm
    exact (h.worksOn _).2 (hinv.working m hm hne)
  · intro t ht
    rw [h.added]
    exact hinv.added t ((h.worksOn t).1 ht)
  · intro t m ht hm
    rw [h.managers] at hm
    exact hinv.owned t m ((h.worksOn t).1 ht) hm
  · intro t t' ht ht'
    exact hinv.unique t t' ((h.worksOn t).1 ht) ((h.worksOn t').1 ht')
  · rw [h.descriptors, h.types]
    exact hinv.typed
  · intro m hm hne
    rw [h.managers] at hm
    rw [h.descriptors, h.types]
    exact hinv.stored m hm hne
  · intro t p hp hw
    rw [h.types]
    exact hinv.fits t p ((h.places t p (p.desc_of_works hw)).1 hp) hw
  · intro t ht hsome
    rw [h.managers] at hsome
    rw [h.descriptors]
    exact hinv.opened t ((h.worksOn t).1 ht) hsome
  · intro m hm hne
    rw [h.managers] at hm
    rcases hinv.awake m hm hne with hw | hq | ⟨t, ht⟩
    · exact Or.inl hw
    · exact Or.inr (Or.inl (h.queued.2 hq))
    · exact Or.inr (Or.inr ⟨t, (hchosen t).2 ht⟩)

structure Moves (s s' : State) (t : ℕ) (d : Descriptor) : Prop where
  before : ∀ p, s.running.find t = some p → p.desc ≠ some d
  after : ∀ p, s'.running.find t = some p → p.desc ≠ some d
  others : ∀ t', t' ≠ t → s'.running.find t' = s.running.find t'

theorem Moves.places {s s' : State} {t : ℕ} {d : Descriptor} (h : s.Moves s' t d) (t' : ℕ)
    (p : Place) (hp : p.desc = some d) :
    s'.running.find t' = some p ↔ s.running.find t' = some p := by
  by_cases heq : t' = t
  · subst heq
    exact ⟨fun hfind => absurd hp (h.after p hfind), fun hfind => absurd hp (h.before p hfind)⟩
  · rw [h.others t' heq]

theorem Sound.change {s s' : State} (h : s.Sound) (d : Descriptor)
    (hthread : ∀ t p, s'.running.find t = some p → t ≠ 0)
    (hsame : ∀ d', d' ≠ d → s.Same s' d') (hinv : s'.Inv d) : s'.Sound := by
  refine ⟨hthread, fun d' => ?_⟩
  by_cases heq : d' = d
  · rw [heq]
    exact hinv
  · exact (h.desc d').congr (hsame d' heq)

theorem Sound.mAddChannelFor (h : s.Sound) {aVal : Descriptor} (hnew : s.added aVal = false)
    (limits : ℕ × ℕ) : (s.mAddChannelFor aVal limits).Sound := by
  have hinv := h.desc aVal
  have hfree : ∀ t, ¬ s.WorksOn t aVal := fun t ht => by
    have hadded := hinv.added t ht
    rw [hnew] at hadded
    cases hadded
  unfold State.mAddChannelFor
  cases hm : s.managers aVal with
  | some m => exact h
  | none =>
    have hnone : (s.managers aVal).isSome = false := by rw [hm]; rfl
    refine h.change aVal h.thread (fun d hd => ?_) ?_
    · exact ⟨Iff.rfl, Function.update_of_ne hd _ _, rfl, Function.update_of_ne hd _ _, rfl,
        fun _ _ _ => Iff.rfl⟩
    · constructor
      all_goals simp only [Function.update_self, Option.some.injEq]
      · exact fun hq => ⟨rfl, (hinv.queued hq).2⟩
      · exact fun t ht => ⟨rfl, (hinv.chosen t ht).2⟩
      · exact fun _ => trivial
      · rintro m rfl hne
        exact absurd rfl hne
      · exact fun _ _ => trivial
      · exact fun t m ht _ => absurd ht (hfree t)
      · exact fun t t' ht _ => absurd ht (hfree t)
      · exact hinv.typed
      · rintro m rfl hne
        exact absurd rfl hne
      · exact fun t p hp hw => absurd ⟨p, hp, hw⟩ (hfree t)
      · exact fun t ht _ => absurd ht (hfree t)
      · rintro m rfl hne
        exact absurd rfl hne

/-- A descriptor without a channel. -/
theorem Inv.without {s s' : State} {d : Descriptor} (h : s.Inv d)
    (hqueued : d ∉ s'.operationSendFor) (hmanagers : s'.managers d = none)
    (hchosen : ∀ t, s'.running.find t ≠ some (.chosen d))
    (hworks : ∀ t p, s'.running.find t = some p → p.works = some d → s.running.find t = some p)
    (hadded : s'.added d = s.added d) (htypes : s'.types d = s.types d)
    (hdescriptors : ∀ ty, s'.descriptors d = some ty → s.descriptors d = some ty) : s'.Inv d := by
  have hback : ∀ t, s'.WorksOn t d → s.WorksOn t d := by
    rintro t ⟨p, hp, hw⟩
    exact ⟨p, hworks t p hp hw, hw⟩
  have hno : ∀ m, s'.managers d ≠ some m := by
    intro m hm
    rw [hmanagers] at hm
    cases hm
  exact {
    queued := fun hq => absurd hq hqueued
    chosen := fun t ht => absurd ht (hchosen t)
    known := fun hsome => by
      rw [hmanagers] at hsome
      cases hsome
    working := fun m hm _ => absurd hm (hno m)
    added := fun t ht => hadded.trans (h.added t (hback t ht))
    owned := fun t m _ hm => absurd hm (hno m)
    unique := fun t t' ht ht' => h.unique t t' (hback t ht) (hback t' ht')
    typed := fun ty hty => htypes.trans (h.typed ty (hdescriptors ty hty))
    stored := fun m hm _ => absurd hm (hno m)
    fits := fun t p hp hw => by
      rw [htypes]
      exact h.fits t p (hworks t p hp hw) hw
    opened := fun t _ hsome => by
      rw [hmanagers] at hsome
      cases hsome
    awake := fun m hm _ => absurd hm (hno m) }

theorem Sound.conclude (h : s.Sound) (desc : Descriptor) (l : List (UserData × Outcome)) :
    (s.conclude desc l).Sound :=
  ⟨h.thread, fun d => (h.desc d).congr ⟨Iff.rfl, rfl, rfl, rfl, rfl, fun _ _ _ => Iff.rfl⟩⟩

theorem Sound.note (h : s.Sound) (fails : List FailSend) : (s.note fails).Sound := by
  unfold State.note
  split_ifs
  · exact h
  · exact ⟨h.thread, fun d => (h.desc d).congr ⟨Iff.rfl, rfl, rfl, rfl, rfl, fun _ _ _ => Iff.rfl⟩⟩

@[simp] theorem note_running (fails : List FailSend) : (s.note fails).running = s.running := by
  unfold State.note
  split_ifs <;> rfl

@[simp] theorem note_types (fails : List FailSend) : (s.note fails).types = s.types := by
  unfold State.note
  split_ifs <;> rfl

theorem not_chosen_of_isRead (h : s.isRead = false) (t : ℕ) (d : Descriptor) :
    s.running.find t ≠ some (.chosen d) := by
  intro hfind
  unfold isRead at h
  rw [List.any_eq_false] at h
  have hmem := List.mem_map_of_mem (f := Prod.snd) ((s.running.mem_entries_iff _ _).2 hfind)
  exact h _ hmem rfl

theorem Sound.mRemoveManagerFor (h : s.Sound) (hread : s.isRead = false) (aVal : Descriptor) :
    (s.mRemoveManagerFor aVal).1.Sound := by
  have hother : ∀ d, d ≠ aVal → (d ∈ s.operationSendFor.erase aVal ↔ d ∈ s.operationSendFor) :=
    fun d hd => ⟨Finset.mem_of_mem_erase, Finset.mem_erase_of_ne_of_mem hd⟩
  cases hm : s.managers aVal with
  | none =>
    simp only [State.mRemoveManagerFor, hm]
    refine h.change aVal h.thread (fun d hd => ⟨hother d hd, rfl, rfl, rfl, rfl,
      fun _ _ _ => Iff.rfl⟩) ?_
    exact (h.desc aVal).without (Finset.notMem_erase _ _) hm
      (fun t => not_chosen_of_isRead hread t aVal) (fun _ _ hp _ => hp) rfl rfl fun _ hty => hty
  | some m =>
    simp only [State.mRemoveManagerFor, hm]
    refine h.change aVal h.thread (fun d hd => ⟨hother d hd, Function.update_of_ne hd _ _, rfl, rfl,
      rfl, fun _ _ _ => Iff.rfl⟩) ?_
    exact (h.desc aVal).without (Finset.notMem_erase _ _) (Function.update_self _ _ _)
      (fun t => not_chosen_of_isRead hread t aVal) (fun _ _ hp _ => hp) rfl rfl fun _ hty => hty

theorem Sound.mRemoveChannelFor (h : s.Sound) (hread : s.isRead = false) (aVal : Descriptor) :
    (s.mRemoveChannelFor aVal).Sound :=
  ((h.mRemoveManagerFor hread aVal).conclude _ _).note _

theorem Sound.closed (h : s.Sound) {aVal : Descriptor} (hm : s.managers aVal = none) :
    ({ s with descriptors := Function.update s.descriptors aVal none } : State).Sound := by
  have hinv := h.desc aVal
  refine h.change aVal h.thread (fun d hd => ⟨Iff.rfl, rfl, Function.update_of_ne hd _ _, rfl, rfl,
    fun _ _ _ => Iff.rfl⟩) ?_
  refine hinv.without (fun hq => ?_) hm (fun t ht => ?_) (fun _ _ hp _ => hp) rfl rfl
    fun ty hty => ?_
  · have hsome := (hinv.queued hq).1
    rw [hm] at hsome
    cases hsome
  · have hsome := (hinv.chosen t ht).1
    rw [hm] at hsome
    cases hsome
  · simp only [Function.update_self, reduceCtorEq] at hty

theorem Sound.opened (h : s.Sound) {aVal : Descriptor} {type : ProgramType}
    (htype : ∀ type' ∈ s.types aVal, type' = type) :
    ({ s with
      descriptors := Function.update s.descriptors aVal (some type)
      types := Function.update s.types aVal (some type) } : State).Sound := by
  have hinv := h.desc aVal
  have hknown : ∀ ty, s.types aVal = some ty → s.types aVal = some type := fun ty hty => by
    rw [hty, htype ty hty]
  have hone : ∀ data, OneReceiver (s.types aVal) data → OneReceiver (some type) data := by
    rintro data ⟨ty, hty, hdata⟩
    exact ⟨ty, (hknown ty hty).symm.trans hty, hdata⟩
  refine h.change aVal h.thread (fun d hd => ⟨Iff.rfl, rfl, Function.update_of_ne hd _ _, rfl,
    Function.update_of_ne hd _ _, fun _ _ _ => Iff.rfl⟩) ?_
  exact {
    queued := hinv.queued
    chosen := hinv.chosen
    known := hinv.known
    working := hinv.working
    added := hinv.added
    owned := hinv.owned
    unique := hinv.unique
    typed := fun ty hty => by
      simp only [Function.update_self] at hty ⊢
      exact hty
    stored := fun m hm hne => by
      simp only [Function.update_self]
      exact ⟨hone _ (hinv.stored m hm hne).1, rfl⟩
    fits := fun t p hp hw => by
      simp only [Function.update_self]
      have hfits := hinv.fits t p hp hw
      cases p with
      | started => trivial
      | chosen desc => trivial
      | begun desc data => exact ⟨hone data hfits.1, hfits.2⟩
      | looping desc isConsumer data =>
        obtain ⟨ty, hty, hdata⟩ := hfits
        exact ⟨ty, (hknown ty hty).symm.trans hty, hdata⟩
      | sending desc isConsumer isNotClosed data fails =>
        obtain ⟨ty, hty, hdata⟩ := hfits
        exact ⟨ty, (hknown ty hty).symm.trans hty, hdata⟩
      | next desc isConsumer =>
        obtain ⟨ty, hty, hdata⟩ := hfits
        exact ⟨ty, (hknown ty hty).symm.trans hty, hdata⟩
    opened := fun t _ _ => by
      simp only [Function.update_self]
      rfl
    awake := hinv.awake }

theorem oneReceiver_append {type : Option ProgramType} {ty : ProgramType} (htype : type = some ty)
    {data taken stored : List Packet} (hdata : data ≠ [] → OneReceiver type data)
    (htaken : ty = .consumer → ∀ p ∈ taken, p.data.dataId.routing.uuids.length = 1)
    (hsame : stored.map Packet.data = taken.map Packet.data) :
    OneReceiver type (data ++ stored) := by
  refine ⟨ty, htype, fun hconsumer p hp => ?_⟩
  rcases List.mem_append.1 hp with hp | hp
  · obtain ⟨ty', hty', hone⟩ := hdata (List.ne_nil_of_mem hp)
    obtain rfl : ty' = ty := Option.some.inj (hty'.symm.trans htype)
    exact hone hconsumer p hp
  · have hmem := List.mem_map_of_mem (f := Packet.data) hp
    rw [hsame] at hmem
    obtain ⟨q, hq, hqp⟩ := List.mem_map.1 hmem
    rw [← hqp]
    exact htaken hconsumer q hq

/-- A buffer that takes packets, with the descriptor among those to be sent for if nobody works on
it. -/
theorem Inv.put {s s' : State} {d : Descriptor} (h : s.Inv d) {m n : Buffering}
    {taken : List Packet} {ty : ProgramType} (hm : s.managers d = some m)
    (hm' : s'.managers d = some n) (hgrew : m.Grew taken n) (hvalid : isValidDescriptor d = true)
    (hty : s.descriptors d = some ty)
    (htaken : ty = .consumer → ∀ p ∈ taken, p.data.dataId.routing.uuids.length = 1)
    (hqueued : d ∈ s.operationSendFor ∨ m.doingThread = 0 → d ∈ s'.operationSendFor)
    (hrunning : s'.running = s.running) (hdescriptors : s'.descriptors = s.descriptors)
    (hadded : s'.added = s.added) (htypes : s'.types = s.types) : s'.Inv d := by
  have hworks : ∀ t, s'.WorksOn t d ↔ s.WorksOn t d := fun t => by
    unfold WorksOn
    rw [hrunning]
  have hsome : (s.managers d).isSome = true := by rw [hm]; rfl
  have hsome' : (s'.managers d).isSome = true := by rw [hm']; rfl
  have hthread : ∀ m₁, s'.managers d = some m₁ → m₁.doingThread = m.doingThread := by
    intro m₁ hm₁
    obtain rfl : n = m₁ := Option.some.inj (hm'.symm.trans hm₁)
    exact hgrew.thread
  exact {
    queued := fun _ => ⟨hsome', hvalid⟩
    chosen := fun _ _ => ⟨hsome', hvalid⟩
    known := fun _ => by
      rw [hadded]
      exact h.known hsome
    working := fun m₁ hm₁ hne => by
      rw [hthread m₁ hm₁] at hne ⊢
      exact (hworks _).2 (h.working m hm hne)
    added := fun t ht => by
      rw [hadded]
      exact h.added t ((hworks t).1 ht)
    owned := fun t m₁ ht hm₁ => by
      rw [hthread m₁ hm₁]
      exact h.owned t m ((hworks t).1 ht) hm
    unique := fun t t' ht ht' => h.unique t t' ((hworks t).1 ht) ((hworks t').1 ht')
    typed := fun ty' hty' => by
      rw [hdescriptors] at hty'
      rw [htypes]
      exact h.typed ty' hty'
    stored := fun m₁ hm₁ _ => by
      obtain rfl : n = m₁ := Option.some.inj (hm'.symm.trans hm₁)
      obtain ⟨stored, hdata, hsame⟩ := hgrew.data
      rw [hdata, hdescriptors, htypes, hty]
      exact ⟨oneReceiver_append (h.typed ty hty) (fun hne => (h.stored m hm hne).1) htaken hsame,
        rfl⟩
    fits := fun t p hp hw => by
      rw [hrunning] at hp
      rw [htypes]
      exact h.fits t p hp hw
    opened := fun t _ _ => by
      rw [hdescriptors, hty]
      rfl
    awake := fun m₁ hm₁ _ => by
      rw [hthread m₁ hm₁]
      by_cases hzero : m.doingThread = 0
      · exact Or.inr (Or.inl (hqueued (Or.inr hzero)))
      · exact Or.inl hzero }

@[simp] theorem wake_running (aBy : Descriptor) (m : Buffering) :
    (s.wake aBy m).running = s.running := by
  unfold wake
  split_ifs <;> rfl

@[simp] theorem wake_managers (aBy : Descriptor) (m : Buffering) :
    (s.wake aBy m).managers = s.managers := by
  unfold wake
  split_ifs <;> rfl

@[simp] theorem wake_descriptors (aBy : Descriptor) (m : Buffering) :
    (s.wake aBy m).descriptors = s.descriptors := by
  unfold wake
  split_ifs <;> rfl

@[simp] theorem wake_added (aBy : Descriptor) (m : Buffering) :
    (s.wake aBy m).added = s.added := by
  unfold wake
  split_ifs <;> rfl

@[simp] theorem wake_types (aBy : Descriptor) (m : Buffering) :
    (s.wake aBy m).types = s.types := by
  unfold wake
  split_ifs <;> rfl

theorem mem_wake {aBy : Descriptor} {m : Buffering}
    (h : aBy ∈ s.operationSendFor ∨ m.doingThread = 0) : aBy ∈ (s.wake aBy m).operationSendFor := by
  unfold wake
  split_ifs with hneeds
  · exact Finset.mem_insert_self _ _
  · rw [not_and, not_not] at hneeds
    exact h.elim id hneeds

theorem same_wake {d aBy : Descriptor} (hd : d ≠ aBy) (m : Buffering) :
    s.Same (s.wake aBy m) d := by
  unfold wake
  split_ifs
  · exact ⟨⟨fun hmem => Finset.mem_of_mem_insert_of_ne hmem hd, Finset.mem_insert_of_mem⟩, rfl, rfl,
      rfl, rfl, fun _ _ _ => Iff.rfl⟩
  · exact Same.refl

theorem setManager_self (d : Descriptor) (currentSm : ℕ) (m : Buffering) :
    (s.setManager d currentSm m).managers d = some m := Function.update_self _ _ _

theorem same_setManager {d d' : Descriptor} (hd : d' ≠ d) (currentSm : ℕ) (m : Buffering) :
    s.Same (s.setManager d currentSm m) d' :=
  ⟨Iff.rfl, Function.update_of_ne hd _ _, rfl, rfl, rfl, fun _ _ _ => Iff.rfl⟩

theorem same_take {d aBy : Descriptor} (hd : d ≠ aBy) (currentSm : ℕ) (m : Buffering)
    (taken : List Packet) : s.Same (s.take aBy currentSm m taken) d :=
  ⟨Iff.rfl, Function.update_of_ne hd _ _, rfl, rfl, rfl, fun _ _ _ => Iff.rfl⟩

theorem Sound.mPutUserDataToSendFifo (h : s.Sound) {aBy : Descriptor} {aData : List Packet}
    (hvalid : isValidDescriptor aBy = true) (hne : aData ≠ [])
    (huse : (s.managers aBy).isSome = true → ∃ type ∈ s.descriptors aBy,
      type = .consumer → ∀ p ∈ aData, p.data.dataId.routing.uuids.length = 1) :
    ∃ r, s.mPutUserDataToSendFifo aBy aData = .ok r ∧ r.2.1.Sound := by
  unfold State.mPutUserDataToSendFifo
  cases hm : s.managers aBy with
  | none => exact ⟨_, rfl, h⟩
  | some m =>
    obtain ⟨ty, hty, hreceiver⟩ := huse (by rw [hm]; rfl)
    obtain ⟨taken, hdata, hgrew⟩ := m.grew_put s.currentSm aData
    have htaken : ty = .consumer → ∀ p ∈ taken, p.data.dataId.routing.uuids.length = 1 := by
      intro hconsumer p hp
      refine hreceiver hconsumer p ?_
      rw [hdata]
      exact List.mem_append_left _ hp
    refine ⟨_, if_neg hne, ?_⟩
    refine h.change aBy ?_ (fun d hd => ?_) ((h.desc aBy).put hm
      (n := (m.put s.currentSm aData).1.2) ?_ hgrew hvalid hty htaken (fun hq => ?_) ?_ ?_ ?_ ?_)
    · rw [wake_running]
      exact h.thread
    · exact (same_take hd _ _ _).trans (same_wake hd _)
    · rw [wake_managers]
      exact Function.update_self _ _ _
    · refine mem_wake ?_
      rw [hgrew.thread]
      exact hq
    all_goals simp only [wake_running, wake_descriptors, wake_added, wake_types]; rfl

theorem Sound.mSendUserData (h : s.Sound) {aBy : Descriptor} {aData : List Packet}
    (huse : (s.managers aBy).isSome = true → ∃ type ∈ s.descriptors aBy,
      type = .consumer → ∀ p ∈ aData, p.data.dataId.routing.uuids.length = 1) :
    ∃ r, s.mSendUserData aBy aData = .ok r ∧ r.2.1.Sound := by
  unfold State.mSendUserData
  cases hvalid : isValidDescriptor aBy with
  | false => exact ⟨_, rfl, h⟩
  | true =>
    by_cases hne : aData = []
    · exact ⟨_, if_pos hne, h⟩
    · obtain ⟨r, hput, hsound⟩ := h.mPutUserDataToSendFifo hvalid hne huse
      exact ⟨r, (if_neg hne).trans hput, hsound⟩

theorem find_setPlace_self (t : ℕ) (p : Place) : (s.setPlace t p).running.find t = some p :=
  SortedMap.find_insert_self _ _ _

theorem find_setPlace_of_ne {t t' : ℕ} (h : t' ≠ t) (p : Place) :
    (s.setPlace t p).running.find t' = s.running.find t' := by
  rw [find_setPlace, if_neg h]

theorem find_end_of_ne {t t' : ℕ} (h : t' ≠ t) :
    (s.end_ t).running.find t' = s.running.find t' := by
  rw [find_end, if_neg h]

theorem Sound.threads_setPlace (h : s.Sound) {t : ℕ} (ht : t ≠ 0) (p : Place) :
    ∀ t' p', (s.setPlace t p).running.find t' = some p' → t' ≠ 0 := by
  intro t' p' hp'
  by_cases heq : t' = t
  · rw [heq]
    exact ht
  · rw [find_setPlace_of_ne heq] at hp'
    exact h.thread t' p' hp'

theorem Sound.threads_end (h : s.Sound) (t : ℕ) :
    ∀ t' p', (s.end_ t).running.find t' = some p' → t' ≠ 0 := by
  intro t' p' hp'
  rw [find_end] at hp'
  split_ifs at hp'
  exact h.thread t' p' hp'

/-- A thread comes to a place for which the descriptor is of no account. -/
theorem same_setPlace {t : ℕ} {p : Place} {d : Descriptor}
    (hbefore : ∀ p', s.running.find t = some p' → p'.desc ≠ some d) (hafter : p.desc ≠ some d) :
    s.Same (s.setPlace t p) d := by
  refine ⟨Iff.rfl, rfl, rfl, rfl, rfl, Moves.places ⟨hbefore, ?_, ?_⟩⟩
  · intro p' hp'
    rw [find_setPlace_self] at hp'
    exact Option.some.inj hp' ▸ hafter
  · exact fun t' ht' => find_setPlace_of_ne ht' p

theorem same_end {t : ℕ} {d : Descriptor}
    (hbefore : ∀ p', s.running.find t = some p' → p'.desc ≠ some d) : s.Same (s.end_ t) d := by
  refine ⟨Iff.rfl, rfl, rfl, rfl, rfl, Moves.places ⟨hbefore, ?_, ?_⟩⟩
  · intro p' hp'
    rw [find_end, if_pos rfl] at hp'
    cases hp'
  · exact fun t' ht' => find_end_of_ne ht'

theorem worksOn_setPlace {t : ℕ} {p : Place} {t' : ℕ} {d : Descriptor} :
    (s.setPlace t p).WorksOn t' d ↔ if t' = t then p.works = some d else s.WorksOn t' d := by
  unfold WorksOn
  rw [find_setPlace]
  split_ifs with heq
  · exact ⟨fun ⟨p', hp', hw⟩ => (Option.some.inj hp').symm ▸ hw, fun hw => ⟨p, rfl, hw⟩⟩
  · exact Iff.rfl

theorem worksOn_end {t t' : ℕ} {d : Descriptor} :
    (s.end_ t).WorksOn t' d ↔ t' ≠ t ∧ s.WorksOn t' d := by
  unfold WorksOn
  rw [find_end]
  split_ifs with heq
  · exact ⟨fun ⟨_, hp', _⟩ => (nomatch hp'), fun hw => absurd heq hw.1⟩
  · exact ⟨fun hw => ⟨heq, hw⟩, fun hw => hw.2⟩

/-- A thread that works on a buffer goes on with it. -/
theorem Sound.replace (h : s.Sound) {t : ℕ} {d : Descriptor} {p p' : Place}
    (hp : s.running.find t = some p) (hw : p.works = some d) (hw' : p'.works = some d)
    (hfits : p'.Fits (s.types d)) : (s.setPlace t p').Sound := by
  have hinv := h.desc d
  have hworks : ∀ t', (s.setPlace t p').WorksOn t' d ↔ s.WorksOn t' d := fun t' => by
    rw [worksOn_setPlace]
    split_ifs with heq
    · rw [heq]
      exact ⟨fun _ => ⟨p, hp, hw⟩, fun _ => hw'⟩
    · exact Iff.rfl
  have hchosen : ∀ t', (s.setPlace t p').running.find t' = some (.chosen d) ↔
      s.running.find t' = some (.chosen d) := fun t' => by
    rw [find_setPlace]
    split_ifs with heq
    · rw [heq, hp, Option.some.injEq, Option.some.injEq]
      constructor
      · rintro rfl
        cases hw'
      · rintro rfl
        cases hw
    · exact Iff.rfl
  refine h.change d (h.threads_setPlace (h.thread t p hp) p') (fun d' hd => ?_) ?_
  · refine same_setPlace (fun q hq => ?_) ?_
    · obtain rfl : p = q := Option.some.inj (hp.symm.trans hq)
      rw [p.desc_of_works hw, Ne, Option.some.injEq]
      exact hd.symm
    · rw [p'.desc_of_works hw', Ne, Option.some.injEq]
      exact hd.symm
  · exact {
      queued := hinv.queued
      chosen := fun t' ht' => hinv.chosen t' ((hchosen t').1 ht')
      known := hinv.known
      working := fun m hm hne => (hworks _).2 (hinv.working m hm hne)
      added := fun t' ht' => hinv.added t' ((hworks t').1 ht')
      owned := fun t' m ht' hm => hinv.owned t' m ((hworks t').1 ht') hm
      unique := fun t₁ t₂ h₁ h₂ => hinv.unique t₁ t₂ ((hworks t₁).1 h₁) ((hworks t₂).1 h₂)
      typed := hinv.typed
      stored := hinv.stored
      fits := fun t' q hq hwq => by
        rw [find_setPlace] at hq
        split_ifs at hq with heq
        · obtain rfl : p' = q := Option.some.inj hq
          exact hfits
        · exact hinv.fits t' q hq hwq
      opened := fun t' ht' hsome => hinv.opened t' ((hworks t').1 ht') hsome
      awake := fun m hm hne => (hinv.awake m hm hne).imp id fun hrest =>
        hrest.imp id fun ⟨t', ht'⟩ => ⟨t', (hchosen t').2 ht'⟩ }

/-- A thread takes the packets of a buffer on which nobody else works. -/
theorem Inv.hold {s s' : State} {d : Descriptor} {t : ℕ} (h : s.Inv d) {m m' : Buffering}
    {p : Place}
    (hm : s.managers d = some m) (hne : m.data ≠ [])
    (hfree : ∀ t', s.WorksOn t' d → t' = t)
    (hm' : s'.managers d = some m') (hdata : m'.data = []) (hthread : m'.doingThread = t)
    (hp : s'.running.find t = some p) (hw : p.works = some d) (hfits : p.Fits (s.types d))
    (hrest : ∀ t', t' ≠ t → s'.running.find t' = s.running.find t')
    (hqueued : s'.operationSendFor = s.operationSendFor)
    (hdescriptors : s'.descriptors = s.descriptors) (hadded : s'.added = s.added)
    (htypes : s'.types = s.types) : s'.Inv d := by
  have hsome : (s.managers d).isSome = true := by rw [hm]; rfl
  have hsome' : (s'.managers d).isSome = true := by rw [hm']; rfl
  have hopen := (h.stored m hm hne).2
  have honly : ∀ t', s'.WorksOn t' d → t' = t := by
    rintro t' ⟨q, hq, hwq⟩
    by_contra heq
    rw [hrest t' heq] at hq
    exact heq (hfree t' ⟨q, hq, hwq⟩)
  have hnoData : ∀ m₁, s'.managers d = some m₁ → m₁.data = [] := by
    intro m₁ hm₁
    obtain rfl : m' = m₁ := Option.some.inj (hm'.symm.trans hm₁)
    exact hdata
  exact {
    queued := fun hq => by
      rw [hqueued] at hq
      exact ⟨hsome', (h.queued hq).2⟩
    chosen := fun t' ht' => by
      by_cases heq : t' = t
      · rw [heq, hp, Option.some.injEq] at ht'
        rw [ht'] at hw
        cases hw
      · rw [hrest t' heq] at ht'
        exact ⟨hsome', (h.chosen t' ht').2⟩
    known := fun _ => by
      rw [hadded]
      exact h.known hsome
    working := fun m₁ hm₁ _ => by
      obtain rfl : m' = m₁ := Option.some.inj (hm'.symm.trans hm₁)
      rw [hthread]
      exact ⟨p, hp, hw⟩
    added := fun _ _ => by
      rw [hadded]
      exact h.known hsome
    owned := fun t' m₁ ht' hm₁ => by
      obtain rfl : m' = m₁ := Option.some.inj (hm'.symm.trans hm₁)
      rw [hthread, honly t' ht']
    unique := fun t₁ t₂ h₁ h₂ => (honly t₁ h₁).trans (honly t₂ h₂).symm
    typed := fun ty hty => by
      rw [hdescriptors] at hty
      rw [htypes]
      exact h.typed ty hty
    stored := fun m₁ hm₁ hne₁ => absurd (hnoData m₁ hm₁) hne₁
    fits := fun t' q hq hwq => by
      obtain rfl := honly t' ⟨q, hq, hwq⟩
      obtain rfl : p = q := Option.some.inj (hp.symm.trans hq)
      rw [htypes]
      exact hfits
    opened := fun _ _ _ => by
      rw [hdescriptors]
      exact hopen
    awake := fun m₁ hm₁ hne₁ => absurd (hnoData m₁ hm₁) hne₁ }

/-- A choice comes to nothing. -/
theorem Sound.unchoose (h : s.Sound) {t : ℕ} {d : Descriptor}
    (hp : s.running.find t = some (.chosen d))
    (hbusy : ∀ m, s.managers d = some m → m.data ≠ [] → m.doingThread ≠ 0) : (s.end_ t).Sound := by
  have hinv := h.desc d
  have hidle : ¬ s.WorksOn t d := by
    rintro ⟨p, hp', hw⟩
    obtain rfl := Option.some.inj (hp.symm.trans hp')
    cases hw
  have hworks : ∀ t', (s.end_ t).WorksOn t' d ↔ s.WorksOn t' d := fun t' => by
    rw [worksOn_end, and_iff_right_iff_imp]
    rintro hw rfl
    exact hidle hw
  refine h.change d (h.threads_end t) (fun d' hd => same_end fun q hq => ?_) ?_
  · obtain rfl := Option.some.inj (hp.symm.trans hq)
    exact fun heq => hd (Option.some.inj heq).symm
  · exact {
      queued := hinv.queued
      chosen := fun t' ht' => by
        rw [find_end] at ht'
        split_ifs at ht'
        exact hinv.chosen t' ht'
      known := hinv.known
      working := fun m hm hne => (hworks _).2 (hinv.working m hm hne)
      added := fun t' ht' => hinv.added t' ((hworks t').1 ht')
      owned := fun t' m ht' hm => hinv.owned t' m ((hworks t').1 ht') hm
      unique := fun t₁ t₂ h₁ h₂ => hinv.unique t₁ t₂ ((hworks t₁).1 h₁) ((hworks t₂).1 h₂)
      typed := hinv.typed
      stored := hinv.stored
      fits := fun t' q hq hwq => by
        rw [find_end] at hq
        split_ifs at hq
        exact hinv.fits t' q hq hwq
      opened := fun t' ht' hsome => hinv.opened t' ((hworks t').1 ht') hsome
      awake := fun m hm hne => Or.inl (hbusy m hm hne) }

/-- A thread leaves a buffer that is not there any more. -/
theorem Sound.lost (h : s.Sound) {t : ℕ} {d : Descriptor} {p : Place}
    (hp : s.running.find t = some p) (hw : p.works = some d) (hm : s.managers d = none) :
    (s.end_ t).Sound := by
  have hinv := h.desc d
  have hnone : (s.managers d).isSome ≠ true := by
    rw [hm]
    exact Bool.false_ne_true
  have hfind : ∀ t' q, (s.end_ t).running.find t' = some q → s.running.find t' = some q := by
    intro t' q hq
    rw [find_end] at hq
    split_ifs at hq
    exact hq
  refine h.change d (h.threads_end t) (fun d' hd => same_end fun q hq => ?_) ?_
  · obtain rfl := Option.some.inj (hp.symm.trans hq)
    rw [p.desc_of_works hw, Ne, Option.some.injEq]
    exact hd.symm
  · exact hinv.without (fun hq => hnone (hinv.queued hq).1) hm
      (fun t' ht' => hnone (hinv.chosen t' (hfind t' _ ht')).1) (fun t' q hq _ => hfind t' q hq) rfl
      rfl fun _ hty => hty

/-- A thread leaves a buffer that is empty. -/
theorem Sound.release (h : s.Sound) {t : ℕ} {d : Descriptor} {p : Place} {currentSm : ℕ}
    {m' : Buffering} (hp : s.running.find t = some p) (hw : p.works = some d)
    (hm : (s.managers d).isSome = true) (hdata : m'.data = []) (hthread : m'.doingThread = 0) :
    ((s.setManager d currentSm m').end_ t).Sound := by
  have hinv := h.desc d
  have hself : ∀ m, ((s.setManager d currentSm m').end_ t).managers d = some m → m = m' :=
    fun m hm => Option.some.inj (hm.symm.trans (setManager_self d currentSm m'))
  have hsome : (((s.setManager d currentSm m').end_ t).managers d).isSome = true :=
    congrArg Option.isSome (setManager_self d currentSm m')
  have hfind : ∀ t' q, (s.end_ t).running.find t' = some q → s.running.find t' = some q := by
    intro t' q hq
    rw [find_end] at hq
    split_ifs at hq
    exact hq
  have hfree : ∀ t', ¬ ((s.setManager d currentSm m').end_ t).WorksOn t' d := by
    rintro t' ⟨q, hq, hwq⟩
    have heq := hinv.unique t' t ⟨q, hfind t' q hq, hwq⟩ ⟨p, hp, hw⟩
    rw [find_end, if_pos heq] at hq
    cases hq
  refine h.change d (h.threads_end t) (fun d' hd => ?_) ?_
  · refine (same_setManager hd currentSm m').trans (same_end (t := t) fun q hq => ?_)
    obtain rfl := Option.some.inj (hp.symm.trans hq)
    rw [p.desc_of_works hw, Ne, Option.some.injEq]
    exact hd.symm
  · exact {
      queued := fun hq => ⟨hsome, (hinv.queued hq).2⟩
      chosen := fun t' ht' => ⟨hsome, (hinv.chosen t' (hfind t' _ ht')).2⟩
      known := fun _ => hinv.known hm
      working := fun m hm' hne => absurd (hself m hm' ▸ hthread) hne
      added := fun t' ht' => absurd ht' (hfree t')
      owned := fun t' _ ht' _ => absurd ht' (hfree t')
      unique := fun t' _ ht' _ => absurd ht' (hfree t')
      typed := hinv.typed
      stored := fun m hm' hne => absurd (hself m hm' ▸ hdata) hne
      fits := fun t' q hq hwq => absurd ⟨q, hq, hwq⟩ (hfree t')
      opened := fun t' ht' _ => absurd ht' (hfree t')
      awake := fun m hm' hne => absurd (hself m hm' ▸ hdata) hne }

theorem Sound.start (h : s.Sound) (t : ℕ) : (s.start t).Sound := by
  unfold State.start
  split_ifs with hstart
  · obtain ⟨hzero, -, hfree⟩ := hstart
    have hless : ({ s with pending := s.pending - 1 } : State).Sound :=
      ⟨h.thread, fun d => (h.desc d).congr ⟨Iff.rfl, rfl, rfl, rfl, rfl, fun _ _ _ => Iff.rfl⟩⟩
    refine ⟨hless.threads_setPlace hzero .started, fun d => (hless.desc d).congr ?_⟩
    refine same_setPlace (fun p hp => ?_) (by simp [Place.desc])
    exact absurd (hfree.symm.trans hp) (by simp)
  · exact h

theorem Sound.choose (h : s.Sound) {t : ℕ} (hp : s.running.find t = some .started) :
    (s.choose t).Sound := by
  have hold : ∀ d q, s.running.find t = some q → q.desc ≠ some d := by
    intro d q hq
    obtain rfl := Option.some.inj (hp.symm.trans hq)
    simp [Place.desc]
  unfold State.choose
  split_ifs with hnonempty
  · set d := s.operationSendFor.min' hnonempty with hd
    have hmem : d ∈ s.operationSendFor := Finset.min'_mem _ _
    have hinv := h.desc d
    have hvalid := hinv.queued hmem
    let s₁ : State := { s with operationSendFor := s.operationSendFor.erase d }
    have hworks : ∀ t', (s₁.setPlace t (.chosen d)).WorksOn t' d ↔ s.WorksOn t' d := fun t' => by
      rw [worksOn_setPlace]
      split_ifs with heq
      · refine ⟨fun hw => (nomatch hw), fun ⟨q, hq, hwq⟩ => ?_⟩
        rw [heq] at hq
        exact absurd (q.desc_of_works hwq) (hold d q hq)
      · exact Iff.rfl
    refine h.change d ?_ (fun d' hd' => ?_) ?_
    · exact h.threads_setPlace (h.thread t _ hp) _
    · have hsame : s.Same s₁ d' := ⟨⟨Finset.mem_of_mem_erase, Finset.mem_erase_of_ne_of_mem hd'⟩,
        rfl, rfl, rfl, rfl, fun _ _ _ => Iff.rfl⟩
      exact hsame.trans (same_setPlace (hold d') fun heq => hd' (Option.some.inj heq).symm)
    · exact {
        queued := fun _ => hvalid
        chosen := fun _ _ => hvalid
        known := hinv.known
        working := fun m hm hne => (hworks _).2 (hinv.working m hm hne)
        added := fun t' ht' => hinv.added t' ((hworks t').1 ht')
        owned := fun t' m ht' hm => hinv.owned t' m ((hworks t').1 ht') hm
        unique := fun t₁ t₂ h₁ h₂ => hinv.unique t₁ t₂ ((hworks t₁).1 h₁) ((hworks t₂).1 h₂)
        typed := hinv.typed
        stored := hinv.stored
        fits := fun t' q hq hwq => by
          rw [find_setPlace] at hq
          split_ifs at hq with heq
          · obtain rfl := Option.some.inj hq
            cases hwq
          · exact hinv.fits t' q hq hwq
        opened := fun t' ht' hsome => hinv.opened t' ((hworks t').1 ht') hsome
        awake := fun _ _ _ => Or.inr (Or.inr ⟨t, find_setPlace_self t _⟩) }
  · refine ⟨h.threads_end t, fun d => (h.desc d).congr (same_end (hold d))⟩

/-- A thread of a place about the descriptor takes the packets of its buffer. -/
theorem Sound.hold (h : s.Sound) {t : ℕ} {d : Descriptor} {p p' : Place} {currentSm : ℕ}
    {m m' : Buffering} (hp : s.running.find t = some p) (hdesc : p.desc = some d)
    (hm : s.managers d = some m) (hne : m.data ≠ []) (hfree : ∀ t', s.WorksOn t' d → t' = t)
    (hdata : m'.data = []) (hthread : m'.doingThread = t) (hw' : p'.works = some d)
    (hfits : p'.Fits (s.types d)) : ((s.setManager d currentSm m').setPlace t p').Sound := by
  refine h.change d (h.threads_setPlace (h.thread t p hp) p') (fun d' hd => ?_) ?_
  · refine (same_setManager hd currentSm m').trans (same_setPlace (fun q hq => ?_) ?_)
    · obtain rfl := Option.some.inj (hp.symm.trans hq)
      rw [hdesc, Ne, Option.some.injEq]
      exact hd.symm
    · rw [p'.desc_of_works hw', Ne, Option.some.injEq]
      exact hd.symm
  · exact (h.desc d).hold hm hne hfree (setManager_self d currentSm m') hdata hthread
      (find_setPlace_self t p') hw' hfits (fun t' ht' => find_setPlace_of_ne ht' p') rfl rfl rfl rfl

theorem Sound.begin_ (h : s.Sound) {t : ℕ} {d : Descriptor}
    (hp : s.running.find t = some (.chosen d)) : ∃ s', s.begin_ t d = .ok s' ∧ s'.Sound := by
  have hinv := h.desc d
  obtain ⟨hsome, hvalid⟩ := hinv.chosen t hp
  obtain ⟨m, hm⟩ := Option.isSome_iff_exists.1 hsome
  have hown : ∀ m', s.managers d = some m' → m' = m := fun m' hm' =>
    Option.some.inj (hm'.symm.trans hm)
  unfold State.begin_
  rw [hm]
  by_cases hbusy : m.doingThread ≠ 0
  · refine ⟨_, if_pos hbusy, h.unchoose hp fun m' hm' _ => ?_⟩
    rw [hown m' hm']
    exact hbusy
  · rw [not_not] at hbusy
    have hfree : ∀ t', s.WorksOn t' d → t' = t := by
      rintro t' ⟨p, hp', hw⟩
      have hthread := hinv.owned t' m ⟨p, hp', hw⟩ hm
      exact absurd (hthread.symm.trans hbusy) (h.thread t' p hp')
    by_cases hempty : m.data = []
    · refine ⟨s.end_ t, ?_, h.unchoose hp fun m' hm' hne => ?_⟩
      · simp only [Buffering.try_of_empty hempty]
        exact if_neg (not_not.2 hbusy)
      · rw [hown m' hm'] at hne
        exact absurd hempty hne
    · obtain ⟨c', m', htry, hdata, hthread⟩ := Buffering.try_of_idle hempty hbusy t s.currentSm
      refine ⟨(s.setManager d c' m').setPlace t (.begun d m.data), ?_, ?_⟩
      · simp only [htry]
        exact if_neg (not_not.2 hbusy)
      · exact h.hold hp rfl hm hempty hfree hdata hthread rfl ⟨(hinv.stored m hm hempty).1, hvalid⟩

theorem Sound.enter (h : s.Sound) {t : ℕ} {d : Descriptor} {data : List Packet}
    (hp : s.running.find t = some (.begun d data)) : (s.enter t d data).Sound := by
  have hinv := h.desc d
  obtain ⟨⟨ty, hty, hreceiver⟩, hvalid⟩ := hinv.fits t _ hp rfl
  unfold State.enter
  rw [if_pos hvalid]
  cases hopen : s.descriptors d with
  | none =>
    refine (h.conclude d _).lost hp rfl ?_
    by_contra hm
    have hsome := hinv.opened t ⟨_, hp, rfl⟩ (Option.isSome_iff_ne_none.2 hm)
    rw [hopen] at hsome
    cases hsome
  | some type =>
    obtain rfl : ty = type := Option.some.inj (hty.symm.trans (hinv.typed type hopen))
    exact h.replace hp rfl rfl ⟨ty, hty, rfl, hreceiver⟩

theorem Sound.fill (h : s.Sound) {t : ℕ} {d : Descriptor} {isConsumer : Bool} {data : List Packet}
    (filling : Filling) (hp : s.running.find t = some (.looping d isConsumer data)) :
    ∃ s', s.fill filling t d isConsumer data = .ok s' ∧ s'.Sound := by
  obtain ⟨ty, hty, hconsumer, hreceiver⟩ := (h.desc d).fits t _ hp rfl
  unfold State.fill
  cases isConsumer with
  | false => exact ⟨_, rfl, h.replace hp rfl rfl ⟨ty, hty, hconsumer⟩⟩
  | true =>
    have hone := hreceiver (of_decide_eq_true hconsumer.symm)
    have hany : ¬ (data.any fun p => p.data.dataId.routing.uuids.length ≠ 1) = true := by
      rw [List.any_eq_true]
      rintro ⟨p, hmem, hp⟩
      exact absurd (hone p hmem) (of_decide_eq_true hp)
    exact ⟨_, (if_pos rfl).trans (if_neg hany), (h.conclude d _).replace hp rfl rfl
      ⟨ty, hty, hconsumer⟩⟩

theorem Sound.send (h : s.Sound) {t : ℕ} {d : Descriptor} {isConsumer isNotClosed : Bool}
    {data : List Item} {fails : List FailSend} (isSent : Bool)
    (hp : s.running.find t = some (.sending d isConsumer isNotClosed data fails)) :
    (s.send isSent t d isConsumer isNotClosed fails data).Sound := by
  have hfits := (h.desc d).fits t _ hp rfl
  cases data with
  | nil =>
    refine (h.note fails).replace (p := .sending d isConsumer isNotClosed [] fails) ?_ rfl rfl ?_
    · rw [note_running]
      exact hp
    · rw [note_types]
      exact hfits
  | cons i rest =>
    unfold State.send
    split_ifs
    · exact (h.conclude d _).replace hp rfl rfl hfits
    all_goals exact (h.conclude d _).replace hp rfl rfl hfits

theorem Sound.mNextSend (h : s.Sound) {t : ℕ} {d : Descriptor} {isConsumer : Bool}
    (hp : s.running.find t = some (.next d isConsumer)) :
    ∃ s', s.mNextSend t d isConsumer = .ok s' ∧ s'.Sound := by
  have hinv := h.desc d
  have hworks : s.WorksOn t d := ⟨_, hp, rfl⟩
  obtain ⟨ty, hty, hconsumer⟩ := hinv.fits t _ hp rfl
  unfold State.mNextSend
  cases hm : s.managers d with
  | none => exact ⟨_, rfl, h.lost hp rfl hm⟩
  | some m =>
    obtain ⟨m₁, hfinish, hdata₁, hidle⟩ := m.finish_nothing false
    rw [hinv.owned t m hworks hm] at hfinish
    simp only [hfinish]
    by_cases hempty : m₁.data = []
    · refine ⟨(s.setManager d s.currentSm m₁).end_ t, ?_, ?_⟩
      · simp only [bind, Except.bind, Buffering.try_of_empty hempty]
        rfl
      · exact h.release hp rfl (Option.isSome_iff_exists.2 ⟨m, hm⟩) hempty hidle
    · obtain ⟨c', m', htry, hdata, hthread⟩ := Buffering.try_of_idle hempty hidle t s.currentSm
      refine ⟨(s.setManager d c' m').setPlace t (.looping d isConsumer m₁.data), ?_, ?_⟩
      · simp only [bind, Except.bind, htry]
        rfl
      · rw [hdata₁] at hempty ⊢
        obtain ⟨⟨ty', hty', hreceiver⟩, -⟩ := hinv.stored m hm hempty
        obtain rfl : ty = ty' := Option.some.inj (hty.symm.trans hty')
        exact h.hold hp rfl hm hempty (fun t' ht' => hinv.unique t' t ht' hworks) hdata hthread rfl
          ⟨ty, hty, hconsumer, hreceiver⟩

theorem Sound.goOn (h : s.Sound) (t : ℕ) (meeting : Meeting) :
    ∃ s', s.goOn t meeting = .ok s' ∧ s'.Sound := by
  unfold State.goOn
  cases hp : s.running.find t with
  | none => exact ⟨s, rfl, h⟩
  | some p =>
    cases p with
    | started => exact ⟨_, rfl, h.choose hp⟩
    | chosen desc => exact h.begin_ hp
    | begun desc data => exact ⟨_, rfl, h.enter hp⟩
    | looping desc isConsumer data => exact h.fill meeting.filling hp
    | sending desc isConsumer isNotClosed data fails => exact ⟨_, rfl, h.send meeting.isSent hp⟩
    | next desc isConsumer => exact h.mNextSend hp

theorem Sound.step (h : s.Sound) {op : Step} (hused : Used s op) :
    ∃ s', Senders.step op s = .ok s' ∧ s'.Sound := by
  cases op with
  | addChannel aVal limits =>
    refine ⟨_, rfl, ?_⟩
    split_ifs
    · exact h
    · exact h.mAddChannelFor hused limits
  | removeChannel aVal =>
    refine ⟨_, rfl, ?_⟩
    split_ifs with hread
    · exact h
    · exact h.mRemoveChannelFor (Bool.eq_false_of_not_eq_true hread) aVal
  | opened aVal type => exact ⟨_, rfl, h.opened hused⟩
  | closed aVal => exact ⟨_, rfl, h.closed (Option.isNone_iff_eq_none.1 hused)⟩
  | send aBy aData =>
    obtain ⟨r, hsend, hsound⟩ := h.mSendUserData hused
    refine ⟨r.2.1, ?_, hsound⟩
    simp only [Senders.step, hsend]
    rfl
  | start t => exact ⟨_, rfl, h.start t⟩
  | goOn t meeting => exact h.goOn t meeting

theorem sound_init : init.Sound := by
  refine ⟨fun t p hp => (by cases hp), fun d => ?_⟩
  have hno : ∀ t, ¬ init.WorksOn t d := by
    rintro t ⟨p, hp, -⟩
    cases hp
  exact {
    queued := fun hq => absurd hq (Finset.notMem_empty d)
    chosen := fun t ht => by cases ht
    known := fun hm => by cases hm
    working := fun m hm => by cases hm
    added := fun t ht => absurd ht (hno t)
    owned := fun t m ht => absurd ht (hno t)
    unique := fun t t' ht => absurd ht (hno t)
    typed := fun ty hty => by cases hty
    stored := fun m hm => by cases hm
    fits := fun t p hp => by cases hp
    opened := fun t ht => absurd ht (hno t)
    awake := fun m hm => by cases hm }

end State

/-- As the rest of the kernel uses them, the senders keep their promises. -/
theorem sound_of_run {ops : List Step} {s : State} (hs : s.Sound)
    (hused : EveryStep step Used ops s) : ∃ s', runAll step ops s = .ok s' ∧ s'.Sound :=
  runAll_of_step (fun _ _ h hop => h.step hop) hs hused

/-- In every run no check fails, no two threads work on one buffer, and a buffer says which thread
works on it. -/
theorem run_exclusive {ops : List Step} (hused : EveryStep step Used ops .init) :
    ∃ s, runAll step ops .init = .ok s ∧ ∀ d,
      (∀ t t', s.WorksOn t d → s.WorksOn t' d → t = t') ∧
      ∀ m, s.managers d = some m → ∀ t, s.WorksOn t d ↔ t ≠ 0 ∧ m.doingThread = t := by
  obtain ⟨s, hrun, hsound⟩ := sound_of_run State.sound_init hused
  refine ⟨s, hrun, fun d => ⟨(hsound.desc d).unique, fun m hm t => ?_⟩⟩
  constructor
  · intro hw
    obtain ⟨p, hp, -⟩ := id hw
    exact ⟨hsound.thread t p hp, (hsound.desc d).owned t m hw hm⟩
  · rintro ⟨hne, rfl⟩
    exact (hsound.desc d).working m hm hne

/-- A packet for the program 5. -/
def packetFor (data : List Byte) : Packet :=
  ⟨⟨⟨1, ['p'], 0, [], [7], [], ⟨⟨5, []⟩, [5]⟩, .default, .little, ⟨⟨0, 0, 0⟩, [1]⟩⟩, data⟩, false⟩

/-- Every packet has its handlers. -/
def meets (isSent : Bool) : Meeting := ⟨fun d => (d, eNoError), isSent⟩

/-- Two threads send to a consumer and to a kernel; more data comes, and the kernel goes. -/
def sendRun : List Step :=
  [.opened 1 .consumer, .addChannel 1 (8, 0), .opened 2 .kernel, .addChannel 2 (0, 0),
    .send 1 [packetFor [1, 2], packetFor [3]], .send 2 [packetFor [4]], .start 7, .start 8,
    .goOn 7 (meets true), .goOn 8 (meets true), .goOn 7 (meets true), .goOn 8 (meets true),
    .goOn 7 (meets true), .send 1 [packetFor [5]], .removeChannel 2, .closed 2,
    .goOn 8 (meets true), .goOn 7 (meets true), .goOn 7 (meets true), .goOn 7 (meets false),
    .goOn 7 (meets true), .goOn 7 (meets true)]

theorem run_exclusive_sendRun : ∃ s, runAll step sendRun .init = .ok s ∧ ∀ d,
    (∀ t t', s.WorksOn t d → s.WorksOn t' d → t = t') ∧
    ∀ m, s.managers d = some m → ∀ t, s.WorksOn t d ↔ t ≠ 0 ∧ m.doingThread = t :=
  run_exclusive (by decide +kernel)

end Senders

end UdtKernel
