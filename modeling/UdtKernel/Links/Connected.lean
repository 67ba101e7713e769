import UdtKernel.Links.Handshake

set_option autoImplicit false

/-! What two kernels know of each other while they connect, and what comes over their links. -/

namespace UdtKernel.Links
open UdtKernel.Lib

variable {α : Type}

def isAccept : Message α → Bool
  | .accepted _ => true
  | .protocol _ | .requestInfo _ | .dgInfo _ | .main _ | .payload _ => false

def ofPayload : Message α → Option (Payload α)
  | .payload p => some p
  | .protocol _ | .requestInfo _ | .dgInfo _ | .main _ | .accepted _ => none

/-- What is on its way to `CKernelIo`. -/
def payloads (l : List (Message α)) : List (Payload α) := l.filterMap ofPayload

namespace Work

/-- All that a datagram about the main channel leads to: datagrams about the main channel, and that
the link is accepted, which is told when it becomes so. -/
structure Spoke (w w' : Work α) : Prop where
  kernel : w'.link.kernel = w.link.kernel
  state : w'.link.state = .open_ → w.link.state = .open_
  told : ∃ l, w'.out = w.out ++ l ∧
    (∀ m ∈ l, (∃ x, m = .main x) ∨ m = .accepted w.link.kernel.id) ∧
    l.countP isAccept + w.link.isAccepted.toNat = w'.link.isAccepted.toNat

variable (w : Work α)

theorem Spoke.refl : w.Spoke w :=
  ⟨rfl, id, [], (List.append_nil _).symm, fun _ hm => absurd hm List.not_mem_nil, Nat.zero_add _⟩

variable {w} {w' w'' : Work α}

theorem Spoke.trans (h : w.Spoke w') (h' : w'.Spoke w'') : w.Spoke w'' := by
  obtain ⟨l, hout, honly, hcount⟩ := h.told
  obtain ⟨l', hout', honly', hcount'⟩ := h'.told
  refine ⟨h'.kernel.trans h.kernel, fun hopen => h.state (h'.state hopen), l ++ l', ?_, ?_, ?_⟩
  · rw [hout', hout, List.append_assoc]
  · intro m hm
    rcases List.mem_append.1 hm with hm | hm
    · exact honly m hm
    · rw [← h.kernel]
      exact honly' m hm
  · rw [List.countP_append]
    omega

theorem spoke_say (l : List MainMessage) : w.Spoke (w.say l) := by
  refine ⟨rfl, id, l.map .main, rfl, fun m hm => ?_, ?_⟩
  · obtain ⟨x, -, rfl⟩ := List.mem_map.1 hm
    exact Or.inl ⟨x, rfl⟩
  · have hnone : (l.map (.main : MainMessage → Message α)).countP isAccept = 0 := by
      rw [List.countP_eq_zero]
      intro m hm
      obtain ⟨x, -, rfl⟩ := List.mem_map.1 hm
      exact Bool.false_ne_true
    rw [hnone]
    exact Nat.zero_add _

theorem spoke_changeError : w.Spoke (w.changeState .error) :=
  ⟨rfl, fun h => (by cases h), [], (List.append_nil _).symm,
    fun _ hm => absurd hm List.not_mem_nil, Nat.zero_add _⟩

theorem spoke_setMain (hasMain : Bool) : w.Spoke (w.setMain hasMain) :=
  ⟨rfl, id, [], (List.append_nil _).symm, fun _ hm => absurd hm List.not_mem_nil, Nat.zero_add _⟩

theorem spoke_error (a : Answer) (type : Text) (error : ℕ) :
    w.Spoke (w.mSendMainChannelError a type error) := by
  unfold mSendMainChannelError
  split_ifs
  · exact spoke_say _
  · exact Spoke.refl w

theorem spoke_close (a : Answer) : w.Spoke (w.mCloseMain a) := by
  unfold mCloseMain
  split_ifs
  · exact (spoke_say _).trans (spoke_setMain _)
  · exact Spoke.refl w

theorem spoke_opened (a : Answer) : w.Spoke (w.mSendOpenedIfNeed a) := by
  unfold mSendOpenedIfNeed
  split_ifs with h
  · simp only [Bool.and_eq_true, Bool.not_eq_true'] at h
    refine ⟨rfl, id, [.accepted w.link.kernel.id], rfl, fun m hm => ?_, ?_⟩
    · exact Or.inr (List.mem_singleton.1 hm)
    · rw [h.1.1.1]
      rfl
  · exact Spoke.refl w

theorem spoke_fail (a : Answer) : w.Spoke (w.fail a) := (spoke_close a).trans spoke_changeError

theorem spoke_create (a : Answer) : w.Spoke (w.mCreateMainChannel a).1 := by
  unfold mCreateMainChannel
  split_ifs
  · exact (spoke_say _).trans (spoke_setMain _)
  · exact spoke_say _
  · exact Spoke.refl w

theorem state_create (w : Work α) (a : Answer) :
    (w.mCreateMainChannel a).1.link.state = w.link.state := by
  unfold mCreateMainChannel
  split_ifs
  · rfl
  · rfl
  · rfl

theorem spoke_open (a : Answer) : w.Spoke (w.mOpenMainChannel a).1 := by
  unfold mOpenMainChannel
  split_ifs
  · exact (spoke_say _).trans (spoke_setMain _)
  · exact spoke_say _
  · exact Spoke.refl w

theorem Spoke.ite {p : Prop} [Decidable p] (h : w.Spoke w') (h' : w.Spoke w'') :
    w.Spoke (if p then w' else w'') := by
  split_ifs
  · exact h
  · exact h'

theorem spoke_serverMain (a : Answer) (m : MainMessage) : w.Spoke (w.serverMain a m) := by
  have hhandle : w.Spoke (w.mHandleServiceDG a) := spoke_say _
  cases m with
  | param type =>
    apply Spoke.ite
    · have hclosed := (hhandle.trans spoke_changeError).trans (spoke_close a)
      exact (hhandle.ite hclosed).trans (spoke_opened a)
    · exact spoke_changeError.trans (spoke_error a _ _)
  | request type =>
    apply Spoke.ite
    · have hclosed := (hhandle.trans spoke_changeError).trans (spoke_close a)
      exact (hhandle.ite (hclosed.trans (spoke_error a _ _))).trans (spoke_opened a)
    · exact spoke_error a _ _
  | close type => exact (hhandle.trans (spoke_close a)).ite (spoke_error a _ _)
  | error type error =>
    have hsaid : w.Spoke (if w.link.hasMain = true then (w.mHandleServiceDG a).mSendOpenedIfNeed a
        else w.mSendMainChannelError a type eNoChannel) :=
      (hhandle.trans (spoke_opened a)).ite (spoke_error a _ _)
    exact (hsaid.trans (spoke_fail a)).ite hsaid

theorem spoke_clientMain (a : Answer) (m : MainMessage) : w.Spoke (w.clientMain a m) := by
  have hhandle : w.Spoke (w.mHandleServiceDG a) := spoke_say _
  cases m with
  | param type =>
    have hopen : w.Spoke (((if (w.mOpenMainChannel a).2 = eOk then (w.mOpenMainChannel a).1
        else (w.mOpenMainChannel a).1.mSendMainChannelError a type
          (w.mOpenMainChannel a).2)).mSendOpenedIfNeed a) :=
      ((spoke_open a).ite ((spoke_open a).trans (spoke_error a _ _))).trans (spoke_opened a)
    have hready := (Spoke.refl w).ite (p := w.link.hasMain = true) hopen
    have hhandled := hready.trans (spoke_say a.handling)
    exact (hhandled.ite (hhandled.trans (spoke_fail a))).ite hready
  | request type =>
    have hsaid := hhandle.trans (spoke_opened a)
    exact ((hsaid.ite (hsaid.trans (spoke_fail a))).ite
      ((spoke_opened a).trans (spoke_fail a))).ite ((spoke_error a _ _).trans (spoke_fail a))
  | close type => exact (hhandle.trans (spoke_close a)).ite (Spoke.refl w)
  | error type error =>
    have hsaid := hhandle.trans (spoke_opened a)
    exact (hsaid.ite (hsaid.trans (spoke_fail a))).ite
      ((spoke_error a _ _).trans (spoke_fail a))

end Work

namespace Side

/-- What is on its way from a side `a` to a side `b`, which have the links `l` and `m`. -/
structure Flow (a b : Side α) (l m : Link) (q : List (Message α)) : Prop where
  kernel : l.kernel = b.program
  only : ∀ x ∈ q, (∃ y, x = .main y) ∨ x = .accepted b.me ∨ (∃ p, x = .payload p) ∨
    ∃ p, x = .requestInfo p
  count : q.countP isAccept + b.opened.length ≤ l.isAccepted.toNat
  opened : ∀ p ∈ b.opened, p = m.kernel
  order : b.isClosed = false → m.state = .open_ → b.taken ++ payloads q = a.sent
  front : b.taken <+: a.sent
  used : a.sent ≠ [] → a.opened ≠ []

structure Processes (f : Side α → Link → Answer → Message α → Except Failure (Side α)) :
    Prop where
  main : ∀ s l a m, ∃ w, f s l a (.main m) = .ok (s.worked w) ∧ (⟨l, s.out⟩ : Work α).Spoke w
  accepted : ∀ s l a id, f s l a (.accepted id) = s.mAccepted l id
  payload : ∀ s l a p, f s l a (.payload p) = s.mReceivedData l p
  requestInfo : ∀ s l a p, f s l a (.requestInfo p) = .ok s

theorem processes_server : Processes (α := α) serverProcess :=
  ⟨fun _ _ a m => ⟨_, rfl, Work.spoke_serverMain a m⟩, fun _ _ _ _ => rfl, fun _ _ _ _ => rfl,
    fun _ _ _ _ => rfl⟩

theorem processes_client : Processes (α := α) clientProcess :=
  ⟨fun _ _ a m => ⟨_, rfl, Work.spoke_clientMain a m⟩, fun _ _ _ _ => rfl, fun _ _ _ _ => rfl,
    fun _ _ _ _ => rfl⟩

variable {a b b' : Side α} {l m : Link} {q : List (Message α)}

theorem payloads_append (q q' : List (Message α)) :
    payloads (q ++ q') = payloads q ++ payloads q' := List.filterMap_append

/-- Where the receiver of a flow of a link at work stands. -/
structure Stands (a b : Side α) (l m : Link) (q : List (Message α)) : Prop where
  stage : b.stage = .linked m
  isOpen : b.isClosed = false
  there : a.Flow b l m q
  back : b.Flow a m l b.out

theorem Stands.main {w : Work α} {y : MainMessage} (h : a.Stands b l m (.main y :: q))
    (hw : (⟨m, b.out⟩ : Work α).Spoke w) : a.Stands (b.worked w) l w.link q := by
  obtain ⟨ms, hout, honly, hcount⟩ := hw.told
  have hnone : payloads ms = [] := by
    apply List.filterMap_eq_nil_iff.2
    intro x hx
    rcases honly x hx with ⟨y, rfl⟩ | rfl
    · rfl
    · rfl
  have hback := h.back
  refine ⟨rfl, h.isOpen, ?_, ?_⟩
  · exact {
      kernel := h.there.kernel
      only := fun x hx => h.there.only x (List.mem_cons_of_mem _ hx)
      count := h.there.count
      opened := fun p hp => (h.there.opened p hp).trans hw.kernel.symm
      order := fun hopen hstate => h.there.order hopen (hw.state hstate)
      front := h.there.front
      used := h.there.used }
  · exact {
      kernel := hw.kernel.trans hback.kernel
      only := fun x hx => by
        change x ∈ w.out at hx
        rw [hout, List.mem_append] at hx
        rcases hx with hx | hx
        · exact hback.only x hx
        · rcases honly x hx with hmain | rfl
          · exact Or.inl hmain
          · refine Or.inr (Or.inl ?_)
            change Message.accepted m.kernel.id = _
            rw [hback.kernel]
            rfl
      count := by
        have hbound := hback.count
        change w.out.countP isAccept + a.opened.length ≤ w.link.isAccepted.toNat
        rw [hout, List.countP_append]
        change b.out.countP isAccept + _ + _ ≤ _
        change _ + m.isAccepted.toNat = _ at hcount
        omega
      opened := hback.opened
      order := fun hopen hstate => by
        change a.taken ++ payloads w.out = b.sent
        rw [hout, payloads_append, hnone, List.append_nil]
        exact hback.order hopen hstate
      front := hback.front
      used := hback.used }

theorem Stands.accepted {id : Uuid} (h : a.Stands b l m (.accepted id :: q)) :
    ∃ b', b.mAccepted m id = .ok b' ∧ a.Stands b' l m q ∧ b'.me = b.me := by
  have hid : id = b.me := by
    rcases h.there.only _ List.mem_cons_self with ⟨y, hy⟩ | hy | ⟨p, hp⟩ | ⟨p, hp⟩
    · cases hy
    · cases hy
      rfl
    · cases hp
    · cases hp
  have hback := h.back
  refine ⟨_, if_pos hid, ⟨h.stage, h.isOpen, ?_, ?_⟩, rfl⟩
  · exact {
      kernel := h.there.kernel
      only := fun x hx => h.there.only x (List.mem_cons_of_mem _ hx)
      count := by
        have hbound := h.there.count
        rw [List.countP_cons_of_pos (by rfl)] at hbound
        rw [List.length_append, List.length_singleton]
        omega
      opened := fun p hp => by
        rcases List.mem_append.1 hp with hp | hp
        · exact h.there.opened p hp
        · exact List.mem_singleton.1 hp
      order := h.there.order
      front := h.there.front
      used := h.there.used }
  · exact {
      kernel := hback.kernel
      only := hback.only
      count := hback.count
      opened := hback.opened
      order := hback.order
      front := hback.front
      used := fun _ => List.append_ne_nil_of_right_ne_nil _ (List.cons_ne_nil _ _) }

theorem Stands.requestInfo {p : Program} (h : a.Stands b l m (.requestInfo p :: q)) :
    a.Stands b l m q := by
  have hcount := h.there.count
  rw [List.countP_cons_of_neg (by exact Bool.false_ne_true)] at hcount
  refine ⟨h.stage, h.isOpen, ?_, h.back⟩
  exact {
    kernel := h.there.kernel
    only := fun x hx => h.there.only x (List.mem_cons_of_mem _ hx)
    count := hcount
    opened := h.there.opened
    order := h.there.order
    front := h.there.front
    used := h.there.used }

/-- What is received was sent over an open descriptor, so the link is accepted. -/
theorem Stands.isAccepted {p : Payload α} (h : a.Stands b l m (.payload p :: q))
    (hstate : m.state = .open_) : m.isAccepted = true := by
  have hsent : a.sent ≠ [] := by
    rw [← h.there.order h.isOpen hstate]
    exact List.append_ne_nil_of_right_ne_nil _ (List.cons_ne_nil _ _)
  have hopened := List.length_pos_of_ne_nil (h.there.used hsent)
  have hbound := h.back.count
  cases hm : m.isAccepted with
  | true => rfl
  | false =>
    rw [hm] at hbound
    change _ ≤ 0 at hbound
    omega

theorem Stands.take {p : Payload α} (h : a.Stands b l m (.payload p :: q))
    (hstate : m.state = .open_) :
    a.Stands { b with taken := b.taken ++ [p] } l m q := by
  have hall := h.there.order h.isOpen hstate
  have hback := h.back
  have hmore : b.taken ++ [p] ++ payloads q = a.sent := by
    rw [← hall, List.append_assoc]
    rfl
  refine ⟨h.stage, h.isOpen, ?_, ⟨hback.kernel, hback.only, hback.count, hback.opened, hback.order,
    hback.front, hback.used⟩⟩
  exact {
    kernel := h.there.kernel
    only := fun x hx => h.there.only x (List.mem_cons_of_mem _ hx)
    count := h.there.count
    opened := h.there.opened
    order := fun _ _ => hmore
    front := ⟨payloads q, hmore⟩
    used := h.there.used }

theorem Stands.skip {p : Payload α} (h : a.Stands b l m (.payload p :: q))
    (hstate : m.state ≠ .open_) : a.Stands b l m q := by
  refine ⟨h.stage, h.isOpen, ?_, h.back⟩
  exact {
    kernel := h.there.kernel
    only := fun x hx => h.there.only x (List.mem_cons_of_mem _ hx)
    count := h.there.count
    opened := h.there.opened
    order := fun _ hopen => absurd hopen hstate
    front := h.there.front
    used := h.there.used }

theorem Stands.payload {p : Payload α} (h : a.Stands b l m (.payload p :: q)) :
    ∃ b', b.mReceivedData m p = .ok b' ∧ a.Stands b' l m q ∧ b'.me = b.me := by
  unfold mReceivedData
  cases hstate : m.state with
  | error =>
    refine ⟨b, rfl, h.skip ?_, rfl⟩
    rw [hstate]
    exact LinkState.noConfusion
  | open_ =>
    cases p with
    | kernelInfos x =>
      exact ⟨_, if_pos (h.isAccepted hstate), h.take hstate, rfl⟩
    | demandsFor x => exact ⟨_, rfl, h.take hstate, rfl⟩
    | failSend x => exact ⟨_, rfl, h.take hstate, rfl⟩

variable {f : Side α → Link → Answer → Message α → Except Failure (Side α)}

/-- A link goes through what it receives without a check that fails. -/
theorem Stands.process (hf : Processes f) (chunk : List (Message α × Answer))
    (h : a.Stands b l m (chunk.map Prod.fst ++ q)) :
    ∃ b' m', process f chunk b = .ok b' ∧ a.Stands b' l m' q ∧ b'.me = b.me := by
  induction chunk generalizing b m with
  | nil => exact ⟨b, m, rfl, h, rfl⟩
  | cons e rest ih =>
    obtain ⟨x, ans⟩ := e
    have hturn : ∃ b₁ m₁, f b m ans x = .ok b₁ ∧
        a.Stands b₁ l m₁ (rest.map Prod.fst ++ q) ∧ b₁.me = b.me := by
      rcases h.there.only x List.mem_cons_self with ⟨y, rfl⟩ | rfl | ⟨p, rfl⟩ | ⟨p, rfl⟩
      · obtain ⟨w, heq, hspoke⟩ := hf.main b m ans y
        exact ⟨_, w.link, heq, Stands.main h hspoke, rfl⟩
      · obtain ⟨b₁, heq, hstands, hme⟩ := Stands.accepted h
        exact ⟨b₁, m, (hf.accepted _ _ _ _).trans heq, hstands, hme⟩
      · obtain ⟨b₁, heq, hstands, hme⟩ := Stands.payload h
        exact ⟨b₁, m, (hf.payload _ _ _ _).trans heq, hstands, hme⟩
      · exact ⟨b, m, hf.requestInfo _ _ _ _, Stands.requestInfo h, rfl⟩
    obtain ⟨b₁, m₁, heq, hstands, hme⟩ := hturn
    obtain ⟨b', m', hrest, hstands', hme'⟩ := ih hstands
    refine ⟨b', m', ?_, hstands', hme'.trans hme⟩
    simp only [Side.process, h.stage, heq]
    exact hrest

theorem Flow.closeSender (h : a.Flow b l m q) : a.close.Flow b l m q :=
  ⟨h.kernel, h.only, h.count, h.opened, h.order, h.front, h.used⟩

theorem Flow.closeReceiver (h : a.Flow b l m q) : a.Flow b.close l m q :=
  ⟨h.kernel, h.only, h.count, h.opened, fun hopen => (by cases hopen), h.front, h.used⟩

theorem Flow.holdSender (h : a.Flow b l m q) (held : Held) :
    { a with held := held }.Flow b l m q :=
  ⟨h.kernel, h.only, h.count, h.opened, h.order, h.front, h.used⟩

theorem Flow.holdReceiver (h : a.Flow b l m q) (held : Held) :
    a.Flow { b with held := held } l m q :=
  ⟨h.kernel, h.only, h.count, h.opened, h.order, h.front, h.used⟩

theorem Flow.leaves (h : a.Flow b l m q) (out : List (Message α)) :
    { a with out := out }.Flow b l m q :=
  ⟨h.kernel, h.only, h.count, h.opened, h.order, h.front, h.used⟩

theorem Flow.reaches (h : b.Flow a m l q) (out : List (Message α)) :
    b.Flow { a with out := out } m l q :=
  ⟨h.kernel, h.only, h.count, h.opened, h.order, h.front, h.used⟩

/-- A closed side drops what it receives. -/
theorem Flow.drop {ms : List (Message α)} (h : a.Flow b l m (ms ++ q))
    (hclosed : b.isClosed = true) :
    a.Flow b l m q := by
  have hcount := h.count
  rw [List.countP_append] at hcount
  exact {
    kernel := h.kernel
    only := fun x hx => h.only x (List.mem_append_right _ hx)
    count := by omega
    opened := h.opened
    order := fun hopen => by
      rw [hclosed] at hopen
      cases hopen
    front := h.front
    used := h.used }

/-- A link sends what `CKernelIo` gave it. -/
theorem Flow.send {p : Payload α} (h : a.Flow b l m a.out) (hopened : a.opened ≠ []) :
    { a.send (.payload p) with sent := a.sent ++ [p] }.Flow b l m
      (a.out ++ [Message.payload p]) := by
  have hcount := h.count
  exact {
    kernel := h.kernel
    only := fun x hx => by
      rcases List.mem_append.1 hx with hx | hx
      · exact h.only x hx
      · exact Or.inr (Or.inr (Or.inl ⟨p, List.mem_singleton.1 hx⟩))
    count := by
      rw [List.countP_append, List.countP_singleton]
      exact hcount
    opened := h.opened
    order := fun hopen hstate => by
      rw [payloads_append, ← List.append_assoc, h.order hopen hstate]
      rfl
    front := h.front.trans (List.prefix_append _ _)
    used := fun _ => hopened }

structure Linked (a b : Side α) (l m : Link) : Prop where
  stage : a.stage = .linked l
  stage' : b.stage = .linked m
  there : a.Flow b l m a.out
  back : b.Flow a m l b.out
  isOpen : a.isClosed = false → l.state = .open_
  isOpen' : b.isClosed = false → m.state = .open_

theorem Linked.symm (h : a.Linked b l m) : b.Linked a m l :=
  ⟨h.stage', h.stage, h.back, h.there, h.isOpen', h.isOpen⟩

theorem Linked.close (h : a.Linked b l m) : a.close.Linked b l m :=
  ⟨h.stage, h.stage', h.there.closeSender, h.back.closeReceiver, fun hopen => (by cases hopen),
    h.isOpen'⟩

theorem Linked.hold (h : a.Linked b l m) (held : Held) : { a with held := held }.Linked b l m :=
  ⟨h.stage, h.stage', h.there.holdSender held, h.back.holdReceiver held, h.isOpen, h.isOpen'⟩

theorem Linked.send {p : Payload α} (h : a.Linked b l m) (hopened : a.opened ≠ []) (isSent : Bool) :
    (a.mSend isSent p).Linked b l m := by
  unfold mSend
  rw [h.stage]
  dsimp only
  split_ifs
  · have hback := h.back
    exact ⟨h.stage, h.stage', h.there.send hopened, ⟨hback.kernel, hback.only, hback.count,
      hback.opened, hback.order, hback.front, hback.used⟩, h.isOpen, h.isOpen'⟩
  · exact h

/-- What the sides of a connection do with what they receive once they have a link. -/
def takeIn (f : Side α → Link → Answer → Message α → Except Failure (Side α)) (b : Side α)
    (m : Link) (chunk : List (Message α × Answer)) : Except Failure (Side α) :=
  if b.isClosed then .ok b
  else if m.state = .open_ then (b.process f chunk).map closeIfError else .ok b

theorem closeIfError_of_open {s : Side α} {m : Link} (h : s.stage = .linked m)
    (hopen : m.state = .open_) : s.closeIfError = s := by
  unfold closeIfError
  rw [h]
  exact if_neg (by rw [hopen]; exact LinkState.noConfusion)

theorem closeIfError_of_error {s : Side α} {m : Link} (h : s.stage = .linked m)
    (herror : m.state ≠ .open_) : s.closeIfError = s.close := by
  unfold closeIfError
  rw [h]
  apply if_pos
  cases hm : m.state with
  | open_ => exact absurd hm herror
  | error => rfl

theorem Linked.takeIn (hf : Processes f) {chunk : List (Message α × Answer)}
    {rest : List (Message α)} (h : a.Linked b l m) (hout : a.out = chunk.map Prod.fst ++ rest) :
    ∃ b' m', takeIn f b m chunk = .ok b' ∧ { a with out := rest }.Linked b' l m' ∧
      b'.me = b.me := by
  have hthere := h.there
  rw [hout] at hthere
  unfold Side.takeIn
  cases hclosed : b.isClosed with
  | true =>
    exact ⟨b, m, if_pos rfl, ⟨h.stage, h.stage', (hthere.drop hclosed).leaves rest,
      h.back.reaches rest, h.isOpen, h.isOpen'⟩, rfl⟩
  | false =>
    have hopen := h.isOpen' hclosed
    have hstands : a.Stands b l m (chunk.map Prod.fst ++ rest) :=
      ⟨h.stage', hclosed, hthere, h.back⟩
    obtain ⟨b', m', heq, hall, hme⟩ := Stands.process hf chunk hstands
    simp only [hopen, heq, if_true]
    by_cases hstate : m'.state = .open_
    · refine ⟨b', m', ?_, ⟨h.stage, hall.stage, hall.there.leaves rest, hall.back.reaches rest,
        h.isOpen, fun _ => hstate⟩, hme⟩
      exact congrArg Except.ok (closeIfError_of_open hall.stage hstate)
    · refine ⟨b'.close, m', ?_, ⟨h.stage, hall.stage, (hall.there.leaves rest).closeReceiver,
        (hall.back.reaches rest).closeSender, h.isOpen, fun hno => (by cases hno)⟩, hme⟩
      exact congrArg Except.ok (closeIfError_of_error hall.stage hstate)

structure Waits (s : Side α) (stage : Stage) : Prop where
  stage : s.stage = stage
  opened : s.opened = []
  taken : s.taken = []
  sent : s.sent = []

theorem Waits.close {s : Side α} {stage : Stage} (h : s.Waits stage) : s.close.Waits stage :=
  ⟨h.stage, h.opened, h.taken, h.sent⟩

theorem Waits.hold {s : Side α} {stage : Stage} (h : s.Waits stage) (held : Held) :
    { s with held := held }.Waits stage :=
  ⟨h.stage, h.opened, h.taken, h.sent⟩

theorem Waits.setOut {s : Side α} {stage : Stage} (h : s.Waits stage) (out : List (Message α)) :
    { s with out := out }.Waits stage :=
  ⟨h.stage, h.opened, h.taken, h.sent⟩

theorem Waits.setStage {s : Side α} {stage : Stage} (h : s.Waits stage) (next : Stage) :
    { s with stage := next }.Waits next :=
  ⟨rfl, h.opened, h.taken, h.sent⟩

end Side

namespace Connection

inductive Phase (c : Connection α) : Prop where
  | apart (hc : c.client.Waits .new) (hs : c.server.Waits .new) (hcout : c.client.out = [])
      (hsout : c.server.out = [])
  | presents (hc : c.client.Waits .handler) (hs : c.server.Waits .new)
      (hcout : c.client.out = [] ∨ c.client.out = [.protocol .kernel]) (hsout : c.server.out = [])
  | asks (hc : c.client.Waits .handler) (hs : c.server.Waits .handler) (hcout : c.client.out = [])
      (hsout : c.server.out = [] ∨ c.server.out = [.requestInfo c.server.program])
  | answers (hc : c.client.Waits (.linked ⟨c.server.program, .open_, false, false⟩))
      (hs : c.server.Waits .handler)
      (hcout : c.client.out = [] ∨ c.client.out = [.dgInfo c.client.program])
      (hsout : ∀ x ∈ c.server.out, x = .requestInfo c.server.program)
  | linked (l m : Link) (h : c.client.Linked c.server l m)

/-- No parser has lost where datagrams begin. -/
def Aligned (c : Connection α) : Prop := c.client.held ≠ .astray ∧ c.server.held ≠ .astray

def Goes (c : Connection α) (r : Except Failure (Connection α)) : Prop :=
  ∃ d, r = .ok d ∧ d.Phase ∧ d.Aligned ∧ d.client.me = c.client.me ∧ d.server.me = c.server.me

variable {c : Connection α}

theorem Phase.stay (h : c.Phase) (ha : c.Aligned) : c.Goes (.ok c) := ⟨c, rfl, h, ha, rfl, rfl⟩

theorem Phase.holdClient (h : c.Phase) (held : Held) :
    Phase { c with client := { c.client with held := held } } := by
  cases h with
  | apart hc hs hcout hsout => exact .apart (hc.hold held) hs hcout hsout
  | presents hc hs hcout hsout => exact .presents (hc.hold held) hs hcout hsout
  | asks hc hs hcout hsout => exact .asks (hc.hold held) hs hcout hsout
  | answers hc hs hcout hsout => exact .answers (hc.hold held) hs hcout hsout
  | linked l m h => exact .linked l m (h.hold held)

theorem Phase.holdServer (h : c.Phase) (held : Held) :
    Phase { c with server := { c.server with held := held } } := by
  cases h with
  | apart hc hs hcout hsout => exact .apart hc (hs.hold held) hcout hsout
  | presents hc hs hcout hsout => exact .presents hc (hs.hold held) hcout hsout
  | asks hc hs hcout hsout => exact .asks hc (hs.hold held) hcout hsout
  | answers hc hs hcout hsout => exact .answers hc (hs.hold held) hcout hsout
  | linked l m h => exact .linked l m (h.symm.hold held).symm

theorem mConnect_of_ne {s : Side α} (h : s.stage ≠ .new) (isSent : Bool) :
    s.mConnect isSent = s := by
  unfold Side.mConnect
  split
  · next hnew => exact absurd hnew h
  · rfl
  · rfl

theorem Phase.connect (h : c.Phase) (ha : c.Aligned) (isSent : Bool) :
    c.Goes (step (.connect isSent) c) := by
  change c.Goes (.ok { c with client := c.client.mConnect isSent })
  have hsame (hne : c.client.stage ≠ .new) :
      c.Goes (.ok { c with client := c.client.mConnect isSent }) := by
    rw [mConnect_of_ne hne]
    exact h.stay ha
  cases h with
  | apart hc hs hcout hsout =>
    unfold Side.mConnect
    rw [hc.stage]
    cases isSent with
    | true =>
      refine ⟨_, rfl, .presents (hc.setStage .handler |>.setOut _) hs (Or.inr ?_) hsout, ha, rfl,
        rfl⟩
      change c.client.out ++ _ = _
      rw [hcout]
      rfl
    | false => exact ⟨_, rfl, .apart hc.close hs hcout hsout, ha, rfl, rfl⟩
  | presents hc => exact hsame (by rw [hc.stage]; exact Stage.noConfusion)
  | asks hc => exact hsame (by rw [hc.stage]; exact Stage.noConfusion)
  | answers hc => exact hsame (by rw [hc.stage]; exact Stage.noConfusion)
  | linked l m h => exact hsame (by rw [h.stage]; exact Stage.noConfusion)

theorem Phase.close (h : c.Phase) (ha : c.Aligned) (who : Who) :
    c.Goes (step (.close who) c) := by
  refine ⟨_, rfl, ?_⟩
  cases who with
  | client =>
    refine ⟨?_, ha, rfl, rfl⟩
    cases h with
    | apart hc hs hcout hsout => exact .apart hc.close hs hcout hsout
    | presents hc hs hcout hsout => exact .presents hc.close hs hcout hsout
    | asks hc hs hcout hsout => exact .asks hc.close hs hcout hsout
    | answers hc hs hcout hsout => exact .answers hc.close hs hcout hsout
    | linked l m h => exact .linked l m h.close
  | server =>
    refine ⟨?_, ha, rfl, rfl⟩
    cases h with
    | apart hc hs hcout hsout => exact .apart hc hs.close hcout hsout
    | presents hc hs hcout hsout => exact .presents hc hs.close hcout hsout
    | asks hc hs hcout hsout => exact .asks hc hs.close hcout hsout
    | answers hc hs hcout hsout => exact .answers hc hs.close hcout hsout
    | linked l m h => exact .linked l m h.symm.close.symm

theorem mSend_same (s : Side α) (isSent : Bool) (p : Payload α) :
    (s.mSend isSent p).me = s.me ∧ (s.mSend isSent p).held = s.held := by
  unfold Side.mSend
  split
  · split_ifs
    · exact ⟨rfl, rfl⟩
    · exact ⟨rfl, rfl⟩
  · exact ⟨rfl, rfl⟩
  · exact ⟨rfl, rfl⟩

theorem Phase.send (h : c.Phase) (ha : c.Aligned) {who : Who} {isSent : Bool} {p : Payload α}
    (hused : Usual c (.send who isSent p)) : c.Goes (step (.send who isSent p) c) := by
  have hno : c.client.opened = [] → c.server.opened = [] → False := fun hc hs => by
    cases who with
    | client => exact hused hc
    | server => exact hused hs
  refine ⟨_, rfl, ?_⟩
  cases h with
  | apart hc hs => exact (hno hc.opened hs.opened).elim
  | presents hc hs => exact (hno hc.opened hs.opened).elim
  | asks hc hs => exact (hno hc.opened hs.opened).elim
  | answers hc hs => exact (hno hc.opened hs.opened).elim
  | linked l m h =>
    cases who with
    | client =>
      obtain ⟨hme, hheld⟩ := mSend_same c.client isSent p
      exact ⟨.linked l m (h.send hused isSent), ⟨hheld ▸ ha.1, ha.2⟩, hme, rfl⟩
    | server =>
      obtain ⟨hme, hheld⟩ := mSend_same c.server isSent p
      exact ⟨.linked l m (h.symm.send hused isSent).symm, ⟨ha.1, hheld ▸ ha.2⟩, rfl, hme⟩

section
variable (r : Received α) (q : List (Message α))

/-- What comes at once is the beginning of what is on its way. -/
theorem whole_append_more : (r.whole q).map Prod.fst ++ r.more q = q := by
  have htake : (r.whole q).map Prod.fst = q.take (r.whole q).length := by
    unfold Received.whole
    rw [List.length_zip, List.zip_eq_zip_take_min, List.map_fst_zip]
    simp only [List.length_take]
    omega
  unfold Received.more
  rw [htake, List.take_append_drop]

theorem partOf_of_more (h : r.more q = []) : r.partOf q = none := if_pos h

theorem nothing_nil : r.whole [] = [] ∧ r.partOf [] = none :=
  ⟨rfl, partOf_of_more r [] (List.drop_nil)⟩

/-- Of one datagram a part comes, or the whole and nothing behind it. -/
theorem whole_singleton (x : Message α) :
    r.whole [x] = [] ∧ r.more [x] = [x] ∨
      r.whole [x] ≠ [] ∧ (r.whole [x]).map Prod.fst = [x] ∧ r.more [x] = [] ∧
        r.partOf [x] = none := by
  have hall := whole_append_more r [x]
  cases hwhole : r.whole [x] with
  | nil =>
    rw [hwhole] at hall
    exact Or.inl ⟨rfl, hall⟩
  | cons e l =>
    rw [hwhole, List.map_cons, List.cons_append] at hall
    obtain ⟨he, hnil⟩ := List.cons.inj hall
    obtain ⟨hl, hmore⟩ := List.append_eq_nil_iff.1 hnil
    exact Or.inr ⟨List.cons_ne_nil e l, by rw [List.map_cons, he, hl], hmore,
      partOf_of_more r _ hmore⟩

end

theorem after_ne {h : Held} {isWhole isPart : Bool} (hne : h ≠ .astray)
    (hends : h = .part → isWhole = true → isPart = false) : h.after isWhole isPart ≠ .astray := by
  cases h with
  | nothing =>
    cases isPart with
    | true => exact Held.noConfusion
    | false => exact Held.noConfusion
  | part =>
    cases isPart with
    | true =>
      cases isWhole with
      | true => cases hends rfl rfl
      | false => exact Held.noConfusion
    | false => exact Held.noConfusion
  | astray => exact absurd rfl hne

/-- A parser stays with the datagrams when no link is made with a part behind. -/
theorem holding_ne {s s' : Side α} {isWhole isPart : Bool} (hne : s.held ≠ .astray)
    (hclosed : s.isClosed = true → s' = s)
    (hends : s.isClosed = false → s.held = .part → isWhole = true → isPart = false)
    (hlink : s'.isLinked = true → s.isLinked = false → isPart = false) :
    (s.holding s' isWhole isPart).held ≠ .astray := by
  unfold Side.holding
  cases hopen : s.isClosed with
  | true =>
    rw [if_pos rfl, hclosed hopen]
    exact hne
  | false =>
    rw [if_neg Bool.false_ne_true]
    have hafter : s.held.after isWhole isPart ≠ .astray := after_ne hne (hends hopen)
    dsimp only
    split_ifs with hnew
    · rw [Bool.and_eq_true, Bool.not_eq_true'] at hnew
      rw [hlink hnew.1 hnew.2] at hafter ⊢
      cases hheld : s.held with
      | nothing => exact Held.noConfusion
      | part => exact Held.noConfusion
      | astray => exact absurd hheld hne
    · exact hafter

theorem Phase.holding_client {s s' t : Side α} (h : Phase ⟨s', t⟩) (isWhole isPart : Bool) :
    Phase ⟨s.holding s' isWhole isPart, t⟩ := by
  unfold Side.holding
  split_ifs
  · exact h
  · exact h.holdClient _
  · exact h.holdClient _

theorem Phase.holding_server {s s' t : Side α} (h : Phase ⟨t, s'⟩) (isWhole isPart : Bool) :
    Phase ⟨t, s.holding s' isWhole isPart⟩ := by
  unfold Side.holding
  split_ifs
  · exact h
  · exact h.holdServer _
  · exact h.holdServer _

theorem holding_me (s s' : Side α) (isWhole isPart : Bool) :
    (s.holding s' isWhole isPart).me = s'.me := by
  unfold Side.holding
  split_ifs
  · rfl
  · rfl
  · rfl

/-- What a side makes of the first datagrams on their way and of a part of the next one. -/
structure Receives (c d : Connection α) (s s' : Side α) (part : Option Bool) : Prop where
  phase : d.Phase
  me : s'.me = s.me
  link : s'.isLinked = true → s.isLinked = false → part = none

theorem goes_client {a : Answer} {r : Received α} (h : c.Phase) (ha : c.Aligned)
    (hop : Usual c (.receive .client a r))
    (hgo : ¬ (r.whole c.server.out = [] ∧ r.partOf c.server.out = none) →
      ∃ s, c.client.clientReceive a (r.whole c.server.out) (r.partOf c.server.out) = .ok s ∧
        c.Receives ⟨s, { c.server with out := r.more c.server.out }⟩ c.client s
          (r.partOf c.server.out)) : c.Goes (step (.receive .client a r) c) := by
  change c.Goes (if r.whole c.server.out = [] ∧ r.partOf c.server.out = none then .ok c
    else c.client.clientReceive a (r.parsed c.server.out c.client.held) (r.partOf c.server.out) >>=
      fun s => .ok ⟨c.client.holding s (r.whole c.server.out ≠ []) (r.partOf c.server.out).isSome,
        { c.server with out := r.more c.server.out }⟩)
  split_ifs with hnothing
  · exact h.stay ha
  · obtain ⟨s, hs, hreceives⟩ := hgo hnothing
    have hparsed : r.parsed c.server.out c.client.held = r.whole c.server.out := if_neg ha.1
    rw [hparsed, hs]
    refine ⟨_, rfl, hreceives.phase.holding_client _ _, ⟨holding_ne ha.1 (fun hclosed => ?_)
      (fun hopen hpart hwhole => ?_) fun hlinked hnot => ?_, ha.2⟩,
      (holding_me ..).trans hreceives.me, rfl⟩
    · have hsame : c.client.clientReceive a (r.whole c.server.out) (r.partOf c.server.out) =
          .ok c.client := if_pos hclosed
      rw [hsame] at hs
      cases hs
      rfl
    · have hnone : r.partOf c.server.out = none := (hop hopen).2 hpart (of_decide_eq_true hwhole)
      rw [hnone]
      rfl
    · rw [hreceives.link hlinked hnot]
      rfl

theorem goes_server {a : Answer} {r : Received α} (h : c.Phase) (ha : c.Aligned)
    (hop : Usual c (.receive .server a r))
    (hgo : ¬ (r.whole c.client.out = [] ∧ r.partOf c.client.out = none) →
      ∃ s, c.server.serverReceive a (r.whole c.client.out) = .ok s ∧
        c.Receives ⟨{ c.client with out := r.more c.client.out }, s⟩ c.server s
          (r.partOf c.client.out)) : c.Goes (step (.receive .server a r) c) := by
  change c.Goes (if r.whole c.client.out = [] ∧ r.partOf c.client.out = none then .ok c
    else c.server.serverReceive a (r.parsed c.client.out c.server.held) >>=
      fun s => .ok ⟨{ c.client with out := r.more c.client.out },
        c.server.holding s (r.whole c.client.out ≠ []) (r.partOf c.client.out).isSome⟩)
  split_ifs with hnothing
  · exact h.stay ha
  · obtain ⟨s, hs, hreceives⟩ := hgo hnothing
    have hparsed : r.parsed c.client.out c.server.held = r.whole c.client.out := if_neg ha.2
    rw [hparsed, hs]
    refine ⟨_, rfl, hreceives.phase.holding_server _ _, ⟨ha.1, holding_ne ha.2 (fun hclosed => ?_)
      (fun hopen hpart hwhole => ?_) fun hlinked hnot => ?_⟩, rfl,
      (holding_me ..).trans hreceives.me⟩
    · have hsame : c.server.serverReceive a (r.whole c.client.out) = .ok c.server := if_pos hclosed
      rw [hsame] at hs
      cases hs
      rfl
    · have hnone : r.partOf c.client.out = none := (hop hopen).2 hpart (of_decide_eq_true hwhole)
      rw [hnone]
      rfl
    · rw [hreceives.link hlinked hnot]
      rfl

/-- The client, which presented itself, gets what the server asks for. -/
theorem Phase.asked (a : Answer) {chunk : List (Message α × Answer)}
    (hc : c.client.Waits .handler) (hs : c.server.Waits .handler) (hcout : c.client.out = [])
    (hne : chunk ≠ []) (hall : chunk.map Prod.fst = [.requestInfo c.server.program]) :
    ∃ s, c.client.clientReceive a chunk none = .ok s ∧
      c.Receives ⟨s, { c.server with out := [] }⟩ c.client s none := by
  unfold Side.clientReceive
  rw [hc.stage, hall]
  cases c.client.isClosed with
  | true =>
    exact ⟨_, rfl, .asks hc (hs.setOut []) hcout (Or.inl rfl), rfl, fun _ _ => rfl⟩
  | false =>
    have hhandle : c.client.clientHandle a [.requestInfo c.server.program] =
        if a.isSent then
          .ok { c.client.send (.dgInfo c.client.program) with
            stage := .linked ⟨c.server.program, .open_, false, false⟩ }
        else .ok c.client.close := rfl
    dsimp only
    rw [if_neg Bool.false_ne_true, if_neg fun hnil => hne hnil.1, hhandle]
    cases a.isSent with
    | false => exact ⟨_, rfl, .asks hc.close (hs.setOut []) hcout (Or.inl rfl), rfl, fun _ _ => rfl⟩
    | true =>
      refine ⟨_, rfl, .answers ((hc.setOut _).setStage _) (hs.setOut []) (Or.inr ?_)
        (fun x hx => absurd hx List.not_mem_nil), rfl, fun _ _ => rfl⟩
      change c.client.out ++ _ = _
      rw [hcout]
      rfl

/-- A link takes no notice of who the other side is. -/
theorem process_requestInfos {chunk : List (Message α × Answer)} {s : Side α} {l : Link}
    {p : Program} (hs : s.stage = .linked l)
    (hall : ∀ x ∈ chunk.map Prod.fst, x = .requestInfo p) :
    s.process Side.clientProcess chunk = .ok s := by
  induction chunk with
  | nil => rfl
  | cons e chunk ih =>
    obtain ⟨x, ans⟩ := e
    have hx : x = .requestInfo p := hall x List.mem_cons_self
    unfold Side.process
    rw [hs, hx]
    exact ih fun y hy => hall y (List.mem_cons_of_mem _ hy)

theorem Phase.receiveClient (h : c.Phase) (ha : c.Aligned) {a : Answer} {r : Received α}
    (hop : Usual c (.receive .client a r)) : c.Goes (step (.receive .client a r) c) := by
  refine goes_client h ha hop fun hsome => ?_
  have hnil : c.server.out ≠ [] := fun hnil => hsome (hnil ▸ nothing_nil r)
  have hall := whole_append_more r c.server.out
  cases h with
  | apart hc hs hcout hsout => exact absurd hsout hnil
  | presents hc hs hcout hsout => exact absurd hsout hnil
  | asks hc hs hcout hsout =>
    have hone := hsout.resolve_left hnil
    rcases whole_singleton r (.requestInfo c.server.program) with ⟨hwhole, hmore⟩ |
      ⟨hwhole, hchunk, hmore, hpart⟩
    · -- a part of the datagram, which is too short for a head
      rw [← hone] at hwhole hmore
      have hwaits := hs.setOut (r.more c.server.out)
      have hmore' : r.more c.server.out = [.requestInfo c.server.program] := hmore.trans hone
      unfold Side.clientReceive
      cases hclosed : c.client.isClosed with
      | true =>
        exact ⟨_, rfl, .asks hc hwaits hcout (Or.inr hmore'), rfl,
          fun hl => by rw [Side.isLinked, hc.stage] at hl; cases hl⟩
      | false =>
        have hhead := (hop hclosed).1 rfl hc.stage hwhole
        rw [if_neg Bool.false_ne_true, hc.stage]
        refine ⟨_, if_pos ⟨hwhole, hhead⟩, .asks hc.close hwaits hcout (Or.inr hmore'), rfl,
          fun hl => ?_⟩
        rw [Side.isLinked, hc.close.stage] at hl
        cases hl
    · rw [← hone] at hwhole hchunk hmore hpart
      rw [hpart, hmore]
      exact Phase.asked a hc hs hcout hwhole (hchunk.trans hone)
  | answers hc hs hcout hsout =>
    have hchunk : ∀ x ∈ (r.whole c.server.out).map Prod.fst, x = .requestInfo c.server.program :=
      fun x hx => hsout x (by rw [← hall]; exact List.mem_append_left _ hx)
    have hmore : ∀ x ∈ r.more c.server.out, x = .requestInfo c.server.program :=
      fun x hx => hsout x (by rw [← hall]; exact List.mem_append_right _ hx)
    have hlinked : c.client.isLinked = true := by
      rw [Side.isLinked, hc.stage]
    refine ⟨c.client, ?_, .answers hc (hs.setOut _) hcout hmore, rfl, fun _ hnot => ?_⟩
    · unfold Side.clientReceive
      rw [hc.stage]
      dsimp only
      rw [if_pos rfl, process_requestInfos hc.stage hchunk]
      split_ifs
      · rfl
      · exact congrArg Except.ok (Side.closeIfError_of_open hc.stage rfl)
    · rw [hlinked] at hnot
      cases hnot
  | linked l m h =>
    obtain ⟨b', m', heq, hlinked, hme⟩ := h.symm.takeIn Side.processes_client hall.symm
    refine ⟨b', ?_, .linked _ _ hlinked.symm, hme, fun _ hnot => ?_⟩
    · unfold Side.clientReceive
      rw [h.stage]
      exact heq
    · rw [Side.isLinked, h.stage] at hnot
      cases hnot

/-- The server gets to know that the other side is a kernel. -/
theorem Phase.presented (a : Answer) {chunk : List (Message α × Answer)}
    (hc : c.client.Waits .handler) (hs : c.server.Waits .new) (hsout : c.server.out = [])
    (hall : chunk.map Prod.fst = [.protocol .kernel]) :
    ∃ s, c.server.serverReceive a chunk = .ok s ∧
      c.Receives ⟨{ c.client with out := [] }, s⟩ c.server s none := by
  unfold Side.serverReceive
  rw [hs.stage, hall]
  cases c.server.isClosed with
  | true => exact ⟨_, rfl, .presents (hc.setOut []) hs (Or.inl rfl) hsout, rfl, fun _ _ => rfl⟩
  | false =>
    refine ⟨if a.isSent then { c.server with stage := .handler }.send
      (.requestInfo c.server.program) else { c.server with stage := .handler }, rfl, ?_⟩
    cases a.isSent with
    | false =>
      exact ⟨.asks (hc.setOut []) (hs.setStage .handler) rfl (Or.inl hsout), rfl, fun _ _ => rfl⟩
    | true =>
      refine ⟨.asks (hc.setOut []) ((hs.setStage .handler).setOut _) rfl (Or.inr ?_), rfl,
        fun _ _ => rfl⟩
      change c.server.out ++ _ = _
      rw [hsout]
      rfl

/-- What the link that the handler of the server makes does first. -/
theorem Phase.makesLink (hc : c.client.Waits (.linked ⟨c.server.program, .open_, false, false⟩))
    (hs : c.server.Waits .handler) (hsout : ∀ x ∈ c.server.out, x = .requestInfo c.server.program)
    {w : Work α} (closed : Bool)
    (hspoke : (⟨⟨c.client.program, .open_, false, false⟩, c.server.out⟩ : Work α).Spoke w)
    (hopen : closed = false → w.link.state = .open_) :
    ({ c.client with out := [] } : Side α).Linked
      { c.server.worked w with isClosed := closed } ⟨c.server.program, .open_, false, false⟩
      w.link := by
  obtain ⟨ms, hout, honly, hcount⟩ := hspoke.told
  have hout' : w.out = c.server.out ++ ms := hout
  have hasked : c.server.out.countP isAccept = 0 := by
    rw [List.countP_eq_zero]
    intro x hx
    rw [hsout x hx]
    exact Bool.false_ne_true
  have hnone : payloads w.out = [] := by
    apply List.filterMap_eq_nil_iff.2
    intro x hx
    rcases List.mem_append.1 (hout' ▸ hx) with hx | hx
    · rw [hsout x hx]
      rfl
    · rcases honly x hx with ⟨y, rfl⟩ | rfl
      · rfl
      · rfl
  refine ⟨hc.stage, rfl, ?_, ?_, fun _ => rfl, hopen⟩
  · exact {
      kernel := rfl
      only := fun x hx => absurd hx List.not_mem_nil
      count := by
        change 0 + c.server.opened.length ≤ 0
        rw [hs.opened]
        rfl
      opened := fun p hp => by
        change p ∈ c.server.opened at hp
        rw [hs.opened] at hp
        cases hp
      order := fun _ _ => by
        change c.server.taken ++ [] = c.client.sent
        rw [hs.taken, hc.sent]
        rfl
      front := by
        change c.server.taken <+: c.client.sent
        rw [hs.taken]
        exact List.nil_prefix
      used := fun hsent => absurd hc.sent hsent }
  · exact {
      kernel := hspoke.kernel
      only := fun x hx => by
        change x ∈ w.out at hx
        rcases List.mem_append.1 (hout' ▸ hx) with hx | hx
        · exact Or.inr (Or.inr (Or.inr ⟨_, hsout x hx⟩))
        · rcases honly x hx with hmain | hx
          · exact Or.inl hmain
          · exact Or.inr (Or.inl hx)
      count := by
        change w.out.countP isAccept + c.client.opened.length ≤ _
        rw [hc.opened, hout', List.countP_append, hasked, ← hcount]
        simp
      opened := fun p hp => by
        change p ∈ c.client.opened at hp
        rw [hc.opened] at hp
        cases hp
      order := fun _ _ => by
        change c.client.taken ++ payloads w.out = c.server.sent
        rw [hc.taken, hs.sent, hnone]
        rfl
      front := by
        change c.client.taken <+: c.server.sent
        rw [hc.taken]
        exact List.nil_prefix
      used := fun hsent => absurd hs.sent hsent }

/-- The server gets to know who the client is. -/
theorem Phase.answered (a : Answer) {chunk : List (Message α × Answer)}
    (hc : c.client.Waits (.linked ⟨c.server.program, .open_, false, false⟩))
    (hs : c.server.Waits .handler) (hsout : ∀ x ∈ c.server.out, x = .requestInfo c.server.program)
    (hall : chunk.map Prod.fst = [.dgInfo c.client.program]) :
    ∃ s, c.server.serverReceive a chunk = .ok s ∧
      c.Receives ⟨{ c.client with out := [] }, s⟩ c.server s none := by
  unfold Side.serverReceive
  rw [hs.stage, hall]
  cases hclosed : c.server.isClosed with
  | true => exact ⟨_, rfl, .answers (hc.setOut []) hs (Or.inl rfl) hsout, rfl, fun _ _ => rfl⟩
  | false =>
    let w : Work α := ⟨⟨c.client.program, .open_, false, false⟩, c.server.out⟩
    have hspoke := Work.spoke_create (w := w) a
    have hhandle : c.server.serverHandle a [.dgInfo c.client.program] =
        if (w.mCreateMainChannel a).2 then c.server.worked (w.mCreateMainChannel a).1
        else (c.server.worked ((w.mCreateMainChannel a).1.changeState .error)).close := rfl
    refine ⟨_, rfl, ?_⟩
    rw [hhandle]
    split_ifs
    · have hlinked := Phase.makesLink hc hs hsout c.server.isClosed hspoke fun _ =>
        Work.state_create _ a
      exact ⟨.linked _ _ hlinked, rfl, fun _ _ => rfl⟩
    · have hlinked := Phase.makesLink hc hs hsout true (hspoke.trans Work.spoke_changeError)
        (fun h => by cases h)
      exact ⟨.linked _ _ hlinked, rfl, fun _ _ => rfl⟩

/-- A part of what presents the client makes the server close, and at a part of its answer the
server asks once more. -/
theorem Phase.receiveServer (h : c.Phase) (ha : c.Aligned) {a : Answer} {r : Received α}
    (hop : Usual c (.receive .server a r)) : c.Goes (step (.receive .server a r) c) := by
  refine goes_server h ha hop fun hsome => ?_
  have hnil : c.client.out ≠ [] := fun hnil => hsome (hnil ▸ nothing_nil r)
  have hall := whole_append_more r c.client.out
  cases h with
  | apart hc hs hcout hsout => exact absurd hcout hnil
  | asks hc hs hcout hsout => exact absurd hcout hnil
  | presents hc hs hcout hsout =>
    have hone := hcout.resolve_left hnil
    rcases whole_singleton r (.protocol .kernel : Message α) with ⟨hwhole, hmore⟩ |
      ⟨-, hchunk, hmore, hpart⟩
    · rw [← hone] at hwhole hmore
      have hwaits := hc.setOut (r.more c.client.out)
      have hmore' : r.more c.client.out = [.protocol .kernel] := hmore.trans hone
      unfold Side.serverReceive
      rw [hwhole, hs.stage]
      cases hclosed : c.server.isClosed with
      | true =>
        exact ⟨_, rfl, .presents hwaits hs (Or.inr hmore') hsout, rfl,
          fun hl => by rw [Side.isLinked, hs.stage] at hl; cases hl⟩
      | false =>
        exact ⟨_, rfl, .presents hwaits hs.close (Or.inr hmore') hsout, rfl,
          fun hl => by rw [Side.isLinked, hs.close.stage] at hl; cases hl⟩
    · rw [← hone] at hchunk hmore hpart
      rw [hpart, hmore]
      exact Phase.presented a hc hs hsout (hchunk.trans hone)
  | answers hc hs hcout hsout =>
    have hone := hcout.resolve_left hnil
    rcases whole_singleton r (.dgInfo c.client.program) with ⟨hwhole, hmore⟩ |
      ⟨-, hchunk, hmore, hpart⟩
    · rw [← hone] at hwhole hmore
      have hwaits := hc.setOut (r.more c.client.out)
      have hmore' : r.more c.client.out = [.dgInfo c.client.program] := hmore.trans hone
      unfold Side.serverReceive
      rw [hwhole, hs.stage]
      cases hclosed : c.server.isClosed with
      | true =>
        exact ⟨_, rfl, .answers hwaits hs (Or.inr hmore') hsout, rfl,
          fun hl => by rw [Side.isLinked, hs.stage] at hl; cases hl⟩
      | false =>
        refine ⟨if a.isSent then { c.server with stage := .handler }.send
          (.requestInfo c.server.program) else { c.server with stage := .handler }, rfl, ?_⟩
        cases a.isSent with
        | false =>
          exact ⟨.answers hwaits (hs.setStage .handler) (Or.inr hmore') hsout, rfl,
            fun hl => by cases hl⟩
        | true =>
          refine ⟨.answers hwaits ((hs.setStage .handler).setOut _) (Or.inr hmore')
            (fun x hx => ?_), rfl, fun hl => by cases hl⟩
          rcases List.mem_append.1 hx with hx | hx
          · exact hsout x hx
          · exact List.mem_singleton.1 hx
    · rw [← hone] at hchunk hmore hpart
      rw [hpart, hmore]
      exact Phase.answered a hc hs hsout (hchunk.trans hone)
  | linked l m h =>
    obtain ⟨b', m', heq, hlinked, hme⟩ := h.takeIn Side.processes_server hall.symm
    refine ⟨b', ?_, .linked _ _ hlinked, hme, fun _ hnot => ?_⟩
    · unfold Side.serverReceive
      rw [h.stage']
      exact heq
    · rw [Side.isLinked, h.stage'] at hnot
      cases hnot

theorem Phase.step (h : c.Phase) (ha : c.Aligned) {op : Step α} (hop : Usual c op) :
    c.Goes (Links.step op c) := by
  cases op with
  | connect isSent => exact h.connect ha isSent
  | receive who a r =>
    cases who with
    | client => exact h.receiveClient ha hop
    | server => exact h.receiveServer ha hop
  | send who isSent p => exact h.send ha hop
  | close who => exact h.close ha who

/-- What a side may rely on: a descriptor is opened once, for the other side, which then has a link
to this one that it accepted; and what is passed on is what the other side sent, in its order. -/
structure Sound (c : Connection α) (who : Who) : Prop where
  opened : (c.side who).opened = [] ∨
    (c.side who).opened = [(c.side who.other).program] ∧
      ∃ l, (c.side who.other).stage = .linked l ∧ l.kernel = (c.side who).program ∧
        l.isAccepted = true
  front : (c.side who).taken <+: (c.side who.other).sent
  order : (c.side who).isClosed = false →
    (c.side who).taken ++ payloads (c.side who.other).out = (c.side who.other).sent

theorem sound_of_linked {who : Who} {l m : Link}
    (h : (c.side who.other).Linked (c.side who) l m) : c.Sound who := by
  have hthere := h.there
  refine ⟨?_, hthere.front, fun hopen => hthere.order hopen (h.isOpen' hopen)⟩
  cases hopened : (c.side who).opened with
  | nil => exact Or.inl rfl
  | cons p ps =>
    have hcount := hthere.count
    rw [hopened, List.length_cons] at hcount
    have hone := Bool.toNat_le l.isAccepted
    have hps : ps = [] := List.length_eq_zero_iff.1 (by omega)
    have haccepted : l.isAccepted = true := by
      rw [← Bool.toNat_eq_one]
      omega
    have hp : p = (c.side who.other).program := by
      rw [← h.back.kernel]
      exact hthere.opened p (by rw [hopened]; exact List.mem_cons_self)
    rw [hp, hps]
    exact Or.inr ⟨rfl, l, h.stage, hthere.kernel, haccepted⟩

theorem sound_of_waits {who : Who} {stage stage' : Stage} (h : (c.side who).Waits stage)
    (h' : (c.side who.other).Waits stage') (hout : payloads (c.side who.other).out = []) :
    c.Sound who := by
  refine ⟨Or.inl h.opened, ?_, fun _ => ?_⟩
  · rw [h.taken]
    exact List.nil_prefix
  · rw [h.taken, h'.sent, hout]
    rfl

theorem Phase.sound (h : c.Phase) (who : Who) : c.Sound who := by
  cases h with
  | apart hc hs hcout hsout =>
    cases who with
    | client => exact sound_of_waits hc hs (congrArg payloads hsout)
    | server => exact sound_of_waits hs hc (congrArg payloads hcout)
  | presents hc hs hcout hsout =>
    cases who with
    | client => exact sound_of_waits hc hs (congrArg payloads hsout)
    | server =>
      exact sound_of_waits hs hc
        (hcout.elim (fun h => congrArg payloads h) fun h => congrArg payloads h)
  | asks hc hs hcout hsout =>
    cases who with
    | client =>
      exact sound_of_waits hc hs
        (hsout.elim (fun h => congrArg payloads h) fun h => congrArg payloads h)
    | server => exact sound_of_waits hs hc (congrArg payloads hcout)
  | answers hc hs hcout hsout =>
    cases who with
    | client =>
      refine sound_of_waits hc hs (List.filterMap_eq_nil_iff.2 fun x hx => ?_)
      rw [hsout x hx]
      rfl
    | server =>
      exact sound_of_waits hs hc
        (hcout.elim (fun h => congrArg payloads h) fun h => congrArg payloads h)
  | linked l m h =>
    cases who with
    | client => exact sound_of_linked h.symm
    | server => exact sound_of_linked h

theorem phase_start (client server : Uuid) : (start client server : Connection α).Phase :=
  .apart ⟨rfl, rfl, rfl, rfl⟩ ⟨rfl, rfl, rfl, rfl⟩ rfl rfl

end Connection

/-- No check of the two kernels fails, whatever their main channels do, however their steps follow
each other and however the datagrams are cut, but for the parts that `Usual` leaves out; each opens
a descriptor once, for the other one that accepted it, and gets what the other one sent. -/
theorem run_connects (client server : Uuid) {ops : List (Step α)}
    (husual : EveryStep step Usual ops (.start client server)) :
    ∃ c, runAll step ops (.start client server) = .ok c ∧ c.client.me = client ∧
      c.server.me = server ∧ ∀ who, c.Sound who := by
  obtain ⟨c, hrun, hphase, -, hclient, hserver⟩ := runAll_of_step
    (I := fun c : Connection α =>
      c.Phase ∧ c.Aligned ∧ c.client.me = client ∧ c.server.me = server)
    (fun c op h hop => by
      obtain ⟨d, hstep, hphase, haligned, hclient, hserver⟩ := h.1.step h.2.1 hop
      exact ⟨d, hstep, hphase, haligned, hclient.trans h.2.2.1, hserver.trans h.2.2.2⟩)
    ⟨Connection.phase_start client server, ⟨Held.noConfusion, Held.noConfusion⟩, rfl, rfl⟩ husual
  exact ⟨c, hrun, hclient, hserver, hphase.sound⟩

/-- A main channel that opens at once, and says this. -/
def opensAt (opening : List MainMessage) : Answer :=
  ⟨true, true, opening, true, [], [], true, true, true⟩

/-- Datagrams come, with the beginning of the next one or not. -/
def comes (answers : List Answer) (part : Option Bool) : Received ℕ := ⟨answers, part, []⟩

/-- Two kernels connect, the answer of the client coming in two parts; each tells the other one
about itself, and the client goes. -/
def connectRun : List (Step ℕ) :=
  [.connect true, .receive .server (opensAt []) (comes [opensAt []] none),
    .receive .client (opensAt []) (comes [opensAt []] none),
    .receive .server (opensAt []) (comes [] (some true)),
    .receive .server (opensAt [.param []]) (comes [opensAt []] none),
    .receive .client (opensAt []) (comes [opensAt []] (some false)),
    .receive .client (opensAt []) (comes [opensAt [.request []]] none),
    .receive .server (opensAt []) (comes [opensAt [], opensAt []] none),
    .receive .client (opensAt []) (comes [opensAt []] none),
    .send .client true (.kernelInfos 7), .send .server true (.kernelInfos 8),
    .receive .server (opensAt []) (comes [opensAt []] none),
    .receive .client (opensAt []) (comes [opensAt []] none), .close .client]

theorem run_connects_connectRun :
    ∃ c, runAll step connectRun (.start 1 2) = .ok c ∧ c.client.me = 1 ∧ c.server.me = 2 ∧
      ∀ who, c.Sound who :=
  run_connects 1 2 (by decide +kernel)

example : (runAll step connectRun (.start 1 2)).toOption.map
    (fun c => (c.client.opened, c.server.opened, c.client.taken, c.server.taken)) =
      some ([⟨2, .kernel⟩], [⟨1, .kernel⟩], [.kernelInfos 8], [.kernelInfos 7]) := by
  decide +kernel

/-- The handler of the client gets a part of what the server asks. -/
example : (runAll step [.connect true, .receive .server (opensAt []) (comes [opensAt []] none),
    .receive .client (opensAt []) (comes [] (some true))] (.start 1 2)).map Connection.client =
      .error .noKernelInfo := rfl

end UdtKernel.Links
