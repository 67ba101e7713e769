import Mathlib.Data.List.Forall2
import UdtKernel.Types

set_option autoImplicit false

/-! Messages of the other byte order, and which of their receivers get a swapped copy:
`MExtractMsgThatHasToBeSwaped` and `MSwapEndianIfNeed`. -/

namespace UdtKernel.SwapEndian

abbrev Storages := List (List Byte)

/-- A `CBuffer`: copies of it share one storage, an empty one has none. -/
abbrev Buffer := Option ℕ

def read (s : Storages) : Buffer → List Byte
  | none => []
  | some r => s.getD r []

def write (s : Storages) (b : Buffer) (bytes : List Byte) : Storages :=
  match b with
  | none => s
  | some r => s.set r bytes

def createCopy (s : Storages) : Buffer → Storages × Buffer
  | none => (s, none)
  | some r => (s ++ [s.getD r []], some s.length)

/-- `user_data_t`. -/
structure Message where
  dataId : UserDataInfo
  data : Buffer
  deriving DecidableEq

def withRouting (m : Message) (us : List Uuid) : Message :=
  { m with dataId := setRouting m.dataId us }

/-- The two `MSwapEndian` of an `IExtParser`: both change what they are given in place. -/
structure ExtParser where
  swapHeader : RequiredHeader → Bool × RequiredHeader
  swapMessage : RequiredHeader → List Byte → Bool × List Byte
  swapMessage_length : ∀ t b, (swapMessage t b).2.length = b.length

abbrev ParserFactory := Text → Option ExtParser

def rawProtocolName : Text := ['r', 'a', 'w']

def isRaw (i : UserDataInfo) : Bool := i.protocol.isEmpty || i.protocol = rawProtocolName

section
variable (factory : ParserFactory) (isLocal : Uuid → Bool)

def swapHeaderEndian (aProtocol : Text) (aTo : RequiredHeader) : Bool × RequiredHeader :=
  match factory aProtocol with
  | none => (false, aTo)
  | some p => p.swapHeader aTo

def swapMessageEndian (aProtocol : Text) (aType : RequiredHeader) (s : Storages) (aTo : Buffer) :
    Bool × Storages :=
  match factory aProtocol with
  | none => (false, s)
  | some p =>
    let swapped := p.swapMessage aType (read s aTo)
    (swapped.1, write s aTo swapped.2)

def protocolOf (i : UserDataInfo) : Text := if isRaw i then rawProtocolName else i.protocol

def swapEndian (s : Storages) (m : Message) : ErrorType × Storages × Message :=
  if m.dataId.endian ≠ shareEndian then
    let header := swapHeaderEndian factory (protocolOf m.dataId) m.dataId.what
    let m := { m with dataId := { m.dataId with what := header.2 } }
    if header.1 then
      let swapped := swapMessageEndian factory (protocolOf m.dataId) header.2 s m.data
      if swapped.1 then
        (eNoError, swapped.2, { m with dataId := { m.dataId with endian := shareEndian } })
      else (eCannotSwapEndian, swapped.2, m)
    else (eCannotSwapEndian, s, m)
  else (eNoError, s, m)

/-- The list that is left and the list of what has to be swapped, to which is added. -/
def extractMsgThatHasToBeSwaped : List Message → List Message → List Message × List Message
  | [], to_ => ([], to_)
  | m :: ms, to_ =>
    -- the local receivers move out of the routing when the byte order is another one
    let (hasToSwapedFor, routingTo) :=
      if m.dataId.endian ≠ shareEndian then m.dataId.routing.uuids.partition isLocal
      else ([], m.dataId.routing.uuids)
    if hasToSwapedFor ≠ [] then
      if routingTo = [] then
        extractMsgThatHasToBeSwaped ms (to_ ++ [withRouting m hasToSwapedFor])
      else
        let (from_, to_) := extractMsgThatHasToBeSwaped ms (to_ ++ [withRouting m hasToSwapedFor])
        (withRouting m routingTo :: from_, to_)
    else
      let (from_, to_) := extractMsgThatHasToBeSwaped ms to_
      (withRouting m routingTo :: from_, to_)

/-- The storages, and the lists of `MSwapEndianIfNeed`. -/
structure Swapping where
  storages : Storages
  from_ : List Message
  to_ : List Message
  errors : List FailSend

def swapTurn (st : Swapping) (m : Message) : Swapping :=
  let copy := createCopy st.storages m.data
  let (error, storages, m) := swapEndian factory copy.1 { m with data := copy.2 }
  if error ≠ eNoError then
    { st with
      storages := storages
      from_ := st.from_ ++ [m]
      errors := st.errors ++ [(FailSend.ofInfo m.dataId).setError error] }
  else { st with storages := storages, to_ := st.to_ ++ [m] }

/-- What is left in `aFrom` could not be swapped. -/
def swapEndianIfNeed (s : Storages) (aFrom aTo : List Message) (errors : List FailSend) :
    Swapping :=
  aFrom.foldl (swapTurn factory) ⟨s, [], aTo, errors⟩

/-- A message of the other byte order with these bytes can be swapped. -/
def canSwap (i : UserDataInfo) (bytes : List Byte) : Bool :=
  match factory (protocolOf i) with
  | none => false
  | some p =>
    (p.swapHeader i.what).1 && (p.swapMessage (p.swapHeader i.what).2 bytes).1

def swappedHeader (i : UserDataInfo) : RequiredHeader :=
  (swapHeaderEndian factory (protocolOf i) i.what).2

def swappedBytes (i : UserDataInfo) (bytes : List Byte) : List Byte :=
  match factory (protocolOf i) with
  | none => bytes
  | some p => (p.swapMessage (p.swapHeader i.what).2 bytes).2

end

theorem read_append {s : Storages} {b : Buffer} (h : ∀ r ∈ b, r < s.length) (new : Storages) :
    read (s ++ new) b = read s b := by
  cases b with
  | none => rfl
  | some r => simp [read, List.getElem?_append_left (h r rfl)]

theorem read_of_extends {s t : Storages} (hst : s <+: t) {b : Buffer} (h : ∀ r ∈ b, r < s.length) :
    read t b = read s b := by
  obtain ⟨new, rfl⟩ := hst
  exact read_append h new

/-- What the copy of a buffer holds, and what is written to it: no other storage changes. -/
theorem write_createCopy (s : Storages) (b : Buffer) (f : List Byte → List Byte)
    (hf : ∀ bytes, (f bytes).length = bytes.length) :
    read (createCopy s b).1 (createCopy s b).2 = read s b ∧
    (∃ new, (createCopy s b).1 = s ++ new) ∧
    ∃ new, write (createCopy s b).1 (createCopy s b).2 (f (read s b)) = s ++ new ∧
      (∀ r ∈ (createCopy s b).2, r < (s ++ new).length) ∧
      read (s ++ new) (createCopy s b).2 = f (read s b) := by
  cases b with
  | none =>
    have hnil : f [] = [] := List.length_eq_zero_iff.1 (hf [])
    exact ⟨rfl, ⟨[], by simp [createCopy]⟩, [], by simp [createCopy, write], by simp [createCopy],
      hnil.symm⟩
  | some r =>
    refine ⟨by simp [createCopy, read], ⟨_, rfl⟩, [f (s.getD r [])], ?_, ?_, ?_⟩
    · simp [createCopy, write, read]
    · simp [createCopy]
    · simp [createCopy, read]

section
variable {factory : ParserFactory} {isLocal : Uuid → Bool}

theorem swapTurn_swapped {st : Swapping} {m : Message} (hforeign : m.dataId.endian ≠ shareEndian)
    (h : canSwap factory m.dataId (read st.storages m.data) = true) :
    ∃ new x, swapTurn factory st m = ⟨st.storages ++ new, st.from_, st.to_ ++ [x], st.errors⟩ ∧
      x.dataId = { m.dataId with
        what := swappedHeader factory m.dataId, endian := shareEndian } ∧
      (∀ r ∈ x.data, r < (st.storages ++ new).length) ∧
      read (st.storages ++ new) x.data =
        swappedBytes factory m.dataId (read st.storages m.data) := by
  unfold canSwap at h
  cases hp : factory (protocolOf m.dataId) with
  | none => simp [hp] at h
  | some p =>
    simp only [hp, Bool.and_eq_true] at h
    obtain ⟨hread, -, new, hwrite, hlt, hbytes⟩ := write_createCopy st.storages m.data
      (fun b => (p.swapMessage (p.swapHeader m.dataId.what).2 b).2)
      (p.swapMessage_length _)
    refine ⟨new, ⟨{ m.dataId with
      what := swappedHeader factory m.dataId, endian := shareEndian },
      (createCopy st.storages m.data).2⟩, ?_, rfl, hlt, ?_⟩
    · have hproto : ∀ w, protocolOf { m.dataId with what := w } = protocolOf m.dataId :=
        fun _ => rfl
      simp only [swapTurn, swapEndian, if_pos hforeign, swapHeaderEndian, swapMessageEndian, hproto,
        hp, h.1, hread, h.2, hwrite, swappedHeader, if_true, ne_eq, not_true_eq_false, if_false]
    · rw [hbytes]
      simp [swappedBytes, hp]

theorem swapTurn_failed {st : Swapping} {m : Message} (hforeign : m.dataId.endian ≠ shareEndian)
    (h : canSwap factory m.dataId (read st.storages m.data) = false) :
    ∃ new x, swapTurn factory st m = ⟨st.storages ++ new, st.from_ ++ [x], st.to_,
        st.errors ++ [⟨x.dataId, eCannotSwapEndian⟩]⟩ ∧
      x.dataId = { m.dataId with what := swappedHeader factory m.dataId } := by
  have herr : eCannotSwapEndian ≠ eNoError := by decide
  have hset : ∀ i, (FailSend.ofInfo i).setError eCannotSwapEndian = ⟨i, eCannotSwapEndian⟩ :=
    fun i => by simp [FailSend.ofInfo, FailSend.setError, eNoError]
  have hproto : ∀ w, protocolOf { m.dataId with what := w } = protocolOf m.dataId := fun _ => rfl
  let x : Message := ⟨{ m.dataId with what := swappedHeader factory m.dataId },
    (createCopy st.storages m.data).2⟩
  unfold canSwap at h
  cases hp : factory (protocolOf m.dataId) with
  | none =>
    obtain ⟨new, hnew⟩ := (write_createCopy st.storages m.data id fun _ => rfl).2.1
    refine ⟨new, x, ?_, rfl⟩
    simp only [x, swapTurn, swapEndian, if_pos hforeign, swapHeaderEndian, hp, hset, hnew,
      swappedHeader, if_false, Bool.false_eq_true, if_pos herr]
  | some p =>
    simp only [hp] at h
    obtain ⟨hread, ⟨new, hnew⟩, new', hwrite, -, -⟩ := write_createCopy st.storages m.data
      (fun b => (p.swapMessage (p.swapHeader m.dataId.what).2 b).2) (p.swapMessage_length _)
    cases hh : (p.swapHeader m.dataId.what).1 with
    | false =>
      refine ⟨new, x, ?_, rfl⟩
      simp only [x, swapTurn, swapEndian, if_pos hforeign, swapHeaderEndian, hp, hh, hset, hnew,
        swappedHeader, if_false, Bool.false_eq_true, if_pos herr]
    | true =>
      rw [hh, Bool.true_and] at h
      refine ⟨new', x, ?_, rfl⟩
      simp only [x, swapTurn, swapEndian, if_pos hforeign, swapHeaderEndian, swapMessageEndian,
        hproto, hp, hh, h, hread, hset, hwrite, swappedHeader, if_true, if_false,
        Bool.false_eq_true, if_pos herr]

/-- The receivers of a message that get a swapped copy. -/
def takenUuids (isLocal : Uuid → Bool) (m : Message) : List Uuid :=
  if m.dataId.endian ≠ shareEndian then m.dataId.routing.uuids.filter isLocal else []

def keptUuids (isLocal : Uuid → Bool) (m : Message) : List Uuid :=
  if m.dataId.endian ≠ shareEndian then m.dataId.routing.uuids.filter fun u => !isLocal u
  else m.dataId.routing.uuids

def takenOf (isLocal : Uuid → Bool) (m : Message) : Option Message :=
  if takenUuids isLocal m = [] then none else some (withRouting m (takenUuids isLocal m))

def keptOf (isLocal : Uuid → Bool) (m : Message) : Option Message :=
  if takenUuids isLocal m ≠ [] ∧ keptUuids isLocal m = [] then none
  else some (withRouting m (keptUuids isLocal m))

theorem extract_eq (ms to_ : List Message) : extractMsgThatHasToBeSwaped isLocal ms to_ =
    (ms.filterMap (keptOf isLocal), to_ ++ ms.filterMap (takenOf isLocal)) := by
  induction ms generalizing to_ with
  | nil => simp [extractMsgThatHasToBeSwaped]
  | cons m ms ih =>
    have hpair : (if m.dataId.endian ≠ shareEndian then m.dataId.routing.uuids.partition isLocal
        else ([], m.dataId.routing.uuids)) = (takenUuids isLocal m, keptUuids isLocal m) := by
      unfold takenUuids keptUuids
      split_ifs
      · rw [List.partition_eq_filter_filter]
        rfl
      · rfl
    simp only [extractMsgThatHasToBeSwaped, hpair, ih]
    by_cases ht : takenUuids isLocal m = []
    · simp [keptOf, takenOf, ht]
    · by_cases hk : keptUuids isLocal m = []
      · simp [keptOf, takenOf, ht, hk]
      · simp [keptOf, takenOf, ht, hk]

theorem taken_foreign {m : Message} (h : takenUuids isLocal m ≠ []) :
    m.dataId.endian ≠ shareEndian := fun he => h (by simp [takenUuids, he])

theorem kept_append_taken (m : Message) :
    m.dataId.routing.uuids.Perm (keptUuids isLocal m ++ takenUuids isLocal m) := by
  unfold keptUuids takenUuids
  split_ifs
  · refine (List.filter_append_perm isLocal m.dataId.routing.uuids).symm.trans ?_
    exact List.perm_append_comm
  · simp

theorem mem_takenUuids {m : Message} {u : Uuid} : u ∈ takenUuids isLocal m ↔
    u ∈ m.dataId.routing.uuids ∧ m.dataId.endian ≠ shareEndian ∧ isLocal u := by
  unfold takenUuids
  split_ifs with h <;> simp [h]

theorem mem_keptUuids {m : Message} {u : Uuid} : u ∈ keptUuids isLocal m ↔
    u ∈ m.dataId.routing.uuids ∧ ¬ (m.dataId.endian ≠ shareEndian ∧ isLocal u) := by
  unfold keptUuids
  split_ifs with h <;> simp [h]

end

structure Share where
  unswapped : Option Message
  swapped : Option Message
  failed : Option Message
  reports : List FailSend

def receivers : Option Message → List Uuid
  | none => []
  | some m => m.dataId.routing.uuids

@[simp] theorem receivers_none : receivers none = [] := rfl

@[simp] theorem receivers_some (m : Message) : receivers (some m) = m.dataId.routing.uuids := rfl

/-- `x` is the message `m` for other receivers, but for its header and byte order. -/
def IsCopy (m x : Message) : Prop :=
  ∃ h e, x.dataId = { setRouting m.dataId x.dataId.routing.uuids with what := h, endian := e }

/-- The share accounts for every receiver of the message: `before` are the storages that the
    message comes with, `after` those in the end. -/
structure Accounts (factory : ParserFactory) (isLocal : Uuid → Bool) (before after : Storages)
    (m : Message) (s : Share) : Prop where
  conserved : m.dataId.routing.uuids.Perm
    (receivers s.unswapped ++ receivers s.swapped ++ receivers s.failed)
  unswapped : ∀ u, u ∈ receivers s.unswapped ↔ u ∈ m.dataId.routing.uuids ∧
    ¬ (m.dataId.endian ≠ shareEndian ∧ isLocal u)
  swapped : ∀ u, u ∈ receivers s.swapped ↔ u ∈ m.dataId.routing.uuids ∧
    m.dataId.endian ≠ shareEndian ∧ isLocal u ∧ canSwap factory m.dataId (read before m.data)
  failed : ∀ u, u ∈ receivers s.failed ↔ u ∈ m.dataId.routing.uuids ∧
    m.dataId.endian ≠ shareEndian ∧ isLocal u ∧ ¬ canSwap factory m.dataId (read before m.data)
  routed : ∀ o ∈ [s.unswapped, s.swapped, s.failed], ∀ x ∈ o,
    IsCopy m x ∧ x.dataId.routing.uuids ≠ []
  unchanged : ∀ x ∈ s.unswapped, x = withRouting m x.dataId.routing.uuids ∧
    read after x.data = read before m.data
  bytes : ∀ x ∈ s.swapped, x.dataId.endian = shareEndian ∧
    read after x.data = swappedBytes factory m.dataId (read before m.data)
  reported : s.reports = (s.failed.map fun x => ⟨x.dataId, eCannotSwapEndian⟩).toList

section
variable {factory : ParserFactory} {isLocal : Uuid → Bool}

theorem swapTurn_extends {st : Swapping} {m : Message} (h : m.dataId.endian ≠ shareEndian) :
    st.storages <+: (swapTurn factory st m).storages := by
  cases hc : canSwap factory m.dataId (read st.storages m.data) with
  | true =>
    obtain ⟨new, x, heq, -⟩ := swapTurn_swapped h hc
    rw [heq]
    exact List.prefix_append _ _
  | false =>
    obtain ⟨new, x, heq, -⟩ := swapTurn_failed h hc
    rw [heq]
    exact List.prefix_append _ _

/-- The turn of the loop for what was taken out of a message. -/
def turnOf (factory : ParserFactory) (isLocal : Uuid → Bool) (st : Swapping) (m : Message) :
    Swapping :=
  (takenOf isLocal m).elim st (swapTurn factory st)

theorem turnOf_extends (st : Swapping) (m : Message) :
    st.storages <+: (turnOf factory isLocal st m).storages := by
  unfold turnOf takenOf
  split_ifs with h
  · exact ⟨[], List.append_nil _⟩
  · have hforeign : (withRouting m (takenUuids isLocal m)).dataId.endian ≠ shareEndian :=
      taken_foreign (m := m) h
    exact swapTurn_extends hforeign

theorem foldl_turnOf_extends (ms : List Message) (st : Swapping) :
    st.storages <+: (ms.foldl (turnOf factory isLocal) st).storages := by
  induction ms generalizing st with
  | nil => exact ⟨[], List.append_nil _⟩
  | cons m ms ih => exact (turnOf_extends st m).trans (ih _)

/-- A part of a message keeps its fields; it is there when it has receivers. -/
theorem keptOf_spec {m : Message} (hrouted : m.dataId.routing.uuids ≠ []) :
    receivers (keptOf isLocal m) = keptUuids isLocal m ∧
    ∀ x ∈ keptOf isLocal m, x = withRouting m x.dataId.routing.uuids ∧
      x.dataId.routing.uuids ≠ [] := by
  unfold keptOf
  split_ifs with h
  · exact ⟨h.2.symm, fun x hx => nomatch hx⟩
  · refine ⟨rfl, fun x hx => ?_⟩
    obtain rfl := Option.some.inj hx
    refine ⟨rfl, fun hnil => h ⟨fun ht => hrouted ?_, hnil⟩⟩
    have hperm := @kept_append_taken isLocal m
    rw [ht, List.append_nil] at hperm
    exact List.Perm.eq_nil (hperm.trans (List.Perm.of_eq hnil))

theorem isCopy_withRouting (m : Message) (us : List Uuid) : IsCopy m (withRouting m us) :=
  ⟨m.dataId.what, m.dataId.endian, rfl⟩

theorem keptOf_routed {m : Message} (hrouted : m.dataId.routing.uuids ≠ []) :
    ∀ x ∈ keptOf isLocal m, IsCopy m x ∧ x.dataId.routing.uuids ≠ [] := by
  intro x hx
  obtain ⟨heq, hne⟩ := (keptOf_spec hrouted).2 x hx
  exact ⟨heq ▸ isCopy_withRouting m _, hne⟩

theorem keptOf_unchanged {before after : Storages} {m : Message}
    (hvalid : ∀ r ∈ m.data, r < before.length) (hrouted : m.dataId.routing.uuids ≠ [])
    (hafter : before <+: after) :
    ∀ x ∈ keptOf isLocal m, x = withRouting m x.dataId.routing.uuids ∧
      read after x.data = read before m.data := by
  intro x hx
  obtain ⟨heq, -⟩ := (keptOf_spec hrouted).2 x hx
  refine ⟨heq, ?_⟩
  rw [heq]
  exact read_of_extends hafter hvalid

/-- Nothing was taken out of the message. -/
theorem accounts_untaken {before after : Storages} {m : Message}
    (hvalid : ∀ r ∈ m.data, r < before.length) (hrouted : m.dataId.routing.uuids ≠ [])
    (ht : takenUuids isLocal m = []) (hafter : before <+: after) :
    Accounts factory isLocal before after m ⟨keptOf isLocal m, none, none, []⟩ := by
  have hrec := (@keptOf_spec isLocal m hrouted).1
  have hperm := @kept_append_taken isLocal m
  have hnot : ∀ u, ¬ (u ∈ m.dataId.routing.uuids ∧ m.dataId.endian ≠ shareEndian ∧ isLocal u) :=
    fun u hu => by simpa [ht] using mem_takenUuids.2 hu
  refine ⟨?_, fun u => ?_, fun u => ?_, fun u => ?_, ?_,
    keptOf_unchanged hvalid hrouted hafter, fun x hx => (nomatch hx), rfl⟩
  · simpa [hrec, ht] using hperm
  · rw [hrec, mem_keptUuids]
  · exact ⟨fun h => (nomatch h), fun h => absurd ⟨h.1, h.2.1, h.2.2.1⟩ (hnot u)⟩
  · exact ⟨fun h => (nomatch h), fun h => absurd ⟨h.1, h.2.1, h.2.2.1⟩ (hnot u)⟩
  · rintro o ho x hx
    simp only [List.mem_cons, List.not_mem_nil, or_false] at ho
    rcases ho with rfl | rfl | rfl
    · exact keptOf_routed hrouted x hx
    · cases hx
    · cases hx

/-- What was taken out of the message was swapped, into `x`. -/
theorem accounts_swapped {before after : Storages} {m x : Message}
    (hvalid : ∀ r ∈ m.data, r < before.length) (hrouted : m.dataId.routing.uuids ≠ [])
    (ht : takenUuids isLocal m ≠ []) (hafter : before <+: after)
    (hcan : canSwap factory m.dataId (read before m.data) = true)
    (hx : x.dataId = { setRouting m.dataId (takenUuids isLocal m) with
      what := swappedHeader factory m.dataId, endian := shareEndian })
    (hbytes : read after x.data = swappedBytes factory m.dataId (read before m.data)) :
    Accounts factory isLocal before after m ⟨keptOf isLocal m, some x, none, []⟩ := by
  have hrec := (@keptOf_spec isLocal m hrouted).1
  have hrouting : x.dataId.routing.uuids = takenUuids isLocal m := by rw [hx]; rfl
  refine ⟨?_, fun u => ?_, fun u => ?_, fun u => ?_, ?_,
    keptOf_unchanged hvalid hrouted hafter, fun y hy => ?_, rfl⟩
  · simpa [hrec, hrouting] using @kept_append_taken isLocal m
  · rw [hrec, mem_keptUuids]
  · simp only [receivers, hrouting, mem_takenUuids, hcan, and_true]
  · exact ⟨fun h => (nomatch h), fun h => absurd hcan h.2.2.2⟩
  · rintro o ho y hy
    simp only [List.mem_cons, List.not_mem_nil, or_false] at ho
    rcases ho with rfl | rfl | rfl
    · exact keptOf_routed hrouted y hy
    · obtain rfl := Option.some.inj hy
      exact ⟨⟨_, _, by rw [hrouting]; exact hx⟩, hrouting ▸ ht⟩
    · cases hy
  · obtain rfl := Option.some.inj hy
    exact ⟨by rw [hx], hbytes⟩

/-- What was taken out of the message could not be swapped, and stays in `x`. -/
theorem accounts_failed {before after : Storages} {m x : Message}
    (hvalid : ∀ r ∈ m.data, r < before.length) (hrouted : m.dataId.routing.uuids ≠ [])
    (ht : takenUuids isLocal m ≠ []) (hafter : before <+: after)
    (hcan : canSwap factory m.dataId (read before m.data) = false)
    (hx : x.dataId = { setRouting m.dataId (takenUuids isLocal m) with
      what := swappedHeader factory m.dataId }) :
    Accounts factory isLocal before after m
      ⟨keptOf isLocal m, none, some x, [⟨x.dataId, eCannotSwapEndian⟩]⟩ := by
  have hrec := (@keptOf_spec isLocal m hrouted).1
  have hrouting : x.dataId.routing.uuids = takenUuids isLocal m := by rw [hx]; rfl
  refine ⟨?_, fun u => ?_, fun u => ?_, fun u => ?_, ?_,
    keptOf_unchanged hvalid hrouted hafter, fun y hy => (nomatch hy), rfl⟩
  · simpa [hrec, hrouting] using @kept_append_taken isLocal m
  · rw [hrec, mem_keptUuids]
  · exact ⟨fun h => (nomatch h), fun h => by simp [hcan] at h⟩
  · simp only [receivers, hrouting, mem_takenUuids, hcan, Bool.false_eq_true, not_false_eq_true,
      and_true]
  · rintro o ho y hy
    simp only [List.mem_cons, List.not_mem_nil, or_false] at ho
    rcases ho with rfl | rfl | rfl
    · exact keptOf_routed hrouted y hy
    · cases hy
    · obtain rfl := Option.some.inj hy
      exact ⟨⟨_, m.dataId.endian, by rw [hrouting]; exact hx⟩, hrouting ▸ ht⟩

/-- One turn: the receivers that were taken out are in a swapped copy, or in a failed one. -/
theorem turnOf_accounts {before : Storages} {st : Swapping} {m : Message}
    (hbefore : before <+: st.storages) (hvalid : ∀ r ∈ m.data, r < before.length)
    (hrouted : m.dataId.routing.uuids ≠ []) : ∃ s : Share,
      s.unswapped = keptOf isLocal m ∧
      (turnOf factory isLocal st m).to_ = st.to_ ++ s.swapped.toList ∧
      (turnOf factory isLocal st m).from_ = st.from_ ++ s.failed.toList ∧
      (turnOf factory isLocal st m).errors = st.errors ++ s.reports ∧
      ∀ after, (turnOf factory isLocal st m).storages <+: after →
        Accounts factory isLocal before after m s := by
  by_cases ht : takenUuids isLocal m = []
  · refine ⟨⟨keptOf isLocal m, none, none, []⟩, rfl, ?_⟩
    simp only [turnOf, takenOf, ht, if_true, Option.elim_none, Option.toList_none, List.append_nil,
      true_and]
    exact fun after hafter => accounts_untaken hvalid hrouted ht (hbefore.trans hafter)
  · have hforeign : (withRouting m (takenUuids isLocal m)).dataId.endian ≠ shareEndian :=
      taken_foreign (m := m) ht
    have hread : read st.storages m.data = read before m.data := read_of_extends hbefore hvalid
    have hturn : turnOf factory isLocal st m =
        swapTurn factory st (withRouting m (takenUuids isLocal m)) := by
      simp [turnOf, takenOf, ht]
    rw [hturn]
    cases hcan : canSwap factory m.dataId (read before m.data) with
    | true =>
      obtain ⟨new, x, heq, hx, hlt, hbytes⟩ := swapTurn_swapped hforeign (hread ▸ hcan)
      refine ⟨⟨keptOf isLocal m, some x, none, []⟩, rfl, ?_⟩
      simp only [heq, Option.toList_some, Option.toList_none, List.append_nil, true_and]
      intro after hafter
      have hbytes' : read after x.data = swappedBytes factory m.dataId (read before m.data) := by
        rw [read_of_extends hafter hlt, hbytes, ← hread]
        rfl
      exact accounts_swapped hvalid hrouted ht
        ((hbefore.trans (List.prefix_append _ _)).trans hafter) hcan hx hbytes'
    | false =>
      obtain ⟨new, x, heq, hx⟩ := swapTurn_failed hforeign (hread ▸ hcan)
      refine ⟨⟨keptOf isLocal m, none, some x, [⟨x.dataId, eCannotSwapEndian⟩]⟩, rfl, ?_⟩
      simp only [heq, Option.toList_some, Option.toList_none, List.append_nil, true_and]
      exact fun after hafter => accounts_failed hvalid hrouted ht
        ((hbefore.trans (List.prefix_append _ _)).trans hafter) hcan hx

/-- The whole loop. -/
theorem foldl_turnOf_accounts {before : Storages} (ms : List Message) (st : Swapping)
    (hbefore : before <+: st.storages) (hvalid : ∀ m ∈ ms, ∀ r ∈ m.data, r < before.length)
    (hrouted : ∀ m ∈ ms, m.dataId.routing.uuids ≠ []) : ∃ shares : List Share,
      List.Forall₂ (Accounts factory isLocal before
        (ms.foldl (turnOf factory isLocal) st).storages) ms shares ∧
      ms.filterMap (keptOf isLocal) = shares.filterMap Share.unswapped ∧
      (ms.foldl (turnOf factory isLocal) st).to_ = st.to_ ++ shares.filterMap Share.swapped ∧
      (ms.foldl (turnOf factory isLocal) st).from_ = st.from_ ++ shares.filterMap Share.failed ∧
      (ms.foldl (turnOf factory isLocal) st).errors =
        st.errors ++ shares.flatMap Share.reports := by
  induction ms generalizing st with
  | nil => exact ⟨[], .nil, by simp⟩
  | cons m ms ih =>
    obtain ⟨s, hun, hto, hfrom, herr, hacc⟩ := @turnOf_accounts factory
      isLocal _ _ _ hbefore (hvalid m List.mem_cons_self) (hrouted m List.mem_cons_self)
    obtain ⟨shares, hall, hun', hto', hfrom', herr'⟩ := ih (turnOf factory isLocal st m)
      (hbefore.trans (turnOf_extends st m)) (fun x hx => hvalid x (List.mem_cons_of_mem _ hx))
      (fun x hx => hrouted x (List.mem_cons_of_mem _ hx))
    refine ⟨s :: shares, .cons (hacc _ (foldl_turnOf_extends ms _)) hall, ?_, ?_, ?_, ?_⟩
    · rw [List.filterMap_cons, List.filterMap_cons, hun, hun']
    · rw [List.foldl_cons, hto', hto, List.filterMap_cons]
      cases s.swapped <;> simp
    · rw [List.foldl_cons, hfrom', hfrom, List.filterMap_cons]
      cases s.failed <;> simp
    · rw [List.foldl_cons, herr', herr]
      simp

end

/-- Each message of the list falls into a share that accounts for its receivers, and the three
    lists and the reports are put together from the shares. -/
def Partitioned (factory : ParserFactory) (isLocal : Uuid → Bool) (s : Storages)
    (ms unswapped : List Message) (aTo : List Message) (errors : List FailSend) (st : Swapping) :
    Prop :=
  ∃ shares : List Share, List.Forall₂ (Accounts factory isLocal s st.storages) ms shares ∧
    unswapped = shares.filterMap Share.unswapped ∧
    st.to_ = aTo ++ shares.filterMap Share.swapped ∧
    st.from_ = shares.filterMap Share.failed ∧
    st.errors = errors ++ shares.flatMap Share.reports

/-- Every message with one of its receivers is afterwards in one of the three lists. -/
theorem swapEndianIfNeed_partitioned (factory : ParserFactory) (isLocal : Uuid → Bool)
    (s : Storages) (ms aTo : List Message) (errors : List FailSend)
    (hvalid : ∀ m ∈ ms, ∀ r ∈ m.data, r < s.length)
    (hrouted : ∀ m ∈ ms, m.dataId.routing.uuids ≠ []) :
    Partitioned factory isLocal s ms (extractMsgThatHasToBeSwaped isLocal ms []).1 aTo errors
      (swapEndianIfNeed factory s (extractMsgThatHasToBeSwaped isLocal ms []).2 aTo errors) := by
  have hfold : swapEndianIfNeed factory s (extractMsgThatHasToBeSwaped isLocal ms []).2 aTo
      errors = ms.foldl (turnOf factory isLocal) ⟨s, [], aTo, errors⟩ := by
    rw [extract_eq, List.nil_append, swapEndianIfNeed, List.foldl_filterMap]
    refine List.foldl_ext _ _ _ fun st m _ => ?_
    unfold turnOf
    cases takenOf isLocal m <;> rfl
  obtain ⟨shares, hall, hun, hto, hfrom, herr⟩ := @foldl_turnOf_accounts factory isLocal _
    ms ⟨s, [], aTo, errors⟩ (List.prefix_refl s) hvalid hrouted
  rw [hfold, extract_eq]
  exact ⟨shares, hall, hun, hto, hfrom, herr⟩

/-- A protocol whose messages are one number. -/
def numberParser : ExtParser := ⟨fun h => (true, h), fun _ b => (true, b.reverse), by simp⟩

def numberTo (e : Endian) (us : List Uuid) : Message :=
  ⟨⟨1, ['n'], 0, [], [], [], ⟨⟨3, []⟩, us⟩, .default, e, ⟨⟨0, 0, 0⟩, []⟩⟩, some 0⟩

/-- Two messages in one storage: the first one, to the local 5 and the remote 6, is cut in two. -/
theorem swapEndianIfNeed_partitioned_numbers :
    Partitioned (fun _ => some numberParser) (· = 5) [[1, 2]]
      [numberTo .big [6, 5], numberTo .little [5]]
      (extractMsgThatHasToBeSwaped (· = 5) [numberTo .big [6, 5], numberTo .little [5]] []).1 [] []
      (swapEndianIfNeed (fun _ => some numberParser) [[1, 2]]
        (extractMsgThatHasToBeSwaped (· = 5) [numberTo .big [6, 5], numberTo .little [5]] []).2
        [] []) :=
  swapEndianIfNeed_partitioned _ _ _ _ _ _ (by simp [numberTo]) (by simp [numberTo])

example : (swapEndianIfNeed (fun _ => some numberParser) [[1, 2]]
    (extractMsgThatHasToBeSwaped (· = 5) [numberTo .big [6, 5], numberTo .little [5]] []).2
    [] []).storages = [[1, 2], [2, 1]] := by decide

end UdtKernel.SwapEndian
