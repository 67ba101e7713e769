import UdtKernel.Datagram.Prefix

set_option autoImplicit false

/-! The parser finds the valid datagrams of a stream that has other bytes between them. -/

namespace UdtKernel
open UdtKernel.Lib Head

namespace Receives

/-- When a header is found behind the beginning, no header is read at the beginning. -/
def Aligned (l : List Byte) : Prop :=
  Found l → isValidProtocol l = true ∨ headSize l ≠ sizeofHead

instance (l : List Byte) : Decidable (Aligned l) := inferInstanceAs (Decidable (_ → _ ∨ _))

variable (P : Receives)

/-- A turn begins with bytes that can be looked at, and looks where the header was found. -/
def TurnOk (l : List Byte) : Prop := P.Safe l ∧ Aligned l

instance : DecidablePred P.TurnOk := fun l => inferInstanceAs (Decidable (P.Safe l ∧ Aligned l))

/-- A complete valid datagram of a type that is handled. -/
def IsDg (d : List Byte) : Prop :=
  isHead d = true ∧ d.length = sizeKd P.endian d ∧ P.isDataCrcRight d = true ∧
    ∃ version, P.version (msgType d) = some version ∧ version.1 = major d ∧ version.2 ≤ minor d

/-- Bytes that begin with some valid datagrams, each of them behind bytes where no header
    begins. -/
inductive Framed : List Byte → List (List Byte) → Prop
  | rest (s : List Byte) : Framed s []
  | dg (g d s : List Byte) (ds : List (List Byte)) (hd : P.IsDg d)
      (hg : ∀ k < g.length, isHead ((g ++ d).drop k) = false)
      (hdata : g = [] ∨ sizeofHead < d.length) (h : Framed s ds) : Framed (g ++ d ++ s) (d :: ds)

variable {P}

theorem IsDg.headSize_eq {d : List Byte} (hd : P.IsDg d) : headSize d = sizeofHead := by
  have hhead := hd.1
  unfold isHead at hhead
  rw [Bool.and_eq_true, beq_iff_eq] at hhead
  exact hhead.2

theorem IsDg.length_le {d : List Byte} (hd : P.IsDg d) : sizeofHead ≤ d.length := by
  rw [hd.2.1, sizeKd, hd.headSize_eq]
  exact Nat.le_add_right _ _

section
variable {r t g d s : List Byte} (hframe : r ++ t = g ++ d ++ s) (hd : P.IsDg d)
include hframe hd

theorem isHead_drop_garbage (hg : ∀ k < g.length, isHead ((g ++ d).drop k) = false) {k : ℕ}
    (hk : k < g.length) (hr : k + sizeofHead ≤ r.length) : isHead (r.drop k) = false := by
  have hlong := hd.length_le
  rw [← isHead_drop_append t hr, hframe, isHead_drop_append s]
  · exact hg k hk
  · rw [List.length_append]
    omega

theorem isHead_drop_dg (hr : g.length + sizeofHead ≤ r.length) :
    isHead (r.drop g.length) = true := by
  rw [← isHead_drop_append t hr, hframe, List.append_assoc, List.drop_left,
    isHead_append hd.length_le]
  exact hd.1

omit hd in
theorem length_le_of_frame : g.length + d.length ≤ r.length + t.length := by
  have hlen := congrArg List.length hframe
  rw [List.length_append, List.length_append, List.length_append] at hlen
  omega

end

section
variable {r t d s : List Byte} (hframe : r ++ t = d ++ s) (hd : P.IsDg d)
include hframe hd

theorem sizeKd_of_frame (hr : sizeofHead ≤ r.length) : sizeKd P.endian r = d.length := by
  rw [← sizeKd_append hr t, hframe, sizeKd_append hd.length_le]
  exact hd.2.1.symm

theorem headSize_of_frame (hr : sizeofHead ≤ r.length) : headSize r = sizeofHead := by
  rw [← headSize_append hr t, hframe, headSize_append hd.length_le]
  exact hd.headSize_eq

theorem msgType_of_frame (hr : sizeofHead ≤ r.length) : msgType r = msgType d := by
  rw [← msgType_append hr t, hframe, msgType_append hd.length_le]

theorem isHandled_of_frame (hr : sizeofHead ≤ r.length) (hlong : d.length ≤ r.length)
    {version : ℕ × ℕ} (hversion : P.version (msgType r) = some version) :
    ((version.1 == major r && decide (version.2 ≤ minor r)) && P.isDataCrcRight r) = true := by
  have hdg := hd
  obtain ⟨-, hsize, hcrc, version', hversion', hmajor, hminor⟩ := hd
  rw [msgType_of_frame hframe hdg hr] at hversion
  cases hversion.symm.trans hversion'
  rw [← major_append hr t, ← minor_append hr t,
    ← isDataCrcRight_append hr t (headSize_of_frame hframe hdg hr)
      (by rw [sizeKd_of_frame hframe hdg hr]; exact hlong),
    hframe, major_append hdg.length_le, minor_append hdg.length_le,
    isDataCrcRight_append hdg.length_le s hdg.headSize_eq (Nat.le_of_eq hsize.symm), hcrc,
    decide_eq_true hminor, beq_iff_eq.2 hmajor]
  rfl

theorem version_of_frame (hr : sizeofHead ≤ r.length) : P.version (msgType r) ≠ none := by
  obtain ⟨-, -, -, version, hversion, -⟩ := id hd
  rw [msgType_of_frame hframe hd hr, hversion]
  exact Option.some_ne_none version

omit hd in
theorem take_of_frame (hlong : d.length ≤ r.length) : r.take d.length = d := by
  have htake : (r ++ t).take d.length = r.take d.length := List.take_append_of_le_length hlong
  rw [← htake, hframe, List.take_left]

end

/-- What a turn does that begins with some bytes before a valid datagram. -/
def FrameTurn (g d t : List Byte) : ParseTurn → Prop
  | .next n passed => (passed = [] ∧ n ≤ g.length) ∨ (g = [] ∧ n = d.length ∧ passed = [d])
  | .stop n => n ≤ g.length ∧ t ≠ []

theorem Aligned.isHead {l : List Byte} (h : Aligned l) (hfound : IsFound l)
    (hsize : headSize l = sizeofHead) : isHead l = true := by
  have hvalid : isValidProtocol l = true := by
    rcases hfound with h' | h'
    · exact h'
    · exact (h h').resolve_right (not_not_intro hsize)
  unfold Receives.isHead
  rw [hvalid, hsize]
  rfl

theorem TurnAt.frameTurn {r t g d s : List Byte} {turn : ParseTurn} (hat : P.TurnAt r turn)
    (haligned : Aligned r) (hframe : r ++ t = g ++ d ++ s) (hd : P.IsDg d)
    (hg : ∀ k < g.length, isHead ((g ++ d).drop k) = false)
    (hdata : g = [] ∨ sizeofHead < d.length) : FrameTurn g d t turn := by
  have hdlong := hd.length_le
  have hlen := length_le_of_frame hframe
  have hnil : sizeofHead ≤ r.length → headSize r = sizeofHead → IsFound r → g = [] := by
    intro h hsize hfound
    by_contra hne
    have hfalse := isHead_drop_garbage hframe hd hg (List.length_pos_iff.2 hne)
      (by rw [Nat.zero_add]; exact h)
    rw [List.drop_zero, haligned.isHead hfound hsize] at hfalse
    cases hfalse
  cases hat with
  | short h =>
    refine ⟨Nat.zero_le _, fun ht => ?_⟩
    rw [ht, List.length_nil] at hlen
    omega
  | noHead h hvalid hfound =>
    -- A window of the datagram that is there would have been found.
    have hlast : r.length - sizeofHead ≤ g.length := by
      by_contra hlt
      have hhead := isHead_drop_dg hframe hd (by omega)
      by_cases hzero : g.length = 0
      · rw [hzero, List.drop_zero] at hhead
        unfold Receives.isHead at hhead
        rw [hvalid] at hhead
        cases hhead
      · exact hfound ⟨g.length, by omega, Nat.pos_of_ne_zero hzero, by omega, hhead⟩
    refine ⟨hlast, fun ht => ?_⟩
    rw [ht, List.length_nil] at hlen
    rcases hdata with rfl | hdata
    · rw [List.length_nil] at hlast
      omega
    · omega
  | badSize h hsize _ =>
    left
    refine ⟨rfl, Nat.one_le_iff_ne_zero.2 fun hzero => hsize ?_⟩
    rw [List.eq_nil_of_length_eq_zero hzero] at hframe
    exact headSize_of_frame hframe hd h
  | wait h hsize hfound _ hshort =>
    obtain rfl := hnil h hsize hfound
    rw [List.nil_append] at hframe
    refine ⟨Nat.le_refl _, fun ht => ?_⟩
    rw [sizeKd_of_frame hframe hd h] at hshort
    rw [ht, List.length_nil] at hlen
    omega
  | wrong h hsize hversion last hhead _ _ =>
    obtain rfl := hnil h hsize hhead.isFound
    exact absurd hversion (version_of_frame hframe hd h)
  | unknown h hsize hfound hversion _ _ =>
    obtain rfl := hnil h hsize hfound
    exact absurd hversion (version_of_frame hframe hd h)
  | received h hsize hfound version hversion hlong =>
    obtain rfl := hnil h hsize hfound
    rw [List.nil_append] at hframe
    have hsizeKd := sizeKd_of_frame hframe hd h
    rw [hsizeKd] at hlong
    right
    refine ⟨rfl, hsizeKd, ?_⟩
    rw [if_pos (isHandled_of_frame hframe hd h hlong hversion), hsizeKd,
      take_of_frame hframe hlong]

def IsChecked (P : Receives) (d : List Byte) : Prop :=
  isHead d = true ∧ d.length = sizeKd P.endian d

/-- The datagrams that are passed are checked and lie in the bytes of a stream, of which a part
    is left and a part is to come. -/
structure Inner (P : Receives) (stream t : List Byte) (s : Parsed) : Prop where
  left : s.2 ++ t <:+ stream
  passed : ∀ d ∈ s.1, P.IsChecked d ∧ d <:+: stream

/-- The datagrams of a stream are passed, or some of them are still to come. -/
def Pending (P : Receives) (ds : List (List Byte)) (t : List Byte) (s : Parsed) : Prop :=
  ds <+: s.1 ∨ ∃ ds', ds = s.1 ++ ds' ∧ P.Framed (s.2 ++ t) ds'

theorem Inner.drop {stream t : List Byte} {s : Parsed} (h : P.Inner stream t s) {n : ℕ}
    (hn : n ≤ s.2.length) : P.Inner stream t (s.1, s.2.drop n) := by
  refine ⟨List.IsSuffix.trans ?_ h.left, h.passed⟩
  rw [← List.drop_append_of_le_length hn]
  exact List.drop_suffix _ _

theorem isChecked_of_received {r : List Byte} (hhead : isHead r = true)
    (hsize : headSize r = sizeofHead) (hlong : sizeKd P.endian r ≤ r.length) :
    P.IsChecked (r.take (sizeKd P.endian r)) := by
  have hlen : (r.take (sizeKd P.endian r)).length = sizeKd P.endian r := by
    rw [List.length_take, Nat.min_eq_left hlong]
  have hle : sizeofHead ≤ (r.take (sizeKd P.endian r)).length := by
    rw [hlen, sizeKd, hsize]
    exact Nat.le_add_right _ _
  unfold IsChecked
  rw [← isHead_append hle (r.drop (sizeKd P.endian r)),
    ← sizeKd_append hle (r.drop (sizeKd P.endian r)), List.take_append_drop]
  exact ⟨hhead, hlen⟩

theorem Inner.turn {stream t : List Byte} {s : Parsed} (h : P.Inner stream t s) {turn : ParseTurn}
    (hat : P.TurnAt s.2 turn) (haligned : Aligned s.2) :
    Follows (P.Inner stream t) (P.Inner stream t) s turn := by
  have hinside := hat.inside
  have hdrop : ∀ n ≤ s.2.length, P.Inner stream t (s.1 ++ [], s.2.drop n) := by
    intro n hn
    rw [List.append_nil]
    exact h.drop hn
  cases hat with
  | short _ => exact h.drop hinside
  | noHead _ _ _ => exact h.drop hinside
  | badSize _ _ _ => exact hdrop _ hinside.2
  | wait _ _ _ _ _ => exact h.drop hinside
  | wrong _ _ _ _ _ _ _ => exact hdrop _ hinside.2
  | unknown _ _ _ _ _ _ => exact hdrop _ hinside.2
  | received _ hsize hfound version _ hlong =>
    refine ⟨(h.drop hlong).left, fun d hd => ?_⟩
    rcases List.mem_append.1 hd with hd | hd
    · exact h.passed d hd
    · split_ifs at hd
      · rw [List.mem_singleton.1 hd]
        refine ⟨isChecked_of_received (haligned.isHead hfound hsize) hsize hlong, ?_⟩
        have htake : s.2.take (sizeKd P.endian s.2) <+: s.2 ++ t :=
          (List.take_prefix _ _).trans (List.prefix_append _ _)
        exact htake.isInfix.trans h.left.isInfix
      · cases hd

theorem Framed.cases_cons {l d : List Byte} {ds : List (List Byte)} (h : P.Framed l (d :: ds)) :
    ∃ g s, l = g ++ d ++ s ∧ P.IsDg d ∧ (∀ k < g.length, isHead ((g ++ d).drop k) = false) ∧
      (g = [] ∨ sizeofHead < d.length) ∧ P.Framed s ds := by
  cases h with
  | dg g d s ds hd hg hdata h => exact ⟨g, s, rfl, hd, hg, hdata, h⟩

/-- Garbage of which a part is dropped. -/
theorem Framed.drop {g d s : List Byte} {ds : List (List Byte)} (hd : P.IsDg d)
    (hg : ∀ k < g.length, isHead ((g ++ d).drop k) = false)
    (hdata : g = [] ∨ sizeofHead < d.length) (h : P.Framed s ds) {n : ℕ} (hn : n ≤ g.length) :
    P.Framed ((g ++ d ++ s).drop n) (d :: ds) := by
  have hlong : n ≤ (g ++ d).length := by
    rw [List.length_append]
    omega
  rw [List.drop_append_of_le_length hlong, List.drop_append_of_le_length hn]
  refine .dg (g.drop n) d s ds hd (fun k hk => ?_) (hdata.imp_left fun h => ?_) h
  · rw [List.length_drop] at hk
    rw [← List.drop_append_of_le_length hn, List.drop_drop]
    exact hg _ (by omega)
  · rw [h, List.drop_nil]

theorem Pending.turn {ds : List (List Byte)} {t : List Byte} {s : Parsed}
    (h : P.Pending ds t s) {turn : ParseTurn} (hat : P.TurnAt s.2 turn) (haligned : Aligned s.2) :
    Follows (P.Pending ds t) (fun s => P.Pending ds t s ∧ (t = [] → ds <+: s.1)) s turn := by
  have hinside := hat.inside
  rcases h with h | ⟨ds', rfl, hframed⟩
  · cases turn with
    | next n passed => exact .inl (h.trans (List.prefix_append _ _))
    | stop n => exact ⟨.inl h, fun _ => h⟩
  · cases ds' with
    | nil =>
      have hdone : s.1 ++ [] <+: s.1 := ⟨[], by rw [List.append_nil, List.append_nil]⟩
      cases turn with
      | next n passed => exact .inl (hdone.trans (List.prefix_append _ _))
      | stop n => exact ⟨.inl hdone, fun _ => hdone⟩
    | cons d ds =>
      obtain ⟨g, rest, hframe, hd, hg, hdata, hrest⟩ := hframed.cases_cons
      have hframeTurn := hat.frameTurn haligned hframe hd hg hdata
      cases turn with
      | next n passed =>
        right
        rcases hframeTurn with ⟨rfl, hn⟩ | ⟨rfl, rfl, rfl⟩
        · refine ⟨d :: ds, by rw [List.append_nil], ?_⟩
          rw [← List.drop_append_of_le_length hinside.2, hframe]
          exact Framed.drop hd hg hdata hrest hn
        · refine ⟨ds, by rw [List.append_assoc]; rfl, ?_⟩
          rw [← List.drop_append_of_le_length hinside.2, hframe, List.nil_append, List.drop_left]
          exact hrest
      | stop n =>
        refine ⟨.inr ⟨d :: ds, rfl, ?_⟩, fun ht => absurd ht hframeTurn.2⟩
        rw [← List.drop_append_of_le_length hinside, hframe]
        exact Framed.drop hd hg hdata hrest hframeTurn.1

theorem Framed.eq_nil {ds : List (List Byte)} (h : P.Framed [] ds) : ds = [] := by
  cases ds with
  | nil => rfl
  | cons d ds =>
    obtain ⟨g, s, hl, hd, -⟩ := h.cases_cons
    have hnil : d = [] := by
      have hpart := List.append_eq_nil_iff.1 hl.symm
      exact (List.append_eq_nil_iff.1 hpart.1).2
    have hlong := hd.length_le
    rw [hnil] at hlong
    exact absurd hlong (by decide)

theorem Pending.done {ds : List (List Byte)} {t : List Byte} {s : Parsed} (h : P.Pending ds t s)
    (hs : s.2 = []) (ht : t = []) : ds <+: s.1 := by
  rcases h with h | ⟨ds', rfl, hframed⟩
  · exact h
  · rw [hs, ht] at hframed
    rw [hframed.eq_nil]
    exact ⟨[], by rw [List.append_nil, List.append_nil]⟩

/-- What holds of the parser when a part of a stream is to come. -/
structure Received (P : Receives) (stream : List Byte) (ds : List (List Byte)) (t : List Byte)
    (s : Parsed) : Prop where
  inner : P.Inner stream t s
  pending : P.Pending ds t s
  done : t = [] → ds <+: s.1

theorem Received.receivedData {stream t : List Byte} {chunk : Chunk} {ds : List (List Byte)}
    {s : Parsed} (h : P.Received stream ds (chunk.bytes ++ t) s)
    (hlook : P.EveryLook P.TurnOk s chunk) :
    Outcome (fun _ => False) (P.Received stream ds t) (P.receivedData chunk s) := by
  refine receivedData_outcome (I := fun u => P.Inner stream t u ∧ P.Pending ds t u) hlook
    ?_ ?_ ?_ ?_
  · refine ⟨⟨?_, h.inner.passed⟩, ?_⟩
    · rw [List.append_assoc]
      exact h.inner.left
    · unfold Pending
      rw [List.append_assoc]
      exact h.pending
  · rintro u - ⟨hinner, hpending⟩ ⟨hsafe, haligned⟩
    rcases turn_spec P u.2 with ⟨hbad, -⟩ | ⟨-, turn, hturn, hat⟩
    · exact absurd hsafe hbad
    · refine ⟨turn, hturn, ?_⟩
      have hinner' := hinner.turn hat haligned
      have hpending' := hpending.turn hat haligned
      cases turn with
      | next n passed => exact ⟨hinner', hpending'⟩
      | stop n => exact ⟨hinner', hpending'.1, hpending'.2⟩
  · exact fun passed hpassed => ⟨hpassed.1, hpassed.2, fun ht => hpassed.2.done rfl ht⟩
  · intro hnil
    rw [hnil] at h
    exact h

/-- The parser passes checked datagrams that lie in the bytes received, and it has passed the valid
    ones that have come behind bytes where no header begins. -/
theorem receiveAll_resync (P : Receives) (chunks : List Chunk)
    (h : EveryStep P.receivedData (P.EveryLook P.TurnOk) chunks ([], [])) :
    ∃ passed rest, P.receiveAll chunks = .ok (passed, rest) ∧
      (∀ d ∈ passed, P.IsChecked d ∧ d <:+: received chunks) ∧
      ∀ ds, P.Framed (received chunks) ds → ds <+: passed := by
  have hrun : ∀ ds, P.Framed (received chunks) ds →
      Outcome (fun _ => False) (P.Received (received chunks) ds []) (P.receiveAll chunks) := by
    intro ds hds
    refine runAll_outcome_rest (I := fun rest => P.Received (received chunks) ds (received rest))
      (fun chunk rest s hs hlook => ?_) ⟨⟨List.suffix_refl _, fun d hd => ?_⟩, ?_, fun hnil => ?_⟩ h
    · exact Received.receivedData hs hlook
    · cases hd
    · exact .inr ⟨ds, rfl, hds⟩
    · rw [hnil] at hds
      exact hds.eq_nil ▸ List.prefix_refl _
  cases hall : P.receiveAll chunks with
  | error e =>
    have hfalse := hrun [] (.rest _)
    rw [hall] at hfalse
    exact hfalse.elim
  | ok s =>
    refine ⟨s.1, s.2, rfl, ?_, fun ds hds => ?_⟩
    · have hreceived := hrun [] (.rest _)
      rw [hall] at hreceived
      exact hreceived.inner.passed
    · have hreceived := hrun ds hds
      rw [hall] at hreceived
      exact hreceived.done rfl

def receivesTwo : Receives := ⟨.little, fun msgType => if msgType = 2 then some (0, 1) else none⟩

/-- A header of a datagram of type 2 with a byte of data, and that byte. -/
def twoDg : List Byte :=
  [32, 0, 0, 0, 0, 1, 0, 0, 1, 0, 0, 0, 1, 0, 0, 0, 5, 0, 0, 0, 0, 0, 0, 0, 0, 0, 2, 0, 0, 0, 0,
    130, 7]

/-- The same with a sum that is wrong. -/
def misreadDg : List Byte := twoDg.set 31 0

/-- The same with more data than there is. -/
def swallowHead : List Byte := (misreadDg.take 32).set 8 200

theorem isDg_twoDg : receivesTwo.IsDg twoDg := by
  refine ⟨by decide +kernel, by decide +kernel, by decide +kernel, (0, 1), ?_⟩
  decide +kernel

theorem framed_of_garbage {g : List Byte}
    (hg : ∀ k < g.length, isHead ((g ++ twoDg).drop k) = false) :
    receivesTwo.Framed (g ++ twoDg) [twoDg] := by
  have h := Framed.dg g twoDg [] [] isDg_twoDg hg (.inr (by decide)) (.rest [])
  rw [List.append_nil] at h
  exact h

/-- Some bytes as chunks, with zeros behind the bytes of `FBuf`. -/
def chunksOf (chunks : List (List Byte)) : List Chunk := chunks.map fun bytes => ⟨bytes, fun _ => 0⟩

theorem receiveAll_resync_garbage :
    EveryStep receivesTwo.receivedData (receivesTwo.EveryLook receivesTwo.TurnOk)
      (chunksOf [[9] ++ twoDg.take 10, twoDg.drop 10]) ([], []) ∧
    ∃ passed rest, receivesTwo.receiveAll (chunksOf [[9] ++ twoDg.take 10, twoDg.drop 10]) =
        .ok (passed, rest) ∧ [twoDg] <+: passed := by
  have h : EveryStep receivesTwo.receivedData (receivesTwo.EveryLook receivesTwo.TurnOk)
      (chunksOf [[9] ++ twoDg.take 10, twoDg.drop 10]) ([], []) := by decide +kernel
  obtain ⟨passed, rest, hall, -, hds⟩ := receiveAll_resync receivesTwo _ h
  exact ⟨h, passed, rest, hall, hds _ (framed_of_garbage (g := [9]) (by decide +kernel))⟩

/-- A datagram in two chunks, the second of which begins another datagram. -/
def cutDgs : List Chunk := chunksOf [twoDg.take 20, twoDg.drop 20 ++ twoDg.take 20, twoDg.drop 20]

theorem framed_cutDgs : receivesTwo.Framed (received cutDgs) [twoDg, twoDg] :=
  .dg [] twoDg twoDg [twoDg] isDg_twoDg (fun k hk => absurd hk (Nat.not_lt_zero k)) (.inl rfl)
    (framed_of_garbage (g := []) fun k hk => absurd hk (Nat.not_lt_zero k))

/-- Bytes before a header are passed as a datagram, and make the parser wait for more; and the
    memory behind the buffer gets between the parts of a datagram. -/
theorem resync_false_of_misread :
    (isHead misreadDg = false ∧ receivesTwo.receiveAll (chunksOf [misreadDg ++ twoDg]) =
      .ok ([misreadDg, twoDg], [])) ∧
    (receivesTwo.Framed (swallowHead ++ twoDg) [twoDg] ∧
      receivesTwo.receiveAll (chunksOf [swallowHead ++ twoDg]) =
        .ok ([], swallowHead ++ twoDg)) ∧
    receivesTwo.Framed (received cutDgs) [twoDg, twoDg] ∧
      (receivesTwo.receiveAll cutDgs).map Prod.fst = .ok [twoDg] := by
  refine ⟨⟨by decide +kernel, by decide +kernel⟩, ⟨framed_of_garbage ?_, by decide +kernel⟩,
    framed_cutDgs, by decide +kernel⟩
  decide +kernel

end Receives

end UdtKernel
