import UdtKernel.Datagram.Resync

set_option autoImplicit false

/-! The turns of the parser scan the bytes: what is decided does not change when more bytes come. -/

namespace UdtKernel
open UdtKernel.Lib Head

namespace Receives

def behind (passed : List (List Byte)) (s : Parsed) : Parsed := (passed ++ s.1, s.2)

theorem behind_nil (s : Parsed) : behind [] s = s := rfl

theorem behind_behind (passed passed' : List (List Byte)) (s : Parsed) :
    behind passed (behind passed' s) = behind (passed ++ passed') s :=
  Prod.ext (List.append_assoc _ _ _).symm rfl

variable (P : Receives)

/-- The decision about a datagram does not wait for more bytes. -/
def IsWhole (l : List Byte) : Prop :=
  sizeKd P.endian l ≤ l.length ∨
    (2 ^ 31 ≤ sizeKd P.endian l ∧ P.version (msgType l) = none ∧ P.isBlank l = true)

instance (l : List Byte) : Decidable (P.IsWhole l) := inferInstanceAs (Decidable (_ ∨ _ ∧ _ ∧ _))

def passedOf (l : List Byte) : List (List Byte) :=
  match P.version (msgType l) with
  | some version =>
    if (version.1 == major l && decide (version.2 ≤ minor l)) && P.isDataCrcRight l then
      [l.take (sizeKd P.endian l)]
    else []
  | none => []

def stepOf (l : List Byte) : ℕ :=
  if P.version (msgType l) = none ∧ P.IsWrong l then 1 else sizeKd P.endian l

variable {P}

theorem headSize_of_isHead {l : List Byte} (h : isHead l = true) : headSize l = sizeofHead := by
  unfold isHead at h
  rw [Bool.and_eq_true, beq_iff_eq] at h
  exact h.2

theorem stepOf_pos {l : List Byte} (h : isHead l = true) : 0 < P.stepOf l := by
  unfold stepOf
  split_ifs
  · exact Nat.one_pos
  · rw [sizeKd, headSize_of_isHead h, sizeofHead]
    omega

/-- The datagrams of a stream and the bytes that are left of it. A header of just the last bytes is
    looked at where a datagram begins, but not behind other bytes. -/
def scan (P : Receives) (begins : Bool) (l : List Byte) : Parsed :=
  if l.length < sizeofHead then ([], l)
  else if _hhead : isHead l = true ∧ (begins = true ∨ sizeofHead < l.length) then
    if P.IsWhole l then behind (P.passedOf l) (scan P true (l.drop (P.stepOf l))) else ([], l)
  else if l.length = sizeofHead then ([], l)
  else scan P false (l.drop 1)
termination_by l.length
decreasing_by
  · rw [List.length_drop]
    exact Nat.sub_lt (Nat.lt_of_lt_of_le (by decide : 0 < sizeofHead) (Nat.not_lt.1 ‹_›))
      (stepOf_pos _hhead.1)
  · rw [List.length_drop]
    exact Nat.sub_lt (Nat.lt_of_lt_of_le (by decide : 0 < sizeofHead) (Nat.not_lt.1 ‹_›))
      Nat.one_pos

variable {begins : Bool} {l : List Byte}

theorem scan_short (h : l.length < sizeofHead) : P.scan begins l = ([], l) := by
  rw [scan, if_pos h]

theorem scan_nil : P.scan begins [] = ([], []) := scan_short (by decide)

theorem scan_last (h : l.length = sizeofHead) (hbegins : begins = false) :
    P.scan begins l = ([], l) := by
  subst hbegins
  rw [scan, if_neg (by omega), dif_neg, if_pos h]
  rintro ⟨-, hfalse | hlt⟩
  · cases hfalse
  · omega

theorem scan_wait (h : sizeofHead ≤ l.length) (hhead : isHead l = true)
    (hbegins : begins = true ∨ sizeofHead < l.length) (hwhole : ¬P.IsWhole l) :
    P.scan begins l = ([], l) := by
  rw [scan, if_neg (Nat.not_lt.2 h), dif_pos ⟨hhead, hbegins⟩, if_neg hwhole]

theorem scan_dg (h : sizeofHead ≤ l.length) (hhead : isHead l = true)
    (hbegins : begins = true ∨ sizeofHead < l.length) (hwhole : P.IsWhole l) :
    P.scan begins l = behind (P.passedOf l) (P.scan true (l.drop (P.stepOf l))) := by
  rw [scan, if_neg (Nat.not_lt.2 h), dif_pos ⟨hhead, hbegins⟩, if_pos hwhole]

theorem scan_noHead (h : l.length = sizeofHead) (hhead : isHead l = false) :
    P.scan begins l = ([], l) := by
  rw [scan, if_neg (by omega), dif_neg, if_pos h]
  rintro ⟨htrue, -⟩
  exact Bool.false_ne_true (hhead.symm.trans htrue)

theorem scan_garbage (h : sizeofHead < l.length) (hhead : isHead l = false) :
    P.scan begins l = P.scan false (l.drop 1) := by
  rw [scan, if_neg (by omega), dif_neg, if_neg (Nat.ne_of_gt h)]
  rintro ⟨htrue, -⟩
  exact Bool.false_ne_true (hhead.symm.trans htrue)

/-- Where it is looked for only matters for the last bytes. -/
theorem scan_mode (h : sizeofHead < l.length) : P.scan begins l = P.scan true l := by
  cases hhead : isHead l with
  | false => rw [scan_garbage h hhead, scan_garbage h hhead]
  | true =>
    by_cases hwhole : P.IsWhole l
    · rw [scan_dg (Nat.le_of_lt h) hhead (.inr h) hwhole,
        scan_dg (Nat.le_of_lt h) hhead (.inr h) hwhole]
    · rw [scan_wait (Nat.le_of_lt h) hhead (.inr h) hwhole,
        scan_wait (Nat.le_of_lt h) hhead (.inr h) hwhole]

section
variable (h : sizeofHead ≤ l.length) (hhead : isHead l = true) (hwhole : P.IsWhole l)
  (t : List Byte)
include h hhead hwhole

omit hhead in
theorem isWhole_append : P.IsWhole (l ++ t) := by
  unfold IsWhole
  rw [sizeKd_append h t, msgType_append h t, isBlank_append h t, List.length_append]
  exact hwhole.imp_left fun h => Nat.le_trans h (Nat.le_add_right _ _)

theorem stepOf_append : P.stepOf (l ++ t) = P.stepOf l := by
  unfold stepOf
  rw [msgType_append h t, sizeKd_append h t]
  have hwrong : (P.IsWrong (l ++ t) ↔ P.IsWrong l) :=
    isWrong_append h t (headSize_of_isHead hhead)
      (hwhole.symm.imp_left fun h => ⟨h.1, h.2.2⟩)
  simp only [hwrong]

theorem passedOf_append : P.passedOf (l ++ t) = P.passedOf l := by
  unfold passedOf
  rw [msgType_append h t]
  cases hversion : P.version (msgType l) with
  | none => rfl
  | some version =>
    have hlong : sizeKd P.endian l ≤ l.length :=
      hwhole.resolve_right fun h => Option.some_ne_none _ (hversion.symm.trans h.2.1)
    dsimp only
    rw [major_append h t, minor_append h t, sizeKd_append h t,
      isDataCrcRight_append h t (headSize_of_isHead hhead) hlong,
      List.take_append_of_le_length hlong]

omit hhead in
theorem stepOf_le : P.stepOf l ≤ l.length := by
  unfold stepOf
  split_ifs with hwrong
  · exact Nat.le_trans (by decide) h
  · rcases hwhole with hlong | ⟨-, hversion, hblank⟩
    · exact hlong
    · exact absurd ⟨hversion, .inl hblank⟩ hwrong

end

/-- A stream is scanned as a part of it, and then what is left and the rest. -/
theorem scan_append (hbegins : begins = true ∨ sizeofHead ≤ l.length) {t : List Byte}
    (ht : t ≠ []) :
    P.scan begins (l ++ t) =
      behind (P.scan begins l).1 (P.scan true ((P.scan begins l).2 ++ t)) := by
  induction hn : l.length using Nat.strong_induction_on generalizing begins l with
  | _ n ih =>
    have hlen : l.length < (l ++ t).length := by
      rw [List.length_append]
      exact Nat.lt_add_of_pos_right (List.length_pos_iff.2 ht)
    -- What is left whole is scanned again, where a datagram may begin.
    have hstop : P.scan begins l = ([], l) → P.scan begins (l ++ t) =
        behind (P.scan begins l).1 (P.scan true ((P.scan begins l).2 ++ t)) := by
      intro h
      rw [h, behind_nil]
      rcases hbegins with rfl | hlong
      · rfl
      · exact scan_mode (Nat.lt_of_le_of_lt hlong hlen)
    by_cases hshort : l.length < sizeofHead
    · exact hstop (scan_short hshort)
    · have hlong := Nat.not_lt.1 hshort
      have hlt := Nat.lt_of_le_of_lt hlong hlen
      cases hhead : isHead l with
      | false =>
        by_cases hlast : l.length = sizeofHead
        · exact hstop (scan_noHead hlast hhead)
        · have hmore : sizeofHead < l.length := Nat.lt_of_le_of_ne hlong (Ne.symm hlast)
          rw [scan_garbage hlt ((isHead_append hlong t).trans hhead), scan_garbage hmore hhead,
            List.drop_append_of_le_length (by omega)]
          refine ih _ ?_ (.inr ?_) rfl
          · rw [List.length_drop]
            omega
          · rw [List.length_drop]
            omega
      | true =>
        by_cases hmode : begins = true ∨ sizeofHead < l.length
        · by_cases hwhole : P.IsWhole l
          · have hle := stepOf_le hlong hwhole
            rw [scan_dg (Nat.le_of_lt hlt) ((isHead_append hlong t).trans hhead) (.inr hlt)
                (isWhole_append hlong hwhole t), stepOf_append hlong hhead hwhole,
              passedOf_append hlong hhead hwhole, List.drop_append_of_le_length hle,
              scan_dg hlong hhead hmode hwhole, ih _ ?_ (.inl rfl) rfl, behind_behind]
            · rfl
            · have hpos := stepOf_pos (P := P) hhead
              rw [List.length_drop]
              omega
          · exact hstop (scan_wait hlong hhead hmode hwhole)
        · push Not at hmode
          exact hstop (scan_last (Nat.le_antisymm hmode.2 hlong) (Bool.eq_false_iff.2 hmode.1))

/-- The last bytes are no header with another `FHeadSize`. -/
def Unmixed (l : List Byte) : Prop :=
  l.length ≤ sizeofHead + 1 → isValidProtocol l = true → headSize l = sizeofHead

instance (l : List Byte) : Decidable (Unmixed l) := inferInstanceAs (Decidable (_ → _ → _))

/-- A turn does what it would do with more bytes. -/
def ScanOk (P : Receives) (l : List Byte) : Prop := P.TurnOk l ∧ Unmixed l

instance : DecidablePred P.ScanOk := fun l => inferInstanceAs (Decidable (P.TurnOk l ∧ Unmixed l))

theorem scan_of_no_head (h : sizeofHead ≤ l.length)
    (hnone : ∀ k, k + sizeofHead < l.length → isHead (l.drop k) = false) :
    P.scan false l = ([], l.drop (l.length - sizeofHead)) := by
  induction l with
  | nil => cases h
  | cons b l ih =>
    by_cases hlast : (b :: l).length = sizeofHead
    · rw [scan_last hlast rfl, hlast, Nat.sub_self, List.drop_zero]
    · have hmore : sizeofHead < (b :: l).length := Nat.lt_of_le_of_ne h (Ne.symm hlast)
      rw [scan_garbage hmore (hnone 0 (by omega)), List.drop_one, List.tail_cons]
      rw [List.length_cons] at hmore
      rw [ih (Nat.le_of_lt_succ hmore) fun k hk => hnone (k + 1) (by rw [List.length_cons]; omega),
        List.length_cons, Nat.sub_add_comm (Nat.le_of_lt_succ hmore), List.drop_succ_cons]

theorem isHead_eq_false_of_headSize (h : headSize l ≠ sizeofHead) : isHead l = false := by
  unfold isHead
  rw [beq_eq_false_iff_ne.2 h, Bool.and_false]

theorem isHead_eq_false_of_isValidProtocol (h : isValidProtocol l = false) : isHead l = false := by
  unfold isHead
  rw [h]
  rfl

/-- A turn passes and drops what the scan does. -/
theorem TurnAt.scan_eq {turn : ParseTurn} (hat : P.TurnAt l turn) (hok : P.ScanOk l) :
    match turn with
    | .next n passed => P.scan true l = behind passed (P.scan true (l.drop n))
    | .stop n => P.scan true l = ([], l.drop n) := by
  obtain ⟨⟨-, haligned⟩, hunmixed⟩ := hok
  cases hat with
  | short h => exact scan_short h
  | noHead h hvalid hfound =>
    have hhead := isHead_eq_false_of_isValidProtocol hvalid
    rw [← scan_mode h]
    refine scan_of_no_head (Nat.le_of_lt h) fun k hk => ?_
    by_cases hzero : k = 0
    · rw [hzero]
      exact hhead
    · by_contra htrue
      exact hfound ⟨k, by omega, Nat.pos_of_ne_zero hzero, hk, Bool.not_eq_false _ ▸ htrue⟩
  | badSize h hsize hfound =>
    have hlong : sizeofHead + 1 < l.length := by
      rcases hfound with hvalid | ⟨p, -, hp, hlast, -⟩
      · by_contra hle
        exact hsize (hunmixed (Nat.not_lt.1 hle) hvalid)
      · omega
    dsimp only
    rw [behind_nil, scan_garbage (by omega) (isHead_eq_false_of_headSize hsize), scan_mode]
    rw [List.length_drop]
    omega
  | wait h hsize hfound hint hshort =>
    refine scan_wait h (haligned.isHead hfound hsize) (.inl rfl) ?_
    rintro (hlong | ⟨hlarge, -⟩) <;> omega
  | wrong h hsize hversion last hhead hwrong hlong =>
    have hhead' := haligned.isHead hhead.isFound hsize
    have hlast : last = 0 := by
      cases hhead with
      | first _ _ => rfl
      | later _ _ _ hvalid _ _ =>
        rw [isHead_eq_false_of_isValidProtocol hvalid] at hhead'
        cases hhead'
    have hwhole : P.IsWhole l := hlong.symm.imp_right fun h => ⟨h.1, hversion, h.2⟩
    have hstep : P.stepOf l = 1 := if_pos ⟨hversion, hwrong⟩
    have hpassed : P.passedOf l = [] := by
      unfold passedOf
      rw [hversion]
    dsimp only
    rw [scan_dg h hhead' (.inl rfl) hwhole, hstep, hpassed, hlast, if_neg (not_not_intro rfl)]
  | unknown h hsize hfound hversion hright hlong =>
    have hstep : P.stepOf l = sizeKd P.endian l := if_neg fun h => hright h.2
    have hpassed : P.passedOf l = [] := by
      unfold passedOf
      rw [hversion]
    dsimp only
    rw [scan_dg h (haligned.isHead hfound hsize) (.inl rfl) (.inl hlong), hstep, hpassed]
  | received h hsize hfound version hversion hlong =>
    have hstep : P.stepOf l = sizeKd P.endian l := if_neg fun h => by
      cases hversion.symm.trans h.1
    dsimp only
    rw [scan_dg h (haligned.isHead hfound hsize) (.inl rfl) (.inl hlong), hstep]
    unfold passedOf
    rw [hversion]

/-- A chunk makes the parser pass and keep what a scan of all the bytes received does. -/
theorem receivedData_scan {s : Parsed} {chunk : Chunk} {before : List Byte}
    (hlook : P.EveryLook P.ScanOk s chunk) (hs : P.scan true before = s) :
    Outcome (fun _ => False) (fun s' => P.scan true (before ++ chunk.bytes) = s')
      (P.receivedData chunk s) := by
  by_cases hchunk : chunk.bytes = []
  · unfold receivedData
    rw [if_pos hchunk, hchunk, List.append_nil]
    exact hs
  · rw [scan_append (.inl rfl) hchunk, hs]
    refine receivedData_outcome (I := fun u =>
        behind s.1 (P.scan true (s.2 ++ chunk.bytes)) = behind u.1 (P.scan true u.2))
      hlook rfl (fun u _ hu hok => ?_) (fun passed hpassed => ?_) fun hnil => absurd hnil hchunk
    · rcases turn_spec P u.2 with ⟨hbad, -⟩ | ⟨-, turn, hturn, hat⟩
      · exact absurd hok.1.1 hbad
      · refine ⟨turn, hturn, ?_⟩
        have hscan := hat.scan_eq hok
        cases turn with
        | next n passed =>
          rw [hu, hscan]
          exact behind_behind _ _ _
        | stop n =>
          rw [hu, hscan]
          exact Prod.ext (List.append_nil _) rfl
    · rw [hpassed, scan_nil]
      exact Prod.ext (List.append_nil _) rfl

theorem receiveAll_scan {chunks : List Chunk}
    (h : EveryStep P.receivedData (P.EveryLook P.ScanOk) chunks ([], [])) :
    P.receiveAll chunks = .ok (P.scan true (received chunks)) := by
  have hrun : Outcome (fun _ => False) (fun s => ∃ before,
      before ++ received [] = received chunks ∧ P.scan true before = s)
      (P.receiveAll chunks) := by
    refine runAll_outcome_rest (I := fun rest s => ∃ before,
        before ++ received rest = received chunks ∧ P.scan true before = s)
      (fun chunk rest s hs hlook => ?_) ⟨[], rfl, scan_nil⟩ h
    obtain ⟨before, hbefore, hs⟩ := hs
    refine (receivedData_scan hlook hs).mono fun s' hs' => ⟨before ++ chunk.bytes, ?_, hs'⟩
    rw [List.append_assoc]
    exact hbefore
  cases hall : P.receiveAll chunks with
  | error e =>
    rw [hall] at hrun
    exact hrun.elim
  | ok s =>
    rw [hall] at hrun
    obtain ⟨before, hbefore, hs⟩ := hrun
    have hnil : received [] = [] := rfl
    rw [hnil, List.append_nil] at hbefore
    rw [← hs, hbefore]

/-- However a stream is cut, the same datagrams are passed and the same bytes are left. -/
theorem receiveAll_chunks (P : Receives) (chunks chunks' : List Chunk)
    (hreceived : received chunks = received chunks')
    (h : EveryStep P.receivedData (P.EveryLook P.ScanOk) chunks ([], []))
    (h' : EveryStep P.receivedData (P.EveryLook P.ScanOk) chunks' ([], [])) :
    ∃ s, P.receiveAll chunks = .ok s ∧ P.receiveAll chunks' = .ok s := by
  refine ⟨_, receiveAll_scan h, ?_⟩
  rw [hreceived]
  exact receiveAll_scan h'

/-- A datagram behind garbage, whole and cut in its header. -/
theorem receiveAll_chunks_garbage :
    EveryStep receivesTwo.receivedData (receivesTwo.EveryLook receivesTwo.ScanOk)
      (chunksOf [[9] ++ twoDg]) ([], []) ∧
    EveryStep receivesTwo.receivedData (receivesTwo.EveryLook receivesTwo.ScanOk)
      (chunksOf [[9] ++ twoDg.take 10, twoDg.drop 10]) ([], []) ∧
    ∃ s, receivesTwo.receiveAll (chunksOf [[9] ++ twoDg]) = .ok s ∧
      receivesTwo.receiveAll (chunksOf [[9] ++ twoDg.take 10, twoDg.drop 10]) = .ok s := by
  have h : EveryStep receivesTwo.receivedData (receivesTwo.EveryLook receivesTwo.ScanOk)
      (chunksOf [[9] ++ twoDg]) ([], []) := by decide +kernel
  have h' : EveryStep receivesTwo.receivedData (receivesTwo.EveryLook receivesTwo.ScanOk)
      (chunksOf [[9] ++ twoDg.take 10, twoDg.drop 10]) ([], []) := by decide +kernel
  exact ⟨h, h', receiveAll_chunks receivesTwo _ _ rfl h h'⟩

/-- Bytes that are read as a datagram when the header behind them has come; and a datagram that is
    lost behind the one that its first part came with. -/
theorem chunks_false_of_misread :
    (received (chunksOf [misreadDg ++ twoDg]) = received (chunksOf [misreadDg, twoDg]) ∧
      receivesTwo.receiveAll (chunksOf [misreadDg ++ twoDg]) = .ok ([misreadDg, twoDg], []) ∧
      receivesTwo.receiveAll (chunksOf [misreadDg, twoDg]) = .ok ([twoDg], [])) ∧
    received (chunksOf [twoDg ++ twoDg]) = received cutDgs ∧
      receivesTwo.receiveAll (chunksOf [twoDg ++ twoDg]) = .ok ([twoDg, twoDg], []) ∧
      (receivesTwo.receiveAll cutDgs).map Prod.fst = .ok [twoDg] := by
  decide +kernel

end Receives

end UdtKernel
