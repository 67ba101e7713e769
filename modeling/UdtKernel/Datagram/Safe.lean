import UdtKernel.Datagram.Parser

set_option autoImplicit false

/-! What a turn of the parser decides, and that it reads inside of the bytes it was given. -/

namespace UdtKernel
open UdtKernel.Lib Head

theorem length_field_le (l : List Byte) (offset n : ℕ) : (field l offset n).length ≤ n := by
  unfold field
  rw [List.length_take]
  exact Nat.min_le_left _ _

theorem Endian.value_lt (me : Endian) (l : List Byte) : me.value l < 256 ^ l.length := by
  cases me with
  | little => exact ofDigits_lt l
  | big =>
    rw [← List.length_reverse]
    exact ofDigits_lt l.reverse

theorem Head.dataSize_lt (me : Endian) (l : List Byte) : dataSize me l < 2 ^ 32 := by
  unfold dataSize endianCorrectValue
  have hlen :
      (if isValidEndian me l = true then field l 8 4 else (field l 8 4).reverse).length ≤ 4 := by
    split_ifs
    · exact length_field_le l 8 4
    · rw [List.length_reverse]
      exact length_field_le l 8 4
  exact Nat.lt_of_lt_of_le (me.value_lt _) (Nat.pow_le_pow_right (by decide) hlen)

namespace Receives
variable (P : Receives)

def isHead (l : List Byte) : Bool := isValidProtocol l && headSize l == sizeofHead

def Found (l : List Byte) : Prop :=
  ∃ p < l.length, 0 < p ∧ p + sizeofHead < l.length ∧ isHead (l.drop p) = true

instance (l : List Byte) : Decidable (Found l) :=
  inferInstanceAs (Decidable (∃ p < l.length, _))

/-- The declared size is an `int`, or all the data is there, or it is not looked at. -/
def SizeOk (l : List Byte) : Prop :=
  sizeKd P.endian l < 2 ^ 31 ∨ sizeKd P.endian l ≤ l.length ∨
    (P.version (msgType l) = none ∧ P.isBlank l = true)

instance (l : List Byte) : Decidable (P.SizeOk l) := inferInstanceAs (Decidable (_ ∨ _))

/-- A turn that begins with some bytes looks at nothing else: the bytes are not just as many as a
    header that is not valid, and the size of the datagram that is looked for is right. -/
def Safe (l : List Byte) : Prop :=
  sizeofHead ≤ l.length → (isValidProtocol l = false → l.length ≠ sizeofHead) ∧
    (isValidProtocol l = true ∨ Found l → headSize l = sizeofHead → P.SizeOk l)

instance (l : List Byte) : Decidable (P.Safe l) := inferInstanceAs (Decidable (_ → _ ∧ _))

theorem searchHead_spec (p : ℕ) {l : List Byte} (h : sizeofHead ≤ l.length) :
    (∃ k, k + sizeofHead < l.length ∧ isHead (l.drop k) = true ∧
      (∀ j < k, isHead (l.drop j) = false) ∧ searchHead p l = .ok (.ok, p + k)) ∨
    ((∀ k, k + sizeofHead < l.length → isHead (l.drop k) = false) ∧
      searchHead p l = .ok (.noDg, p + (l.length - sizeofHead))) := by
  induction l generalizing p with
  | nil => cases h
  | cons b l ih =>
    rw [searchHead]
    by_cases hlast : (b :: l).length = sizeofHead
    · right
      rw [if_pos hlast, hlast]
      exact ⟨fun k hk => absurd hk (by omega), rfl⟩
    · rw [if_neg hlast, if_neg (Nat.not_lt.2 h)]
      have hlong : sizeofHead ≤ l.length := by
        rw [List.length_cons] at h hlast
        omega
      cases hhead : isHead (b :: l) with
      | true =>
        left
        rw [if_pos (by exact hhead)]
        exact ⟨0, by omega, hhead, fun j hj => absurd hj (Nat.not_lt_zero j), rfl⟩
      | false =>
        rw [if_neg (by rw [Bool.not_eq_true]; exact hhead)]
        rcases ih (p + 1) hlong with ⟨k, hk, hfound, hfirst, hs⟩ | ⟨hnone, hs⟩
        · left
          refine ⟨k + 1, ?_, hfound, fun j hj => ?_, ?_⟩
          · rw [List.length_cons]
            omega
          · cases j with
            | zero => exact hhead
            | succ j => exact hfirst j (Nat.lt_of_succ_lt_succ hj)
          · rw [hs, Nat.add_assoc, Nat.add_comm 1]
        · right
          refine ⟨fun k hk => ?_, ?_⟩
          · cases k with
            | zero => exact hhead
            | succ k =>
              rw [List.length_cons] at hk
              exact hnone k (by omega)
          · rw [hs, List.length_cons, Nat.add_assoc, Nat.sub_add_comm hlong, Nat.add_comm 1]

def Outside (e : Abort) : Prop := e = .readOutside ∨ e = .positionOutside

/-- What `MLookingForHead` finds. -/
inductive HeadAt (l : List Byte) : ParseCode → ℕ → Prop
  | short (h : l.length < sizeofHead) : HeadAt l .bufferIsSmall 0
  | first (h : sizeofHead ≤ l.length) (hvalid : isValidProtocol l = true) : HeadAt l .ok 0
  | later (p : ℕ) (hp : 0 < p) (h : p + sizeofHead < l.length)
      (hvalid : isValidProtocol l = false) (hhead : isHead (l.drop p) = true)
      (hfirst : ∀ j, 0 < j → j < p → isHead (l.drop j) = false) : HeadAt l .ok p
  | none (h : sizeofHead < l.length) (hvalid : isValidProtocol l = false)
      (hnone : ∀ j, 0 < j → j + sizeofHead < l.length → isHead (l.drop j) = false) :
      HeadAt l .noDg (l.length - sizeofHead)

theorem lookingForHead_spec (l : List Byte) :
    (l.length = sizeofHead ∧ isValidProtocol l = false ∧
      lookingForHead l = .error .readOutside) ∨
    ∃ code last, lookingForHead l = .ok (code, last) ∧ HeadAt l code last := by
  unfold lookingForHead
  by_cases hshort : l.length < sizeofHead
  · right
    rw [if_pos hshort]
    exact ⟨_, _, rfl, .short hshort⟩
  · rw [if_neg hshort]
    have hlong := Nat.not_lt.1 hshort
    cases hvalid : isValidProtocol l with
    | true =>
      right
      rw [if_pos rfl]
      exact ⟨_, _, rfl, .first hlong hvalid⟩
    | false =>
      rw [if_neg Bool.false_ne_true]
      cases l with
      | nil => exact absurd hlong (by decide)
      | cons b l =>
        rw [List.tail_cons]
        rw [List.length_cons] at hlong ⊢
        by_cases hlen : l.length < sizeofHead
        · left
          refine ⟨by omega, rfl, ?_⟩
          cases l with
          | nil => rfl
          | cons c l => rw [searchHead, if_neg (Nat.ne_of_lt hlen), if_pos hlen]
        · right
          rcases searchHead_spec 1 (Nat.not_lt.1 hlen) with ⟨k, hk, hhead, hfirst, hs⟩ | ⟨hnone, hs⟩
          · refine ⟨_, _, hs, .later (1 + k) (by omega) ?_ hvalid ?_ fun j hj hjk => ?_⟩
            · rw [List.length_cons]
              omega
            · rw [Nat.add_comm]
              exact hhead
            · obtain ⟨j, rfl⟩ := Nat.exists_eq_succ_of_ne_zero (Nat.ne_of_gt hj)
              exact hfirst j (by omega)
          · refine ⟨_, _, hs, ?_⟩
            have hlast : 1 + (l.length - sizeofHead) = (b :: l).length - sizeofHead := by
              rw [List.length_cons]
              omega
            rw [hlast]
            refine .none (by rw [List.length_cons]; omega) hvalid fun j hj hjk => ?_
            obtain ⟨j, rfl⟩ := Nat.exists_eq_succ_of_ne_zero (Nat.ne_of_gt hj)
            rw [List.length_cons] at hjk
            exact hnone j (by omega)

/-- The sum over the data of a whole datagram is the one in its header, if there is one. -/
def isDataCrcRight (l : List Byte) : Bool :=
  if 2 ≤ dataSize P.endian l ∧ dataCrc P.endian l ≠ 0 then
    dataCrcOf (field l sizeofHead (dataSize P.endian l)) == dataCrc P.endian l
  else true

/-- What `MLookingForDG` makes of a datagram. -/
inductive DgAt (l : List Byte) (last : ℕ) : Look → Prop
  | wait (hsize : sizeKd P.endian l < 2 ^ 31) (h : l.length < sizeKd P.endian l) :
      DgAt l last ⟨.bufferIsSmall, 0, []⟩
  | blank (hversion : P.version (msgType l) = none) (hblank : P.isBlank l = true)
      (h : 2 ^ 31 ≤ sizeKd P.endian l ∨ sizeKd P.endian l ≤ l.length) : DgAt l last ⟨.ok, last, []⟩
  | wrong (hversion : P.version (msgType l) = none) (hblank : P.isBlank l = false)
      (hcrc : P.isDataCrcRight l = false) (h : sizeKd P.endian l ≤ l.length) :
      DgAt l last ⟨.ok, last, []⟩
  | unknown (hversion : P.version (msgType l) = none) (hblank : P.isBlank l = false)
      (hcrc : P.isDataCrcRight l = true) (h : sizeKd P.endian l ≤ l.length) :
      DgAt l last ⟨.ok, sizeKd P.endian l, []⟩
  | received (version : ℕ × ℕ) (hversion : P.version (msgType l) = some version)
      (h : sizeKd P.endian l ≤ l.length) :
      DgAt l last ⟨.ok, sizeKd P.endian l,
        if (version.1 == major l && decide (version.2 ≤ minor l)) && P.isDataCrcRight l then
          [l.take (sizeKd P.endian l)] else []⟩

variable {P} {l : List Byte}

theorem isSmall_eq (hsize : sizeKd P.endian l < 2 ^ 31) :
    P.isSmall l = decide (l.length < sizeKd P.endian l) := by
  unfold isSmall Int.bmod
  rw [decide_eq_decide]
  dsimp only
  split_ifs <;> omega

/-- A size that is no `int` is negative, or less than the size of a header. -/
theorem isSmall_eq_false (hhead : headSize l = sizeofHead) (hlong : sizeofHead ≤ l.length)
    (hsize : 2 ^ 31 ≤ sizeKd P.endian l) : P.isSmall l = false := by
  unfold isSmall Int.bmod
  have hdata := dataSize_lt P.endian l
  have hsum : sizeKd P.endian l = sizeofHead + dataSize P.endian l := by rw [sizeKd, hhead]
  have h32 : sizeofHead = 32 := rfl
  rw [decide_eq_false_iff_not]
  dsimp only
  split_ifs <;> omega

theorem isDataCrcValid_eq (hhead : headSize l = sizeofHead) (h : sizeKd P.endian l ≤ l.length) :
    P.isDataCrcValid l = .ok (P.isDataCrcRight l) := by
  unfold isDataCrcValid isDataCrcRight
  rw [sizeKd, hhead] at h
  rw [if_neg (Nat.not_lt.2 h)]
  split_ifs <;> rfl

theorem pass_eq (h : sizeKd P.endian l ≤ l.length) (passed : List (List Byte)) :
    P.pass l passed = .ok ⟨.ok, sizeKd P.endian l, passed⟩ := by
  unfold pass
  rw [if_neg (Nat.not_lt.2 h)]

theorem pass_error (h : l.length < sizeKd P.endian l) (passed : List (List Byte)) :
    P.pass l passed = .error .positionOutside := by
  unfold pass
  rw [if_pos h]

theorem isDataCrcValid_error {e : Abort} (h : P.isDataCrcValid l = .error e) : Outside e := by
  unfold isDataCrcValid at h
  split_ifs at h
  cases h
  exact .inl rfl

/-- Data that is not all there makes the sum or the position after it wrong. -/
theorem isDataCrcValid_pass_error (h : l.length < sizeKd P.endian l)
    (f : Bool → List (List Byte)) :
    ∃ e, Outside e ∧
      (do let isCrcValid ← P.isDataCrcValid l; P.pass l (f isCrcValid)) = .error e := by
  cases hcrc : P.isDataCrcValid l with
  | error e => exact ⟨e, isDataCrcValid_error hcrc, rfl⟩
  | ok b => exact ⟨_, .inr rfl, pass_error h (f b)⟩

theorem lookingForDg_spec (hhead : headSize l = sizeofHead) (hlong : sizeofHead ≤ l.length)
    (last : ℕ) :
    (¬P.SizeOk l ∧ ∃ e, Outside e ∧ P.lookingForDg l last = .error e) ∨
    (P.SizeOk l ∧ ∃ look, P.lookingForDg l last = .ok look ∧ P.DgAt l last look) := by
  unfold lookingForDg
  rw [if_neg (not_not_intro hhead)]
  by_cases hwait : sizeKd P.endian l < 2 ^ 31 ∧ l.length < sizeKd P.endian l
  · right
    have hsmall : P.isSmall l = true := by
      rw [isSmall_eq hwait.1, decide_eq_true_eq]
      exact hwait.2
    refine ⟨.inl hwait.1, ⟨.bufferIsSmall, 0, []⟩, ?_, .wait hwait.1 hwait.2⟩
    cases P.version (msgType l) with
    | some version => simp only [checkKd, hsmall, if_pos]
    | none => simp only [checkHead, hsmall, if_pos]
  · have hsmall : P.isSmall l = false := by
      by_cases hsize : sizeKd P.endian l < 2 ^ 31
      · rw [isSmall_eq hsize, decide_eq_false_iff_not]
        exact fun h => hwait ⟨hsize, h⟩
      · exact isSmall_eq_false hhead hlong (Nat.not_lt.1 hsize)
    by_cases hall : sizeKd P.endian l ≤ l.length
    · right
      refine ⟨.inr (.inl hall), ?_⟩
      cases hversion : P.version (msgType l) with
      | some version =>
        simp only [checkKd, hsmall, if_neg Bool.false_ne_true, isDataCrcValid_eq hhead hall]
        exact ⟨_, pass_eq hall _, .received version hversion hall⟩
      | none =>
        simp only [checkHead, hsmall, if_neg Bool.false_ne_true, isDataCrcValid_eq hhead hall]
        cases hblank : P.isBlank l with
        | true => exact ⟨_, if_pos rfl, .blank hversion hblank (.inr hall)⟩
        | false =>
          cases hcrc : P.isDataCrcRight l with
          | true => exact ⟨_, pass_eq hall [], .unknown hversion hblank hcrc hall⟩
          | false => exact ⟨_, rfl, .wrong hversion hblank hcrc hall⟩
    · have hlarge : ¬sizeKd P.endian l < 2 ^ 31 := fun h => hwait ⟨h, Nat.not_le.1 hall⟩
      cases hversion : P.version (msgType l) with
      | some version =>
        left
        refine ⟨fun h => ?_, ?_⟩
        · rcases h with h | h | ⟨h, -⟩
          · exact hlarge h
          · exact hall h
          · exact Option.some_ne_none version (hversion.symm.trans h)
        · simp only [checkKd, hsmall, if_neg Bool.false_ne_true]
          exact isDataCrcValid_pass_error (Nat.not_le.1 hall) _
      | none =>
        simp only [checkHead, hsmall, if_neg Bool.false_ne_true]
        cases hblank : P.isBlank l with
        | true =>
          right
          exact ⟨.inr (.inr ⟨hversion, hblank⟩), _, if_pos rfl,
            .blank hversion hblank (.inl (Nat.not_lt.1 hlarge))⟩
        | false =>
          left
          refine ⟨fun h => ?_, ?_⟩
          · rcases h with h | h | ⟨-, h⟩
            · exact hlarge h
            · exact hall h
            · exact Bool.false_ne_true (hblank.symm.trans h)
          · rw [if_neg Bool.false_ne_true]
            have hdata : 2 ≤ dataSize P.endian l := by
              have hsum : sizeKd P.endian l = sizeofHead + dataSize P.endian l := by
                rw [sizeKd, hhead]
              have h32 : sizeofHead = 32 := rfl
              omega
            unfold isDataCrcValid
            by_cases hcrc : dataCrc P.endian l = 0
            · rw [if_neg fun h => h.2 hcrc]
              exact ⟨_, .inr rfl, pass_error (Nat.not_le.1 hall) []⟩
            · rw [if_pos ⟨hdata, hcrc⟩, if_pos]
              · exact ⟨_, .inl rfl, rfl⟩
              · rw [sizeKd, hhead] at hall
                exact Nat.not_le.1 hall

variable (P) (l)

/-- A header is found, at the beginning or behind it. -/
def IsFound : Prop := isValidProtocol l = true ∨ Found l

instance : Decidable (IsFound l) := inferInstanceAs (Decidable (_ ∨ _))

/-- A datagram that is not received is not passed over. -/
def IsWrong : Prop := P.isBlank l = true ∨ P.isDataCrcRight l = false

instance : Decidable (P.IsWrong l) := inferInstanceAs (Decidable (_ ∨ _))

/-- What a turn of `MAnalizeBuffer` does. -/
inductive TurnAt : ParseTurn → Prop
  | short (h : l.length < sizeofHead) : TurnAt (.stop 0)
  | noHead (h : sizeofHead < l.length) (hvalid : isValidProtocol l = false) (hfound : ¬Found l) :
      TurnAt (.stop (l.length - sizeofHead))
  | badSize (h : sizeofHead ≤ l.length) (hsize : headSize l ≠ sizeofHead) (hfound : IsFound l) :
      TurnAt (.next 1 [])
  | wait (h : sizeofHead ≤ l.length) (hsize : headSize l = sizeofHead) (hfound : IsFound l)
      (hint : sizeKd P.endian l < 2 ^ 31) (hshort : l.length < sizeKd P.endian l) :
      TurnAt (.stop 0)
  | wrong (h : sizeofHead ≤ l.length) (hsize : headSize l = sizeofHead)
      (hversion : P.version (msgType l) = none) (last : ℕ) (hhead : HeadAt l .ok last)
      (hwrong : P.IsWrong l)
      (hlong : 2 ^ 31 ≤ sizeKd P.endian l ∧ P.isBlank l = true ∨ sizeKd P.endian l ≤ l.length) :
      TurnAt (.next (if last ≠ 0 then last else 1) [])
  | unknown (h : sizeofHead ≤ l.length) (hsize : headSize l = sizeofHead) (hfound : IsFound l)
      (hversion : P.version (msgType l) = none) (hright : ¬P.IsWrong l)
      (hlong : sizeKd P.endian l ≤ l.length) : TurnAt (.next (sizeKd P.endian l) [])
  | received (h : sizeofHead ≤ l.length) (hsize : headSize l = sizeofHead) (hfound : IsFound l)
      (version : ℕ × ℕ) (hversion : P.version (msgType l) = some version)
      (hlong : sizeKd P.endian l ≤ l.length) :
      TurnAt (.next (sizeKd P.endian l)
        (if (version.1 == major l && decide (version.2 ≤ minor l)) && P.isDataCrcRight l then
          [l.take (sizeKd P.endian l)] else []))

variable {P} {l}

theorem HeadAt.length_le {last : ℕ} (h : HeadAt l .ok last) : sizeofHead ≤ l.length := by
  cases h with
  | first h _ => exact h
  | later _ _ h _ _ _ => omega

theorem HeadAt.isFound {last : ℕ} (h : HeadAt l .ok last) : IsFound l := by
  cases h with
  | first _ hvalid => exact .inl hvalid
  | later _ hlast h _ hhead _ => exact .inr ⟨last, by omega, hlast, h, hhead⟩

theorem turn_of_lookingForHead {last : ℕ} (h : lookingForHead l = .ok (.ok, last)) :
    P.turn l = (P.lookingForDg l last >>= fun look =>
      match look.code with
      | .ok => return .next (if look.last ≠ 0 then look.last else 1) look.passed
      | .sizeDg => return .next 1 []
      | .bufferIsSmall | .noDg => return .stop look.last) := by
  unfold turn
  rw [h]
  rfl

/-- A turn goes on at a position inside, or looks at what lies outside. -/
theorem turn_spec (P : Receives) (l : List Byte) :
    (¬P.Safe l ∧ ∃ e, Outside e ∧ P.turn l = .error e) ∨
    (P.Safe l ∧ ∃ t, P.turn l = .ok t ∧ P.TurnAt l t) := by
  rcases lookingForHead_spec l with ⟨hlen, hvalid, hhead⟩ | ⟨code, last, hhead, hat⟩
  · left
    refine ⟨fun hsafe => (hsafe (Nat.le_of_eq hlen.symm)).1 hvalid hlen, _, .inl rfl, ?_⟩
    unfold turn
    rw [hhead]
    rfl
  · have hdg : ∀ last, HeadAt l .ok last → lookingForHead l = .ok (.ok, last) →
        (¬P.Safe l ∧ ∃ e, Outside e ∧ P.turn l = .error e) ∨
        (P.Safe l ∧ ∃ t, P.turn l = .ok t ∧ P.TurnAt l t) := by
      intro last hat hhead
      rw [turn_of_lookingForHead hhead]
      have hlong := hat.length_le
      have hfound := hat.isFound
      have hnotLast : isValidProtocol l = false → l.length ≠ sizeofHead := by
        intro hvalid hlen
        rcases hfound with h | ⟨p, -, -, hp, -⟩
        · exact Bool.false_ne_true (hvalid.symm.trans h)
        · omega
      by_cases hsize : headSize l = sizeofHead
      · rcases lookingForDg_spec hsize hlong last with
          ⟨hok, e, he, hlook⟩ | ⟨hok, look, hlook, hdg⟩
        · left
          rw [hlook]
          exact ⟨fun hsafe => hok ((hsafe hlong).2 hfound hsize), e, he, rfl⟩
        · right
          rw [hlook]
          refine ⟨fun _ => ⟨hnotLast, fun _ _ => hok⟩, ?_⟩
          have hpos : sizeKd P.endian l ≠ 0 := by
            rw [sizeKd, hsize, sizeofHead]
            omega
          cases hdg with
          | wait hint h => exact ⟨_, rfl, .wait hlong hsize hfound hint h⟩
          | blank hversion hblank h =>
            exact ⟨_, rfl, .wrong hlong hsize hversion last hat (.inl hblank)
              (h.imp_left fun h => ⟨h, hblank⟩)⟩
          | wrong hversion _ hcrc h =>
            exact ⟨_, rfl, .wrong hlong hsize hversion last hat (.inr hcrc) (.inr h)⟩
          | unknown hversion hblank hcrc h =>
            have hright : ¬P.IsWrong l := by
              rintro (h | h)
              · exact Bool.false_ne_true (hblank.symm.trans h)
              · exact Bool.false_ne_true (h.symm.trans hcrc)
            refine ⟨_, rfl, ?_⟩
            dsimp only
            rw [if_pos hpos]
            exact .unknown hlong hsize hfound hversion hright h
          | received version hversion h =>
            refine ⟨_, rfl, ?_⟩
            dsimp only
            rw [if_pos hpos]
            exact .received hlong hsize hfound version hversion h
      · right
        refine ⟨fun _ => ⟨hnotLast, fun _ h => absurd h hsize⟩, .next 1 [], ?_,
          .badSize hlong hsize hfound⟩
        unfold lookingForDg
        rw [if_pos hsize]
        rfl
    cases hat with
    | short h =>
      right
      refine ⟨fun hlong => absurd hlong (Nat.not_le.2 h), .stop 0, ?_, .short h⟩
      unfold turn
      rw [hhead]
      rfl
    | first h hvalid => exact hdg _ (.first h hvalid) hhead
    | later _ hlast h hvalid hhead' hfirst =>
      exact hdg last (.later last hlast h hvalid hhead' hfirst) hhead
    | none h hvalid hnone =>
      right
      have hfound : ¬Found l := by
        rintro ⟨p, -, hp, hlast, hp'⟩
        exact Bool.false_ne_true ((hnone p hp hlast).symm.trans hp')
      refine ⟨fun _ => ⟨fun _ => Nat.ne_of_gt h, fun hfound' => ?_⟩, .stop _, ?_,
        .noHead h hvalid hfound⟩
      · rcases hfound' with h | h
        · exact absurd h (by rw [hvalid]; exact Bool.false_ne_true)
        · exact absurd h hfound
      · unfold turn
        rw [hhead]
        rfl

end Receives

end UdtKernel
