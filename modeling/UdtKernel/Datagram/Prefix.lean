import UdtKernel.Datagram.MemorySafe

set_option autoImplicit false

/-! What the parser sees of a datagram is in the bytes of the datagram, and which bytes it waits
with. -/

namespace UdtKernel
open UdtKernel.Lib Head

theorem field_append {l : List Byte} {offset n : ℕ} (h : offset + n ≤ l.length) (t : List Byte) :
    field (l ++ t) offset n = field l offset n := by
  unfold field
  rw [List.drop_append_of_le_length (by omega), List.take_append_of_le_length]
  rw [List.length_drop]
  omega

theorem byteAt_append {l : List Byte} {offset : ℕ} (h : offset < l.length) (t : List Byte) :
    byteAt (l ++ t) offset = byteAt l offset := by
  unfold byteAt
  rw [List.getD_eq_getElem?_getD, List.getD_eq_getElem?_getD, List.getElem?_append_left h]

namespace Receives

section
variable {P : Receives} {l : List Byte} (h : sizeofHead ≤ l.length) (t : List Byte)
include h

theorem isValidProtocol_append : isValidProtocol (l ++ t) = isValidProtocol l := by
  unfold isValidProtocol
  rw [List.take_append_of_le_length h, List.length_append, decide_eq_true h,
    decide_eq_true (Nat.le_trans h (Nat.le_add_right _ _))]

theorem headSize_append : headSize (l ++ t) = headSize l :=
  byteAt_append (Nat.lt_of_lt_of_le (by decide) h) t

theorem isHead_append : isHead (l ++ t) = isHead l := by
  unfold isHead
  rw [isValidProtocol_append h t, headSize_append h t]

theorem msgType_append : msgType (l ++ t) = msgType l :=
  byteAt_append (Nat.lt_of_lt_of_le (by decide) h) t

theorem major_append : major (l ++ t) = major l :=
  byteAt_append (Nat.lt_of_lt_of_le (by decide) h) t

theorem minor_append : minor (l ++ t) = minor l :=
  byteAt_append (Nat.lt_of_lt_of_le (by decide) h) t

theorem endianCorrectValue_append (me : Endian) {offset n : ℕ} (hn : offset + n ≤ sizeofHead) :
    endianCorrectValue me (l ++ t) (field (l ++ t) offset n) =
      endianCorrectValue me l (field l offset n) := by
  unfold endianCorrectValue isValidEndian
  rw [field_append (Nat.le_trans hn h) t, byteAt_append (Nat.lt_of_lt_of_le (by decide) h) t]

theorem dataSize_append (me : Endian) : dataSize me (l ++ t) = dataSize me l :=
  endianCorrectValue_append h t me (by decide)

theorem dataCrc_append (me : Endian) : dataCrc me (l ++ t) = dataCrc me l :=
  endianCorrectValue_append h t me (by decide)

theorem sizeKd_append (me : Endian) : sizeKd me (l ++ t) = sizeKd me l := by
  unfold sizeKd
  rw [headSize_append h t, dataSize_append h t]

theorem isBlank_append : P.isBlank (l ++ t) = P.isBlank l := by
  have htime : time P.endian (l ++ t) = time P.endian l :=
    endianCorrectValue_append h t P.endian (by decide)
  have hfrom : fromUuid P.endian (l ++ t) = fromUuid P.endian l :=
    endianCorrectValue_append h t P.endian (by decide)
  unfold isBlank
  rw [major_append h t, minor_append h t, hfrom, htime]

theorem isDataCrcRight_append (hsize : headSize l = sizeofHead)
    (hlong : sizeKd P.endian l ≤ l.length) :
    P.isDataCrcRight (l ++ t) = P.isDataCrcRight l := by
  rw [sizeKd, hsize] at hlong
  unfold isDataCrcRight
  rw [dataSize_append h t, dataCrc_append h t, field_append hlong t]

theorem isWrong_append (hsize : headSize l = sizeofHead)
    (hlong : 2 ^ 31 ≤ sizeKd P.endian l ∧ P.isBlank l = true ∨ sizeKd P.endian l ≤ l.length) :
    P.IsWrong (l ++ t) ↔ P.IsWrong l := by
  unfold IsWrong
  rw [isBlank_append h t]
  rcases hlong with ⟨-, hblank⟩ | hlong
  · rw [hblank]
    exact ⟨fun _ => .inl rfl, fun _ => .inl rfl⟩
  · rw [isDataCrcRight_append h t hsize hlong]

omit h in
theorem isHead_drop_append {k : ℕ} (hk : k + sizeofHead ≤ l.length) :
    isHead ((l ++ t).drop k) = isHead (l.drop k) := by
  rw [List.drop_append_of_le_length (by omega), isHead_append]
  rw [List.length_drop]
  omega

end

section
variable (P : Receives)

/-- The bytes with which a turn returns: they are shorter than a header, no header is found, or the
    datagram is not complete. -/
def Waits (l : List Byte) : Prop :=
  l.length < sizeofHead ∨ ¬IsFound l ∨ headSize l = sizeofHead ∧ P.isSmall l = true

instance (l : List Byte) : Decidable (P.Waits l) := inferInstanceAs (Decidable (_ ∨ ¬_ ∨ _ ∧ _))

/-- The loop over the bytes `w` of `FBuf` waits for more only before it has passed over any. -/
def WaitsAtOnce (w l : List Byte) : Prop :=
  l ≠ [] → P.Waits l → l = w ∧ (l.length ≤ sizeofHead ∨ IsFound l)

instance (w l : List Byte) : Decidable (P.WaitsAtOnce w l) :=
  inferInstanceAs (Decidable (_ → _ → _ ∧ (_ ∨ _)))

/-- A turn of the loop over a chunk begins with bytes that are as `ok` says; when bytes were kept
    before, the loop waits at once or not at all. -/
def LookOk (ok : List Byte → Prop) (s : Parsed) (chunk : Chunk) (u : Parsed) : Prop :=
  ok u.2 ∧ (s.2 ≠ [] → P.WaitsAtOnce (s.2 ++ chunk.bytes) u.2)

instance (ok : List Byte → Prop) [DecidablePred ok] (s : Parsed) (chunk : Chunk) :
    DecidablePred (P.LookOk ok s chunk) := fun u =>
  inferInstanceAs (Decidable (ok u.2 ∧ (s.2 ≠ [] → P.WaitsAtOnce (s.2 ++ chunk.bytes) u.2)))

/-- Every turn of the loop that looks at a chunk is as `LookOk` says. -/
def EveryLook (ok : List Byte → Prop) (s : Parsed) (chunk : Chunk) : Prop :=
  chunk.bytes ≠ [] →
    EveryTurn P.analizeTurn (P.LookOk ok s chunk) ((s.2 ++ chunk.bytes).length + 1)
      ([], s.2 ++ chunk.bytes)

instance (ok : List Byte → Prop) [DecidablePred ok] (s : Parsed) (chunk : Chunk) :
    Decidable (P.EveryLook ok s chunk) :=
  have : Decidable (EveryTurn P.analizeTurn (P.LookOk ok s chunk)
    ((s.2 ++ chunk.bytes).length + 1) ([], s.2 ++ chunk.bytes)) := decidableEveryTurn _ _ _ _
  inferInstanceAs (Decidable (chunk.bytes ≠ [] → _))

/-- What is passed and left after a turn is as `I` says when the loop goes on, and as `J` says when
    it returns. -/
def Follows (I J : Parsed → Prop) (s : Parsed) : ParseTurn → Prop
  | .next n passed => I (s.1 ++ passed, s.2.drop n)
  | .stop n => J (s.1, s.2.drop n)

variable {P}

/-- What is kept is what was not passed over, when that is nothing or all. -/
theorem bufferAfter_eq {buf chunk rest : List Byte} (behind : ℕ → Byte)
    (h : buf ≠ [] → rest = [] ∨ rest = buf ++ chunk) :
    bufferAfter behind buf chunk rest = rest := by
  unfold bufferAfter
  split_ifs with hnone
  · rfl
  · push Not at hnone
    rw [(h hnone.2).resolve_left hnone.1, Nat.sub_self]
    unfold eraseFront
    rw [List.drop_zero, List.range_zero, List.map_nil, List.append_nil]

/-- A loop that waits at once or not at all passes over nothing or all. -/
theorem analizeBuffer_rest {w : List Byte}
    (h : EveryTurn P.analizeTurn (fun u => P.WaitsAtOnce w u.2) (w.length + 1) ([], w)) :
    Outcome (fun _ => True) (fun t : Parsed => t.2 = [] ∨ t.2 = w) (P.analizeBuffer w) := by
  refine loop_outcome (I := fun _ => True) (fun u _ hwaits => ?_) trivial h (loop_analizeTurn w)
  by_cases hempty : u.2 = []
  · obtain ⟨passed, r⟩ := u
    subst hempty
    rw [analizeTurn_nil]
    exact .inl rfl
  · rcases turn_spec P u.2 with ⟨-, e, -, he⟩ | ⟨-, turn, hturn, hat⟩
    · rw [analizeTurn_error hempty he]
      trivial
    · cases hat with
      | short h =>
        rw [analizeTurn_stop hempty hturn]
        exact .inr (hwaits hempty (.inl h)).1
      | noHead h hvalid hfound =>
        have hnone : ¬IsFound u.2 := fun hor =>
          hor.elim (fun hv => Bool.false_ne_true (hvalid.symm.trans hv)) hfound
        rcases (hwaits hempty (.inr (.inl hnone))).2 with hle | hisFound
        · exact absurd h (Nat.not_lt.2 hle)
        · exact absurd hisFound hnone
      | wait h hsize _ hint hshort =>
        rw [analizeTurn_stop hempty hturn]
        have hsmall : P.isSmall u.2 = true := by rw [isSmall_eq hint, decide_eq_true hshort]
        exact .inr (hwaits hempty (.inr (.inr ⟨hsize, hsmall⟩))).1
      | badSize _ _ _ => rw [analizeTurn_next hempty hturn]; trivial
      | wrong _ _ _ _ _ _ _ => rw [analizeTurn_next hempty hturn]; trivial
      | unknown _ _ _ _ _ _ => rw [analizeTurn_next hempty hturn]; trivial
      | received _ _ _ _ _ _ => rw [analizeTurn_next hempty hturn]; trivial

theorem receivedData_outcome {ok : List Byte → Prop} {I J : Parsed → Prop} {s : Parsed}
    {chunk : Chunk} (hlook : P.EveryLook ok s chunk) (hstart : I (s.1, s.2 ++ chunk.bytes))
    (hturn : ∀ u, u.2 ≠ [] → I u → ok u.2 → ∃ t, P.turn u.2 = .ok t ∧ Follows I J u t)
    (hend : ∀ passed, I (passed, []) → J (passed, [])) (hnil : chunk.bytes = [] → J s) :
    Outcome (fun _ => False) J (P.receivedData chunk s) := by
  unfold receivedData
  by_cases hchunk : chunk.bytes = []
  · rw [if_pos hchunk]
    exact hnil hchunk
  · rw [if_neg hchunk]
    have hrest : Outcome (fun _ => True)
        (fun t : Parsed => s.2 ≠ [] → t.2 = [] ∨ t.2 = s.2 ++ chunk.bytes)
        (P.analizeBuffer (s.2 ++ chunk.bytes)) := by
      by_cases hs : s.2 = []
      · exact (Outcome.trivial _).mono fun t _ hne => absurd hs hne
      · exact (analizeBuffer_rest ((hlook hchunk).mono fun u hu => hu.2 hs)).mono fun t ht _ => ht
    suffices hloop : Outcome (fun _ => False) (fun t : Parsed => J (s.1 ++ t.1, t.2))
        (P.analizeBuffer (s.2 ++ chunk.bytes)) by
      refine ((Outcome.and hloop hrest).weaken fun e he => he.1).bind fun t ht => ?_
      obtain ⟨passed, rest⟩ := t
      dsimp only
      rw [bufferAfter_eq chunk.behind ht.2]
      exact ht.1
    refine loop_outcome (I := fun u => I (s.1 ++ u.1, u.2)) (fun u hu hok => ?_) ?_
      ((hlook hchunk).mono fun u hu => hu.1) (loop_analizeTurn _)
    · by_cases hempty : u.2 = []
      · obtain ⟨passed, r⟩ := u
        subst hempty
        rw [analizeTurn_nil]
        exact hend _ hu
      · obtain ⟨t, ht, hfollows⟩ := hturn (s.1 ++ u.1, u.2) hempty hu hok
        cases t with
        | next n passed =>
          rw [analizeTurn_next hempty ht]
          have hnext : I (s.1 ++ u.1 ++ passed, u.2.drop n) := hfollows
          rw [List.append_assoc] at hnext
          exact hnext
        | stop n =>
          rw [analizeTurn_stop hempty ht]
          exact hfollows
    · rw [List.append_nil]
      exact hstart

end

end Receives

end UdtKernel
