import UdtKernel.RequiredDG.StageShares

set_option autoImplicit false

/-! The data of a sender as a stream: however it is cut into packets, and whatever other packets are
among them, the same messages are found in it. -/

namespace UdtKernel.ReceiverStage
open UdtKernel.Lib UdtKernel.RequiredDG UdtKernel.Extract
open UdtKernel.SwapEndian (isRaw rawProtocolName)

/-- A parser that is used for one sender, as what cuts a stream into messages. -/
def cutterOf (p : Parser) (hp : p.Contiguous) (u : Uuid) :
    Cutter Byte (RequiredHeader × List Byte) where
  items := fun data => (p.parserData data u).map fun m => (m.type, slice data m)
  text := Prod.snd
  rest := fun data => data.drop (p.endIn u data)
  whole := fun data => by
    rw [List.flatMap_map]
    exact ContiguousFrom.slices data (hp data u)

/-- The packet is a part of the stream that a sender has in a protocol. -/
def IsPart (u : Uuid) (t : Text) (m : UserData) : Prop :=
  m.data ≠ [] ∧ isRaw m.dataId = false ∧ isMsgExist m.dataId = false ∧ senderOf m = u ∧
    m.dataId.protocol = t

instance (u : Uuid) (t : Text) (m : UserData) : Decidable (IsPart u t m) :=
  inferInstanceAs (Decidable (_ ∧ _))

def partsOf (u : Uuid) (t : Text) (ms : List UserData) : List (List Byte) :=
  (ms.filter (IsPart u t ·)).map UserData.data

def foundIn (u : Uuid) (t : Text) (xs : List UserData) : List (RequiredHeader × List Byte) :=
  (xs.filter fun x => senderOf x = u ∧ x.dataId.protocol = t).map fun x => (x.dataId.what, x.data)

theorem foundIn_singleton (u : Uuid) (t : Text) (x : UserData) :
    foundIn u t [x] = if senderOf x = u ∧ x.dataId.protocol = t then
      [(x.dataId.what, x.data)] else [] := by
  unfold foundIn
  by_cases h : senderOf x = u ∧ x.dataId.protocol = t
  · simp [h]
  · simp [h]

theorem partsOf_cons (u : Uuid) (t : Text) (m : UserData) (ms : List UserData) :
    partsOf u t (m :: ms) = if IsPart u t m then m.data :: partsOf u t ms else partsOf u t ms := by
  unfold partsOf
  by_cases h : IsPart u t m
  · simp [h]
  · simp [h]

theorem foundIn_append (u : Uuid) (t : Text) (xs ys : List UserData) :
    foundIn u t (xs ++ ys) = foundIn u t xs ++ foundIn u t ys := by
  unfold foundIn
  rw [List.filter_append, List.map_append]

variable {factory : ParserFactory} {k k' : Kernel} {m : UserData} {s : Share} {xs : List UserData}

theorem foundIn_found {p : Parser} {data : UserData} {ps : List (ObtainedDg × UserData)}
    (h : ∀ q ∈ ps, IsFound p data q.1 q.2) (u : Uuid) (t : Text) :
    foundIn u t (ps.map Prod.snd) = if senderOf data = u ∧ data.dataId.protocol = t then
      (ps.map Prod.fst).map fun n => (n.type, slice data.data n) else [] := by
  induction ps with
  | nil =>
    split_ifs
    · rfl
    · rfl
  | cons q ps ih =>
    obtain ⟨number, hid⟩ := (h q List.mem_cons_self).id
    have htext := (h q List.mem_cons_self).text
    have hrest := ih fun r hr => h r (List.mem_cons_of_mem _ hr)
    have hsender : senderOf q.2 = senderOf data := by
      unfold senderOf
      rw [hid]
    have hprotocol : q.2.dataId.protocol = data.dataId.protocol := by rw [hid]
    have hwhat : q.2.dataId.what = q.1.type := by rw [hid]
    have hsplit : foundIn u t ((q :: ps).map Prod.snd) =
        foundIn u t [q.2] ++ foundIn u t (ps.map Prod.snd) := foundIn_append u t [q.2] _
    rw [hsplit, hrest]
    rw [foundIn_singleton, hsender, hprotocol, hwhat, htext]
    split_ifs
    · rfl
    · rfl

/-- A packet that is no part of a stream changes nothing of it. -/
theorem Went.other {u : Uuid} {t : Text} (h : Went factory k m s xs k') (hno : ¬IsPart u t m) :
    foundIn u t xs = [] ∧ (k'.routing u t).bufferedData = (k.routing u t).bufferedData := by
  have htouch (v : Uuid) (q : Text) : ((k.touch v q).routing u t).bufferedData =
      (k.routing u t).bufferedData := by rw [Kernel.routing_touch]
  have hset (hother : ¬(u = senderOf m ∧ t = m.dataId.protocol)) (p : Parser)
      (sh : Option Sharing) :
      ((parsedKernel k p m sh).routing u t).bufferedData = (k.routing u t).bufferedData := by
    unfold parsedKernel
    rw [Kernel.routing_setShared, Kernel.routing_setBuffered, if_neg hother, Kernel.routing_touch]
  cases h with
  | empty hdata => exact ⟨rfl, rfl⟩
  | raw hdata hraw => exact ⟨rfl, htouch _ _⟩
  | unexpected hdata hraw hexpected => exact ⟨rfl, htouch _ _⟩
  | known hdata hraw hexpected hknown => exact ⟨rfl, htouch _ _⟩
  | noParser hdata hraw hexpected hknown hp => exact ⟨rfl, htouch _ _⟩
  | waits hdata hraw hexpected hknown hp hnone i =>
    exact ⟨rfl, hset (fun h => hno ⟨hdata, hraw, hknown, h.1.symm, h.2.symm⟩) _ _⟩
  | found hdata hraw hexpected hknown hp ps hps hne hfound msgId =>
    have hother : ¬(u = senderOf m ∧ t = m.dataId.protocol) :=
      fun h => hno ⟨hdata, hraw, hknown, h.1.symm, h.2.symm⟩
    refine ⟨?_, hset hother _ none⟩
    rw [foundIn_found hfound]
    exact if_neg fun h => hother ⟨h.1.symm, h.2.symm⟩

/-- A part of a stream is cut behind what was buffered. -/
theorem Went.part {u : Uuid} {t : Text} (h : Went factory k m s xs k') (his : IsPart u t m)
    (hapart : sharingFor k m = none)
    (hexpected : (k.routing u t).expected.entries ≠ []) {p : Parser} (hp : p.Contiguous)
    (hfactory : factory t = some p) :
    foundIn u t xs = (cutterOf p hp u).items ((k.routing u t).bufferedData ++ m.data) ∧
      (k'.routing u t).bufferedData =
        (cutterOf p hp u).rest ((k.routing u t).bufferedData ++ m.data) := by
  obtain ⟨hdata, hraw, hknown, rfl, rfl⟩ := his
  have hjoined := joinedData_of_none hapart
  have hset (p : Parser) (sh : Option Sharing) :
      ((parsedKernel k p m sh).routing (senderOf m) m.dataId.protocol).bufferedData =
        (joinedData k m).drop (p.endIn (senderOf m) (joinedData k m)) := by
    unfold parsedKernel
    rw [Kernel.routing_setShared, Kernel.routing_setBuffered, if_pos ⟨rfl, rfl⟩]
  cases h with
  | empty hno => exact absurd hno hdata
  | raw _ hno =>
    rw [hraw] at hno
    cases hno
  | unexpected _ _ hno => exact absurd hno hexpected
  | known _ _ _ hno =>
    rw [hknown] at hno
    cases hno
  | noParser _ _ _ _ hno =>
    rw [hfactory] at hno
    cases hno
  | waits _ _ _ _ hq hnone i =>
    obtain rfl := Option.some.inj (hfactory.symm.trans hq)
    rw [← hjoined]
    refine ⟨?_, hset _ _⟩
    change [] = (p.parserData (joinedData k m) (senderOf m)).map _
    rw [hnone]
    rfl
  | found _ _ _ _ hq ps hps hne hfound msgId =>
    obtain rfl := Option.some.inj (hfactory.symm.trans hq)
    rw [← hjoined]
    refine ⟨?_, hset _ none⟩
    rw [foundIn_found hfound, if_pos ⟨rfl, rfl⟩, hps]
    rfl

/-- What is found in a stream and what is left of it is what its cutter makes of its parts. -/
theorem AllWent.feed {u : Uuid} {t : Text} {ms : List UserData} {ss : List Share}
    {xss : List (List UserData)} (h : AllWent factory k ms ss xss k') (hapart : Apart k ms)
    (hexpected : (k.routing u t).expected.entries ≠ []) {p : Parser} (hp : p.Contiguous)
    (hfactory : factory t = some p) :
    (cutterOf p hp u).feed (k.routing u t).bufferedData (partsOf u t ms) =
      (foundIn u t xss.flatten, (k'.routing u t).bufferedData) := by
  induction h with
  | nil k => rfl
  | @cons k k₁ k₂ m ms s ss xs xss h rest ih =>
    have hnext := ih (hapart.went h) (by rw [h.expected]; exact hexpected)
    rw [List.flatten_cons, foundIn_append]
    rw [partsOf_cons]
    split_ifs with his
    · obtain ⟨hfound, hleft⟩ := h.part his hapart.sharingFor hexpected hp hfactory
      simp only [Cutter.feed, hfound, ← hleft, hnext]
    · obtain ⟨hfound, hleft⟩ := h.other his
      rw [hfound, ← hleft, hnext, List.nil_append]

/-- The pairs of a stream, and the byte that is left. -/
def pairTexts : List Byte → List (RequiredHeader × List Byte)
  | a :: b :: rest => (⟨⟨0, 0, 0⟩, [a]⟩, [a, b]) :: pairTexts rest
  | [_] | [] => []

def pairRest : List Byte → List Byte
  | _ :: _ :: rest => pairRest rest
  | [a] => [a]
  | [] => []

theorem pairTexts_append (l l' : List Byte) :
    pairTexts (l ++ l') = pairTexts l ++ pairTexts (pairRest l ++ l') := by
  fun_induction pairTexts l with
  | case1 a b rest ih =>
    change _ :: pairTexts (rest ++ l') = _ :: (pairTexts rest ++ pairTexts (pairRest rest ++ l'))
    rw [ih]
  | case2 a => rfl
  | case3 => rfl

theorem pairsFrom_texts (front data : List Byte) :
    ((pairsFrom front.length data).map fun m => (m.type, slice (front ++ data) m)) =
      pairTexts data := by
  fun_induction pairTexts data generalizing front with
  | case1 a b rest ih =>
    have hrest := ih (front ++ [a, b])
    rw [List.length_append, List.append_assoc] at hrest
    have hone : slice (front ++ a :: b :: rest) ⟨⟨⟨0, 0, 0⟩, [a]⟩, if a = 9 then 1 else 0,
        front.length, front.length + 2⟩ = [a, b] := by
      unfold slice
      dsimp only
      rw [List.drop_left, Nat.add_sub_cancel_left]
      rfl
    change (_, slice _ _) :: _ = _
    rw [hone, ← hrest]
    rfl
  | case2 a => rfl
  | case3 => rfl

theorem pairsFrom_rest (front data : List Byte) :
    (front ++ data).drop (endOf front.length (pairsFrom front.length data)) = pairRest data := by
  fun_induction pairRest data generalizing front with
  | case1 a b rest ih =>
    have hrest := ih (front ++ [a, b])
    rw [List.length_append, List.append_assoc] at hrest
    exact hrest
  | case2 a => exact List.drop_left
  | case3 => exact List.drop_left

theorem pairParser_incremental (u : Uuid) :
    (cutterOf pairParser pairParser_contiguous u).Incremental := by
  have hitems (l : List Byte) : (cutterOf pairParser pairParser_contiguous u).items l =
      pairTexts l := pairsFrom_texts [] l
  have hrest (l : List Byte) : (cutterOf pairParser pairParser_contiguous u).rest l =
      pairRest l := pairsFrom_rest [] l
  intro l l'
  rw [hitems, hitems, hitems, hrest]
  exact pairTexts_append l l'

end UdtKernel.ReceiverStage
