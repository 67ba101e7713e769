import UdtKernel.Divisor.Continue

set_option autoImplicit false

/-! Somebody who watches the pieces that come and knows the packets they were made of. -/

namespace UdtKernel.Stream
open UdtKernel.Divisor UdtKernel.Cross UdtKernel.Merge UdtKernel.Sequence UdtKernel.Roundtrip
open UdtKernel.Continue

def sender (m : UserData) : Uuid := m.dataId.routing.from_.uuid

/-- What should become of a stream of pieces: for each sender the pieces of the packet that
    is being put together, the packets delivered and the headers reported as lost. -/
structure Watch where
  cur : Uuid → List UserData
  sent : List UserData
  lost : List UserDataInfo

def start : Watch := ⟨fun _ => [], [], []⟩

/-- The pieces held of the packet that `m` belongs to. -/
def held (w : Watch) (m : UserData) : List UserData :=
  match w.cur (sender m) with
  | [] => []
  | x :: xs => if samePacket x m then x :: xs else []

/-- The pieces held of another packet of the sender, given up when `m` comes. -/
def stale (w : Watch) (m : UserData) : List UserDataInfo :=
  match w.cur (sender m) with
  | [] => []
  | x :: _ => if samePacket x m then [] else [x.dataId]

/-- Pieces `m :: ms` of the packet `o` come. -/
def take (o : Origin) (w : Watch) (m : UserData) (ms : List UserData) : Watch :=
  let pre := held w m
  let lost := w.lost ++ stale w m
  if pre = [] ∧ m.dataId.split.counter ≠ 1 then
    ⟨Function.update w.cur (sender m) [], w.sent, lost ++ [m.dataId]⟩
  else if pre ++ m :: ms = o.pieces then
    ⟨Function.update w.cur (sender m) [], w.sent ++ [o.packet], lost⟩
  else if pre ++ m :: ms <+: o.pieces then
    ⟨Function.update w.cur (sender m) (pre ++ m :: ms), w.sent, lost⟩
  else ⟨Function.update w.cur (sender m) [], w.sent, lost ++ [(pre.headD m).dataId]⟩

def originOf (os : List Origin) (m : UserData) : Option Origin :=
  os.find? fun o => samePacket o.packet m

/-- One turn: messages of one packet that stand together. Whole packets pass. -/
def turn (os : List Origin) (w : Watch) : List UserData → Watch
  | [] => w
  | m :: ms =>
    if isSplited m.dataId.split then match originOf os m with
      | some o => take o w m ms
      | none => w
    else { w with sent := w.sent ++ m :: ms }

def run (os : List Origin) (w : Watch) (gs : List (List UserData)) : Watch := gs.foldl (turn os) w

/-- The packets of the stream have different numbers or different senders. -/
def Distinct (os : List Origin) : Prop :=
  os.Pairwise fun o o' => samePacket o.packet o'.packet = false

theorem samePacket_symm (a b : UserData) : samePacket a b = samePacket b a := by
  simp only [samePacket, Bool.beq_comm]

theorem samePacket_trans {a b c : UserData} (hab : samePacket a b = true)
    (hbc : samePacket b c = true) : samePacket a c = true := by
  simp only [samePacket, Bool.and_eq_true, beq_iff_eq] at *
  exact ⟨hab.1.trans hbc.1, hab.2.trans hbc.2⟩

theorem sender_eq {a b : UserData} (h : samePacket a b = true) : sender a = sender b := by
  simp only [samePacket, Bool.and_eq_true, beq_iff_eq] at h
  exact h.2

theorem samePacket_self (a : UserData) : samePacket a a = true := by simp [samePacket]

theorem samePacket_piece {o : Origin} {m : UserData} (hm : m ∈ o.pieces) :
    samePacket o.packet m = true := samePacket_ofPacket rfl (o.ofPacket m hm)

theorem origin_unique {os : List Origin} (hd : Distinct os) {o o' : Origin} (ho : o ∈ os)
    (ho' : o' ∈ os) (h : samePacket o.packet o'.packet = true) : o = o' := by
  by_contra hne
  have hsymm : Std.Symm fun o o' : Origin => samePacket o.packet o'.packet = false :=
    ⟨fun a b hab => by rw [samePacket_symm]; exact hab⟩
  have hfalse := List.Pairwise.forall hd ho ho' hne
  rw [h] at hfalse
  cases hfalse

theorem originOf_piece {os : List Origin} (hd : Distinct os) {o : Origin} (ho : o ∈ os)
    {m : UserData} (hm : m ∈ o.pieces) : originOf os m = some o := by
  have hsame := samePacket_piece hm
  cases hf : originOf os m with
  | none =>
    have hall := List.find?_eq_none.1 hf o ho
    exact absurd hsame hall
  | some o' =>
    have ho' : o' ∈ os := List.mem_of_find?_eq_some hf
    have hsame' : samePacket o'.packet m = true := by simpa using List.find?_some hf
    rw [samePacket_symm] at hsame'
    rw [origin_unique hd ho ho' (samePacket_trans hsame hsame')]

/-- A piece that is not marked as split is a packet in one piece. -/
theorem whole_piece {o : Origin} {m : UserData} (hm : m ∈ o.pieces)
    (hs : isSplited m.dataId.split = false) : m = o.packet ∧ o.pieces = [m] := by
  obtain ⟨qs, harr⟩ := o.arrived
  cases hp : o.pieces with
  | nil => rw [hp] at hm; cases hm
  | cons x rest =>
    rw [hp] at harr hm
    cases rest with
    | nil =>
      obtain rfl := List.mem_singleton.1 hm
      exact ⟨(harr.single o.whole).1, rfl⟩
    | cons y rest =>
      rw [harr.isSplited_of_two m hm] at hs
      cases hs

theorem take_cases (o : Origin) (w : Watch) (m : UserData) (ms : List UserData) :
    ((∃ i, (i = m.dataId ∨ ∃ x ∈ held w m, i = x.dataId) ∧ take o w m ms =
        ⟨Function.update w.cur (sender m) [], w.sent, w.lost ++ stale w m ++ [i]⟩) ∧
      (held w m = [] → Continues o [] m → ¬ m :: ms <+: o.pieces) ∧
      (held w m ≠ [] → ¬ held w m ++ m :: ms <+: o.pieces)) ∨
    (held w m ++ m :: ms = o.pieces ∧ take o w m ms =
      ⟨Function.update w.cur (sender m) [], w.sent ++ [o.packet], w.lost ++ stale w m⟩) ∨
    (held w m ++ m :: ms <+: o.pieces ∧ held w m ++ m :: ms ≠ o.pieces ∧ take o w m ms =
      ⟨Function.update w.cur (sender m) (held w m ++ m :: ms), w.sent, w.lost ++ stale w m⟩) := by
  unfold take
  dsimp only
  split_ifs with hfirst hall hpre
  · refine .inl ⟨⟨_, .inl rfl, rfl⟩, fun _ hc => absurd (counter_of_continues_nil hc) hfirst.2,
      fun hne => absurd hfirst.1 hne⟩
  · exact .inr (.inl ⟨hall, rfl⟩)
  · exact .inr (.inr ⟨hpre, hall, rfl⟩)
  · refine .inl ⟨⟨_, ?_, rfl⟩, fun hnil _ => by simpa [hnil] using hpre, fun _ => hpre⟩
    cases hh : held w m with
    | nil => exact .inl rfl
    | cons x xs => exact .inr ⟨x, List.mem_cons_self, rfl⟩

def streamOf (u : Uuid) (hist : List UserData) : List UserData :=
  hist.filter fun m => sender m == u && isSplited m.dataId.split

theorem streamOf_append (u : Uuid) (hist g : List UserData) :
    streamOf u (hist ++ g) = streamOf u hist ++ streamOf u g := List.filter_append ..

/-- The messages of a turn are pieces of `o` that are marked as split. -/
structure Group (os : List Origin) (o : Origin) (g : List UserData) : Prop where
  known : o ∈ os
  pieces : ∀ x ∈ g, x ∈ o.pieces
  split : ∀ x ∈ g, isSplited x.dataId.split = true
  nonempty : g ≠ []

theorem streamOf_group {os : List Origin} {o : Origin} {g : List UserData} (hg : Group os o g)
    (hist : List UserData) :
    streamOf (sender o.packet) (hist ++ g) = streamOf (sender o.packet) hist ++ g := by
  rw [streamOf_append]
  congr 1
  refine List.filter_eq_self.2 fun x hx => ?_
  simp [hg.split x hx, ← sender_eq (samePacket_piece (hg.pieces x hx))]

theorem streamOf_other {os : List Origin} {o : Origin} {g : List UserData} (hg : Group os o g)
    {u : Uuid} (hu : u ≠ sender o.packet) (hist : List UserData) :
    streamOf u (hist ++ g) = streamOf u hist := by
  rw [streamOf_append]
  have hnil : streamOf u g = [] := by
    refine List.filter_eq_nil_iff.2 fun x hx => ?_
    simp [← sender_eq (samePacket_piece (hg.pieces x hx)), Ne.symm hu]
  rw [hnil, List.append_nil]

theorem streamOf_whole {g : List UserData} (hg : ∀ x ∈ g, isSplited x.dataId.split = false)
    (u : Uuid) (hist : List UserData) : streamOf u (hist ++ g) = streamOf u hist := by
  rw [streamOf_append]
  have hnil : streamOf u g = [] :=
    List.filter_eq_nil_iff.2 fun x hx => by simp [hg x hx]
  rw [hnil, List.append_nil]

/-- The packet does not arrive in one piece. -/
def IsSplit (o : Origin) : Prop := ∀ x ∈ o.pieces, isSplited x.dataId.split = true

def Reported (w : Watch) (o : Origin) : Prop :=
  ∃ i ∈ w.lost, i = { o.packet.dataId with split := i.split }

/-- All pieces of the packet came in order with no other piece of the sender in between. -/
def Came (hist : List UserData) (o : Origin) : Prop :=
  o.pieces <:+: streamOf (sender o.packet) hist

/-- The pieces of the packet came once each, in order, with no other piece in between. -/
def Intact (hist : List UserData) (o : Origin) : Prop :=
  ∃ l r, streamOf (sender o.packet) hist = l ++ o.pieces ++ r ∧
    (∀ x ∈ l, samePacket o.packet x = false) ∧ ∀ x ∈ r, samePacket o.packet x = false

/-- A piece of the packet came and then a piece of another packet of the sender. -/
def Followed (hist : List UserData) (o : Origin) : Prop :=
  ∃ l r, streamOf (sender o.packet) hist = l ++ r ∧
    (∃ m ∈ l, samePacket o.packet m = true) ∧ ∃ m ∈ r, samePacket o.packet m = false

theorem Came.mono {hist : List UserData} {o : Origin} (h : Came hist o) (g : List UserData) :
    Came (hist ++ g) o := by
  obtain ⟨a, b, hab⟩ := h
  refine ⟨a, b ++ streamOf (sender o.packet) g, ?_⟩
  rw [streamOf_append, ← hab]
  simp

/-- What holds of the watch after the messages `hist`. -/
structure Inv (os : List Origin) (hist : List UserData) (w : Watch) : Prop where
  open_ : ∀ u, w.cur u ≠ [] → ∃ o ∈ os, sender o.packet = u ∧ w.cur u <+: o.pieces ∧
    w.cur u ≠ o.pieces ∧ w.cur u <:+ streamOf u hist
  exact_ : ∀ d ∈ w.sent, ∃ o ∈ os, d = o.packet ∧
    (IsSplit o → Came hist o)
  seen : ∀ o ∈ os, (∃ m ∈ streamOf (sender o.packet) hist, samePacket o.packet m = true) →
    Reported w o ∨ Came hist o ∨ held w o.packet ≠ []
  followed : ∀ o ∈ os, Followed hist o → Reported w o ∨ Came hist o

theorem inv_start (os : List Origin) : Inv os [] start where
  open_ u h := absurd rfl h
  exact_ d h := by cases h
  seen o _ h := by obtain ⟨m, hm, -⟩ := h; cases hm
  followed o _ h := by
    obtain ⟨l, r, hlr, ⟨m, hm, -⟩, -⟩ := h
    obtain ⟨rfl, -⟩ := List.append_eq_nil_iff.1 hlr.symm
    cases hm

theorem held_of_cur {w : Watch} {m x : UserData} {xs : List UserData}
    (h : w.cur (sender m) = x :: xs) : held w m = if samePacket x m then x :: xs else [] := by
  rw [held, h]

theorem stale_of_cur {w : Watch} {m x : UserData} {xs : List UserData}
    (h : w.cur (sender m) = x :: xs) :
    stale w m = if samePacket x m then [] else [x.dataId] := by
  rw [stale, h]

theorem held_eq_cur {w : Watch} {m : UserData} (h : held w m ≠ []) :
    held w m = w.cur (sender m) := by
  cases hc : w.cur (sender m) with
  | nil => simp [held, hc] at h
  | cons x xs =>
    rw [held_of_cur hc] at h ⊢
    split_ifs at h ⊢ with hx
    · rfl
    · exact absurd rfl h

/-- What is held of a packet depends on the packet only. -/
theorem held_congr {w : Watch} {a b : UserData} (h : samePacket a b = true) :
    held w a = held w b := by
  unfold held
  rw [sender_eq h]
  cases w.cur (sender b) with
  | nil => rfl
  | cons x xs =>
    have hiff : samePacket x a = samePacket x b := by
      rw [Bool.eq_iff_iff]
      exact ⟨fun hx => samePacket_trans hx h,
        fun hx => samePacket_trans hx (by rw [samePacket_symm]; exact h)⟩
    simp only [hiff]

/-- The pieces held of a packet are a proper start of it, and the last that came. -/
theorem Inv.held_prefix {os : List Origin} {hist : List UserData} {w : Watch}
    (h : Inv os hist w) (hd : Distinct os) {o : Origin} (ho : o ∈ os)
    (hne : held w o.packet ≠ []) : held w o.packet <+: o.pieces ∧
      held w o.packet ≠ o.pieces ∧ held w o.packet <:+ streamOf (sender o.packet) hist := by
  have hcur := held_eq_cur hne
  obtain ⟨o', ho', hu, hpre, hproper, hsuf⟩ := h.open_ (sender o.packet) (hcur ▸ hne)
  rw [← hcur] at hpre hproper hsuf
  suffices o' = o by subst this; exact ⟨hpre, hproper, hsuf⟩
  cases hh : w.cur (sender o.packet) with
  | nil => rw [hcur, hh] at hne; exact absurd rfl hne
  | cons x xs =>
    have hx : samePacket x o.packet = true := by
      by_contra hx
      rw [held_of_cur hh, if_neg hx] at hne
      exact hne rfl
    have hmem : x ∈ o'.pieces := hpre.subset (by rw [hcur, hh]; exact List.mem_cons_self)
    exact origin_unique hd ho' ho (samePacket_trans (samePacket_piece hmem) hx)

theorem take_lost_mono (o : Origin) (w : Watch) (m : UserData) (ms : List UserData) :
    ∀ i ∈ w.lost, i ∈ (take o w m ms).lost := by
  intro i hi
  rcases take_cases o w m ms with ⟨⟨j, -, h⟩, -⟩ | ⟨-, h⟩ | ⟨-, -, h⟩ <;> simp [h, hi]

theorem take_stale (o : Origin) (w : Watch) (m : UserData) (ms : List UserData) :
    ∀ i ∈ stale w m, i ∈ (take o w m ms).lost := by
  intro i hi
  rcases take_cases o w m ms with ⟨⟨j, -, h⟩, -⟩ | ⟨-, h⟩ | ⟨-, -, h⟩ <;> simp [h, hi]

theorem take_cur_other (o : Origin) (w : Watch) (m : UserData) (ms : List UserData) {u : Uuid}
    (hu : u ≠ sender m) : (take o w m ms).cur u = w.cur u := by
  rcases take_cases o w m ms with ⟨⟨j, -, h⟩, -⟩ | ⟨-, h⟩ | ⟨-, -, h⟩ <;>
    simp [h, Function.update_of_ne hu]

/-- What is held of another packet of the sender is reported when a piece comes. -/
theorem reported_of_stale {os : List Origin} {hist : List UserData} {w : Watch}
    (h : Inv os hist w) (hd : Distinct os) {o o' : Origin} (ho : o ∈ os) {m : UserData}
    {ms : List UserData} (hu : sender o.packet = sender m)
    (hother : samePacket o.packet m = false) (hne : held w o.packet ≠ []) :
    Reported (take o' w m ms) o := by
  obtain ⟨hpre, -, -⟩ := h.held_prefix hd ho hne
  have hcur := held_eq_cur hne
  cases hh : w.cur (sender o.packet) with
  | nil => rw [hcur, hh] at hne; exact absurd rfl hne
  | cons x xs =>
    rw [hcur, hh] at hpre
    have hx : x ∈ o.pieces := hpre.subset List.mem_cons_self
    have hxm : samePacket x m = false := by
      by_contra hxm
      have hsame := samePacket_trans (samePacket_piece hx) (by simpa using hxm)
      rw [hsame] at hother
      cases hother
    refine ⟨x.dataId, take_stale o' w m ms _ ?_, o.ofPacket x hx⟩
    rw [hu] at hh
    simp [stale_of_cur hh, hxm]

theorem samePacket_group {os : List Origin} {o o' : Origin} {g : List UserData}
    (hg : Group os o' g) {m : UserData} (hm : m ∈ g) :
    samePacket o.packet m = samePacket o.packet o'.packet := by
  have hpiece := samePacket_piece (hg.pieces m hm)
  rw [Bool.eq_iff_iff]
  exact ⟨fun h => samePacket_trans h (by rw [samePacket_symm]; exact hpiece),
    fun h => samePacket_trans h hpiece⟩

theorem followed_snoc {os : List Origin} {hist : List UserData} {o o' : Origin}
    {g : List UserData} (hg : Group os o' g) (h : Followed (hist ++ g) o) :
    Followed hist o ∨ (sender o.packet = sender o'.packet ∧
      samePacket o.packet o'.packet = false ∧
      ∃ m ∈ streamOf (sender o.packet) hist, samePacket o.packet m = true) := by
  obtain ⟨l, r, hlr, ⟨m, hml, hm⟩, m', hmr, hm'⟩ := h
  by_cases hu : sender o.packet = sender o'.packet
  · have hstream := streamOf_group hg hist
    rw [← hu, hlr] at hstream
    rcases List.append_eq_append_iff.1 hstream.symm with ⟨t, hl, hgt⟩ | ⟨t, hs, hr⟩
    · -- the cut is inside the turn, whose pieces are of one packet
      have hother := hm'
      rw [samePacket_group hg (by rw [hgt]; exact List.mem_append_right _ hmr)] at hother
      rw [hl] at hml
      rcases List.mem_append.1 hml with hml | hml
      · exact .inr ⟨hu, hother, m, hml, hm⟩
      · rw [samePacket_group hg (by rw [hgt]; exact List.mem_append_left _ hml), hother] at hm
        cases hm
    · rw [hr] at hmr
      have hml' : m ∈ streamOf (sender o.packet) hist := by
        rw [hs]; exact List.mem_append_left _ hml
      rcases List.mem_append.1 hmr with hmr | hmr
      · exact .inl ⟨l, t, hs, ⟨m, hml, hm⟩, m', hmr, hm'⟩
      · rw [samePacket_group hg hmr] at hm'
        exact .inr ⟨hu, hm', m, hml', hm⟩
  · rw [streamOf_other hg hu hist] at hlr
    exact .inl ⟨l, r, hlr, ⟨m, hml, hm⟩, m', hmr, hm'⟩

theorem reported_mono {o o' : Origin} {w : Watch} {m : UserData} {ms : List UserData}
    (h : Reported w o) : Reported (take o' w m ms) o := by
  obtain ⟨i, hi, he⟩ := h
  exact ⟨i, take_lost_mono o' w m ms i hi, he⟩

/-- What is held of the packet of a turn, and the turn, are the last of what came. -/
theorem Inv.held_suffix {os : List Origin} {hist : List UserData} {w : Watch} {o : Origin}
    {m : UserData} {ms : List UserData} (h : Inv os hist w) (hd : Distinct os)
    (hg : Group os o (m :: ms)) :
    held w m ++ m :: ms <:+ streamOf (sender o.packet) (hist ++ m :: ms) := by
  rw [streamOf_group hg, ← held_congr (samePacket_piece (hg.pieces m List.mem_cons_self))]
  by_cases hnil : held w o.packet = []
  · rw [hnil, List.nil_append]
    exact List.suffix_append _ _
  · obtain ⟨-, -, t, ht⟩ := h.held_prefix hd hg.known hnil
    exact ⟨t, by rw [← ht]; simp⟩

/-- A turn of the packet itself leaves it reported, complete or open. -/
theorem take_own {os : List Origin} {hist : List UserData} {w : Watch} {o : Origin} {m : UserData}
    {ms : List UserData} (h : Inv os hist w) (hd : Distinct os) (hg : Group os o (m :: ms)) :
    Reported (take o w m ms) o ∨ Came (hist ++ m :: ms) o ∨ held (take o w m ms) o.packet ≠ [] := by
  have hm := hg.pieces m List.mem_cons_self
  have hheld := held_congr (w := w) (samePacket_piece hm)
  rcases take_cases o w m ms with ⟨⟨i, hi, ht⟩, -⟩ | ⟨hall, ht⟩ | ⟨hpre, -, ht⟩
  · refine .inl ⟨i, by simp [ht], ?_⟩
    rcases hi with rfl | ⟨x, hx, rfl⟩
    · exact o.ofPacket m hm
    · have hne : held w o.packet ≠ [] := by rw [hheld]; exact List.ne_nil_of_mem hx
      exact o.ofPacket x ((h.held_prefix hd hg.known hne).1.subset (hheld ▸ hx))
  · refine .inr (.inl ?_)
    rw [Came, ← hall]
    exact (h.held_suffix hd hg).isInfix
  · refine .inr (.inr ?_)
    have hcur : (take o w m ms).cur (sender o.packet) = held w m ++ m :: ms := by
      rw [ht, sender_eq (samePacket_piece hm)]
      simp
    cases hx : held w m ++ m :: ms with
    | nil => simp at hx
    | cons x xs =>
      rw [hx] at hcur hpre
      have hxo : samePacket x o.packet = true := by
        rw [samePacket_symm]
        exact samePacket_piece (hpre.subset List.mem_cons_self)
      rw [held_of_cur hcur, if_pos hxo]
      simp

theorem Inv.open_take {os : List Origin} {hist : List UserData} {w : Watch} {o : Origin}
    {m : UserData} {ms : List UserData} (h : Inv os hist w) (hd : Distinct os)
    (hg : Group os o (m :: ms)) (u : Uuid) (hne : (take o w m ms).cur u ≠ []) :
    ∃ o' ∈ os, sender o'.packet = u ∧ (take o w m ms).cur u <+: o'.pieces ∧
      (take o w m ms).cur u ≠ o'.pieces ∧
      (take o w m ms).cur u <:+ streamOf u (hist ++ m :: ms) := by
  have hsnd := sender_eq (samePacket_piece (hg.pieces m List.mem_cons_self))
  by_cases hu : u = sender o.packet
  · subst hu
    refine ⟨o, hg.known, rfl, ?_⟩
    rcases take_cases o w m ms with ⟨⟨i, -, ht⟩, -⟩ | ⟨-, ht⟩ | ⟨hpre, hproper, ht⟩
    · simp [ht, hsnd] at hne
    · simp [ht, hsnd] at hne
    · have hcur : (take o w m ms).cur (sender o.packet) = held w m ++ m :: ms := by
        simp [ht, hsnd]
      rw [hcur]
      exact ⟨hpre, hproper, h.held_suffix hd hg⟩
  · rw [take_cur_other o w m ms (fun he => hu (he.trans hsnd.symm))] at hne ⊢
    rw [streamOf_other hg hu]
    exact h.open_ u hne

theorem Inv.exact_take {os : List Origin} {hist : List UserData} {w : Watch} {o : Origin}
    {m : UserData} {ms : List UserData} (h : Inv os hist w) (hd : Distinct os)
    (hg : Group os o (m :: ms)) {d : UserData} (hsent : d ∈ (take o w m ms).sent) :
    ∃ o ∈ os, d = o.packet ∧
      (IsSplit o → Came (hist ++ m :: ms) o) := by
  have hold : d ∈ w.sent → ∃ o ∈ os, d = o.packet ∧
      (IsSplit o → Came (hist ++ m :: ms) o) := by
    intro hsent
    obtain ⟨o', ho', rfl, hcame⟩ := h.exact_ d hsent
    exact ⟨o', ho', rfl, fun hs => (hcame hs).mono _⟩
  rcases take_cases o w m ms with ⟨⟨i, -, ht⟩, -⟩ | ⟨hall, ht⟩ | ⟨-, -, ht⟩
  · exact hold (by simpa [ht] using hsent)
  · rw [ht] at hsent
    rcases List.mem_append.1 hsent with hsent | hsent
    · exact hold hsent
    · refine ⟨o, hg.known, List.mem_singleton.1 hsent, fun _ => ?_⟩
      rw [Came, ← hall]
      exact (h.held_suffix hd hg).isInfix
  · exact hold (by simpa [ht] using hsent)

/-- A packet seen before a turn of another packet of its sender is settled by it. -/
theorem Inv.settled_take {os : List Origin} {hist : List UserData} {w : Watch} {o o' : Origin}
    {m : UserData} {ms : List UserData} (h : Inv os hist w) (hd : Distinct os)
    (hg : Group os o (m :: ms)) (ho' : o' ∈ os) (hu : sender o'.packet = sender o.packet)
    (hother : samePacket o'.packet o.packet = false)
    (hseen : ∃ m ∈ streamOf (sender o'.packet) hist, samePacket o'.packet m = true) :
    Reported (take o w m ms) o' ∨ Came (hist ++ m :: ms) o' := by
  rcases h.seen o' ho' hseen with hr | hc | hh
  · exact .inl (reported_mono hr)
  · exact .inr (hc.mono _)
  · refine .inl (reported_of_stale h hd ho' ?_ ?_ hh)
    · exact hu.trans (sender_eq (samePacket_piece (hg.pieces m List.mem_cons_self)))
    · rw [samePacket_group hg List.mem_cons_self]
      exact hother

/-- One turn keeps the invariant. -/
theorem inv_take {os : List Origin} {hist : List UserData} {w : Watch} {o : Origin} {m : UserData}
    {ms : List UserData} (h : Inv os hist w) (hd : Distinct os) (hg : Group os o (m :: ms)) :
    Inv os (hist ++ m :: ms) (take o w m ms) := by
  refine ⟨h.open_take hd hg, fun d hsent => h.exact_take hd hg hsent, fun o' ho' hseen => ?_,
    fun o' ho' hfol => ?_⟩
  · by_cases hsame : samePacket o'.packet o.packet = true
    · rw [origin_unique hd ho' hg.known hsame]
      exact take_own h hd hg
    · have hother : samePacket o'.packet o.packet = false := by simpa using hsame
      obtain ⟨m', hm', hmo⟩ := hseen
      by_cases hu : sender o'.packet = sender o.packet
      · rw [hu, streamOf_group hg, ← hu] at hm'
        rcases List.mem_append.1 hm' with hm' | hm'
        · rcases h.settled_take hd hg ho' hu hother ⟨m', hm', hmo⟩ with hr | hc
          · exact .inl hr
          · exact .inr (.inl hc)
        · rw [samePacket_group hg hm', hother] at hmo
          cases hmo
      · rw [streamOf_other hg hu] at hm'
        rcases h.seen o' ho' ⟨m', hm', hmo⟩ with hr | hc | hh
        · exact .inl (reported_mono hr)
        · exact .inr (.inl (hc.mono _))
        · refine .inr (.inr ?_)
          have hsnd := sender_eq (samePacket_piece (hg.pieces m List.mem_cons_self))
          rw [held, take_cur_other o w m ms fun he => hu (he.trans hsnd.symm)]
          exact hh
  · rcases followed_snoc hg hfol with hfol | ⟨hu, hother, hseen⟩
    · rcases h.followed o' ho' hfol with hr | hc
      · exact .inl (reported_mono hr)
      · exact .inr (hc.mono _)
    · exact h.settled_take hd hg ho' hu hother hseen

structure Tracked (hist : List UserData) (w : Watch) (o : Origin) : Prop where
  before : (∀ x ∈ streamOf (sender o.packet) hist, samePacket o.packet x = false) →
    w.sent.count o.packet = 0 ∧ held w o.packet = []
  within : ∀ l r, streamOf (sender o.packet) hist = l ++ r →
    (∀ x ∈ l, samePacket o.packet x = false) → r <+: o.pieces → r ≠ [] → r ≠ o.pieces →
    w.sent.count o.packet = 0 ∧ held w o.packet = r
  after : Intact hist o → w.sent.count o.packet = 1

theorem pieces_ne_nil (o : Origin) : o.pieces ≠ [] := fun hnil => by
  have hb := o.bytes_pieces
  rw [hnil] at hb
  exact o.data hb.symm

theorem exists_common_last {α : Type} {a b c d : List α} (h : a ++ b = c ++ d) (hb : b ≠ [])
    (hd : d ≠ []) : ∃ x, x ∈ b ∧ x ∈ d := by
  have hlast := congrArg List.getLast? h
  rw [List.getLast?_append_of_ne_nil _ hb, List.getLast?_append_of_ne_nil _ hd,
    List.getLast?_eq_some_getLast hb, List.getLast?_eq_some_getLast hd] at hlast
  exact ⟨b.getLast hb, List.getLast_mem hb, Option.some.inj hlast ▸ List.getLast_mem hd⟩

theorem tracked_start (o : Origin) : Tracked [] start o where
  before _ := ⟨rfl, rfl⟩
  within l r h _ _ hne := absurd (List.append_eq_nil_iff.1 h.symm).2 hne
  after h := by
    obtain ⟨l, r, hlr, -⟩ := h
    simp only [streamOf, List.filter_nil, List.nil_eq, List.append_eq_nil_iff] at hlr
    exact absurd hlr.1.2 (pieces_ne_nil o)

theorem packet_ne {os : List Origin} (hd : Distinct os) {o o' : Origin} (ho : o ∈ os)
    (ho' : o' ∈ os) (hne : o' ≠ o) : o'.packet ≠ o.packet := fun h =>
  hne (origin_unique hd ho' ho (by rw [h]; exact samePacket_self _))

theorem take_count_other {os : List Origin} (hd : Distinct os) {o o' : Origin} (ho : o ∈ os)
    (ho' : o' ∈ os) (hne : o' ≠ o) (w : Watch) (m : UserData) (ms : List UserData) :
    (take o' w m ms).sent.count o.packet = w.sent.count o.packet := by
  rcases take_cases o' w m ms with ⟨⟨i, -, ht⟩, -⟩ | ⟨-, ht⟩ | ⟨-, -, ht⟩
  · rw [ht]
  · rw [ht, List.count_append, List.count_singleton, if_neg, Nat.add_zero]
    simpa using packet_ne hd ho ho' hne
  · rw [ht]

/-- A turn of another packet of the sender leaves nothing held of this one. -/
theorem held_take_other {os : List Origin} {o o' : Origin} {w : Watch} {m : UserData}
    {ms : List UserData} (hg : Group os o' (m :: ms))
    (hother : samePacket o.packet o'.packet = false) (hnil : held w o.packet = []) :
    held (take o' w m ms) o.packet = [] := by
  have hsnd := sender_eq (samePacket_piece (hg.pieces m List.mem_cons_self))
  by_cases hu : sender o.packet = sender m
  · rcases take_cases o' w m ms with ⟨⟨i, -, ht⟩, -⟩ | ⟨-, ht⟩ | ⟨hpre, -, ht⟩
    · rw [held, ht]; simp [hu]
    · rw [held, ht]; simp [hu]
    · have hcur : (take o' w m ms).cur (sender o.packet) = held w m ++ m :: ms := by
        rw [ht, hu]; simp
      cases hx : held w m ++ m :: ms with
      | nil => simp at hx
      | cons x xs =>
        rw [hx] at hcur hpre
        have hxo : samePacket x o.packet = false := by
          by_contra hxo
          have hsame := samePacket_trans (samePacket_piece (hpre.subset List.mem_cons_self))
            (by simpa using hxo)
          rw [samePacket_symm] at hsame
          rw [hsame] at hother
          cases hother
        rw [held_of_cur hcur, hxo]
        rfl
  · rw [held, take_cur_other o' w m ms hu]
    exact hnil

/-- The next pieces of a packet, in order, are taken. -/
theorem take_next {o : Origin} {w : Watch} {m : UserData} {ms : List UserData}
    (h : held w m ++ m :: ms <+: o.pieces) :
    (held w m ++ m :: ms = o.pieces → (take o w m ms).sent = w.sent ++ [o.packet]) ∧
    (held w m ++ m :: ms ≠ o.pieces → (take o w m ms).sent = w.sent ∧
      (take o w m ms).cur (sender m) = held w m ++ m :: ms) := by
  have hstarts : ¬ (held w m = [] ∧ m.dataId.split.counter ≠ 1) := by
    rintro ⟨hnil, hone⟩
    obtain ⟨t, ht⟩ := h
    refine hone (counter_of_continues_nil (o := o) ⟨ms ++ t, ?_⟩)
    rw [← ht, hnil]
    simp
  unfold take
  dsimp only
  rw [if_neg hstarts]
  constructor
  · intro hall
    rw [if_pos hall]
  · intro hne
    rw [if_neg hne, if_pos h]
    simp

theorem tracked_take_own {os : List Origin} {hist : List UserData} {w : Watch} {o : Origin}
    {m : UserData} {ms : List UserData} (h : Tracked hist w o) (hg : Group os o (m :: ms)) :
    Tracked (hist ++ m :: ms) (take o w m ms) o := by
  have hm := hg.pieces m List.mem_cons_self
  have hheld := held_congr (w := w) (samePacket_piece hm)
  have hmine : ∀ x ∈ m :: ms, samePacket o.packet x = true := fun x hx =>
    samePacket_piece (hg.pieces x hx)
  -- what is in order up to the end of this turn was in order before it
  have key : ∀ l r, streamOf (sender o.packet) (hist ++ m :: ms) = l ++ r →
      (∀ x ∈ l, samePacket o.packet x = false) → r <+: o.pieces → r ≠ [] →
      w.sent.count o.packet = 0 ∧ held w m ++ m :: ms = r := by
    intro l r hlr hl hr hne
    rw [streamOf_group hg] at hlr
    rcases List.append_eq_append_iff.1 hlr with ⟨t, ht, hmt⟩ | ⟨t, ht, hrt⟩
    · obtain rfl : t = [] := by
        refine List.eq_nil_iff_forall_not_mem.2 fun x hx => ?_
        have h1 := hmine x (by rw [hmt]; exact List.mem_append_left _ hx)
        rw [hl x (by rw [ht]; exact List.mem_append_right _ hx)] at h1
        cases h1
      rw [List.append_nil] at ht
      obtain ⟨hcount, hnil⟩ := h.before (ht ▸ hl)
      rw [hheld] at hnil
      exact ⟨hcount, by rw [hnil, List.nil_append, hmt, List.nil_append]⟩
    · cases t with
      | nil =>
        rw [List.append_nil] at ht
        obtain ⟨hcount, hnil⟩ := h.before (ht ▸ hl)
        rw [hheld] at hnil
        exact ⟨hcount, by rw [hnil, hrt]⟩
      | cons y t =>
        have hpre : y :: t <+: o.pieces := by
          rw [hrt] at hr
          exact (List.prefix_append _ _).trans hr
        have hproper : y :: t ≠ o.pieces := by
          intro heq
          have hlen := hr.length_le
          rw [hrt, heq] at hlen
          simp at hlen
        obtain ⟨hcount, hp⟩ := h.within l (y :: t) ht hl hpre (by simp) hproper
        rw [hheld] at hp
        exact ⟨hcount, by rw [hp, hrt]⟩
  refine ⟨fun hnone => ?_, fun l r hlr hl hr hne hproper => ?_, fun hint => ?_⟩
  · have hmem : m ∈ streamOf (sender o.packet) (hist ++ m :: ms) := by
      rw [streamOf_group hg]; simp
    have hfalse := hnone m hmem
    rw [hmine m List.mem_cons_self] at hfalse
    cases hfalse
  · obtain ⟨hcount, hp⟩ := key l r hlr hl hr hne
    obtain ⟨hsent, hcur⟩ := (take_next (hp.symm ▸ hr)).2 (hp.symm ▸ hproper)
    rw [hp, ← sender_eq (samePacket_piece hm)] at hcur
    refine ⟨by rw [hsent, hcount], ?_⟩
    cases r with
    | nil => exact absurd rfl hne
    | cons x xs =>
      have hxo : samePacket x o.packet = true := by
        rw [samePacket_symm]
        exact samePacket_piece (hr.subset List.mem_cons_self)
      rw [held_of_cur hcur, if_pos hxo]
  · obtain ⟨l, r, hlr, hl, hr⟩ := hint
    -- nothing comes after the pieces, for the turn is of the packet itself
    obtain rfl : r = [] := by
      rw [streamOf_group hg] at hlr
      by_contra hne
      obtain ⟨a, hag, har⟩ := exists_common_last hlr (by simp : m :: ms ≠ []) hne
      have h1 := hmine a hag
      rw [hr a har] at h1
      cases h1
    rw [List.append_nil] at hlr
    obtain ⟨hcount, hp⟩ := key l o.pieces hlr hl (List.prefix_refl _) (pieces_ne_nil o)
    rw [(take_next (hp ▸ List.prefix_refl _)).1 hp, List.count_append, hcount]
    simp

theorem tracked_take_other {os : List Origin} (hd : Distinct os) {hist : List UserData}
    {w : Watch} {o o' : Origin} {m : UserData} {ms : List UserData} (h : Tracked hist w o)
    (ho : o ∈ os) (hg : Group os o' (m :: ms)) (hne : o' ≠ o) :
    Tracked (hist ++ m :: ms) (take o' w m ms) o := by
  have hcount := take_count_other hd ho hg.known hne w m ms
  have hother : samePacket o.packet o'.packet = false := by
    by_contra hsame
    exact hne (origin_unique hd ho hg.known (by simpa using hsame)).symm
  have hnot : ∀ x ∈ m :: ms, samePacket o.packet x = false := fun x hx => by
    rw [samePacket_group hg hx, hother]
  by_cases hu : sender o.packet = sender o'.packet
  · have hstream : streamOf (sender o.packet) (hist ++ m :: ms) =
        streamOf (sender o.packet) hist ++ m :: ms := hu ▸ streamOf_group hg hist
    refine ⟨fun hnone => ?_, fun l r hlr hl hr hrne hproper => ?_, fun hint => ?_⟩
    · rw [hstream] at hnone
      obtain ⟨h0, hnil⟩ := h.before fun x hx => hnone x (List.mem_append_left _ hx)
      exact ⟨hcount.trans h0, held_take_other hg hother hnil⟩
    · -- the stream cannot end with a piece of `o`
      exfalso
      obtain ⟨a, har, hag⟩ := exists_common_last (hlr.symm.trans hstream) hrne (by simp)
      have h1 := hnot a hag
      rw [samePacket_piece (hr.subset har)] at h1
      cases h1
    · obtain ⟨l, r, hlr, hl, hr⟩ := hint
      rw [hcount]
      rcases List.append_eq_append_iff.1 (hstream.symm.trans hlr) with ⟨t, ht, hmt⟩ | ⟨t, ht, hrt⟩
      · obtain rfl : t = [] := by
          by_contra htne
          obtain ⟨a, hap, hat⟩ := exists_common_last ht (pieces_ne_nil o) htne
          have h1 := hnot a (by rw [hmt]; exact List.mem_append_left _ hat)
          rw [samePacket_piece hap] at h1
          cases h1
        rw [List.append_nil] at ht
        exact h.after ⟨l, [], by rw [List.append_nil]; exact ht.symm, hl, by simp⟩
      · exact h.after
          ⟨l, t, ht, hl, fun x hx => hr x (by rw [hrt]; exact List.mem_append_left _ hx)⟩
  · have hstream := streamOf_other hg hu hist
    refine ⟨fun hnone => ?_, fun l r hlr hl hr hrne hproper => ?_, fun hint => ?_⟩
    · rw [hstream] at hnone
      obtain ⟨h0, hnil⟩ := h.before hnone
      exact ⟨hcount.trans h0, held_take_other hg hother hnil⟩
    · rw [hstream] at hlr
      obtain ⟨h0, hheld⟩ := h.within l r hlr hl hr hrne hproper
      refine ⟨hcount.trans h0, ?_⟩
      have hsnd := sender_eq (samePacket_piece (hg.pieces m List.mem_cons_self))
      rw [held, take_cur_other o' w m ms fun he => hu (he.trans hsnd.symm)]
      exact hheld
    · rw [hcount]
      refine h.after ?_
      rw [Intact, hstream] at hint
      exact hint

structure WholeGroup (os : List Origin) (g : List UserData) : Prop where
  known : ∀ x ∈ g, ∃ o ∈ os, x ∈ o.pieces
  whole : ∀ x ∈ g, isSplited x.dataId.split = false

theorem inv_whole {os : List Origin} {hist g : List UserData} {w : Watch} (h : Inv os hist w)
    (hg : WholeGroup os g) : Inv os (hist ++ g) { w with sent := w.sent ++ g } := by
  have hstream := fun u => streamOf_whole hg.whole u hist
  refine ⟨fun u hne => ?_, fun d hd => ?_, fun o ho hseen => ?_, fun o ho hfol => ?_⟩
  · rw [hstream]
    exact h.open_ u hne
  · rcases List.mem_append.1 hd with hd | hd
    · obtain ⟨o, ho, rfl, hcame⟩ := h.exact_ d hd
      exact ⟨o, ho, rfl, fun hs => (hcame hs).mono _⟩
    · obtain ⟨o, ho, hdo⟩ := hg.known d hd
      refine ⟨o, ho, (whole_piece hdo (hg.whole d hd)).1, fun hs => ?_⟩
      have hw := hg.whole d hd
      rw [hs d hdo] at hw
      cases hw
  · rw [hstream] at hseen
    rcases h.seen o ho hseen with hr | hc | hh
    · exact .inl hr
    · exact .inr (.inl (hc.mono _))
    · exact .inr (.inr hh)
  · rw [Followed, hstream] at hfol
    rcases h.followed o ho hfol with hr | hc
    · exact .inl hr
    · exact .inr (hc.mono _)

theorem tracked_whole {os : List Origin} (hd : Distinct os) {hist g : List UserData} {w : Watch}
    {o : Origin} (h : Tracked hist w o) (ho : o ∈ os) (hs : IsSplit o) (hg : WholeGroup os g) :
    Tracked (hist ++ g) { w with sent := w.sent ++ g } o := by
  have hstream := streamOf_whole hg.whole (sender o.packet) hist
  have hcount : (w.sent ++ g).count o.packet = w.sent.count o.packet := by
    rw [List.count_append, Nat.add_eq_left, List.count_eq_zero]
    intro hmem
    obtain ⟨o', ho', hmo⟩ := hg.known _ hmem
    have hsame := samePacket_piece hmo
    obtain rfl := origin_unique hd ho' ho hsame
    have hw := hg.whole _ hmem
    rw [hs _ hmo] at hw
    cases hw
  refine ⟨fun hnone => ?_, fun l r hlr hl hr hne hproper => ?_, fun hint => ?_⟩
  · rw [hstream] at hnone
    obtain ⟨h0, hh⟩ := h.before hnone
    exact ⟨hcount.trans h0, hh⟩
  · rw [hstream] at hlr
    obtain ⟨h0, hh⟩ := h.within l r hlr hl hr hne hproper
    exact ⟨hcount.trans h0, hh⟩
  · rw [Intact, hstream] at hint
    exact hcount.trans (h.after hint)

end UdtKernel.Stream
