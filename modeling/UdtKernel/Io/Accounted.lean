import UdtKernel.Io.Buffering
import Mathlib.Data.Fintype.BigOperators
import Mathlib.Algebra.Order.BigOperators.Group.Finset

set_option autoImplicit false

/-! The sizes that are counted are those of the buffered packets. -/

namespace UdtKernel
open UdtKernel.Lib UdtKernel.Packet

namespace Buffering

/-- The longest prefix of a list that fits where some bytes are used already. -/
def fitting (max : ℕ) : ℕ → List Packet → List Packet
  | _, [] => []
  | used, p :: l => if max < used + p.size then [] else p :: fitting max (used + p.size) l

theorem fitting_eq_take (max used : ℕ) (l : List Packet) :
    fitting max used l = l.take (fitting max used l).length := by
  induction l generalizing used with
  | nil => rfl
  | cons p l ih =>
    rw [fitting]
    split_ifs
    · rfl
    · rw [List.length_cons, List.take_succ_cons, ← ih]

theorem length_fitting_le (max used : ℕ) (l : List Packet) :
    (fitting max used l).length ≤ l.length := by
  rw [fitting_eq_take, List.length_take]
  exact Nat.min_le_right _ _

theorem bytes_take_le_iff {max used : ℕ} (h : used ≤ max) (l : List Packet) {j : ℕ}
    (hj : j ≤ l.length) : used + bytes (l.take j) ≤ max ↔ j ≤ (fitting max used l).length := by
  induction l generalizing used j with
  | nil =>
    obtain rfl : j = 0 := Nat.le_zero.1 hj
    simpa using h
  | cons p l ih =>
    cases j with
    | zero => simpa using h
    | succ j =>
      rw [List.take_succ_cons, bytes_cons, fitting]
      split_ifs with hp
      · rw [List.length_nil]
        omega
      · rw [List.length_cons, Nat.add_le_add_iff_right, ← ih (Nat.le_of_not_lt hp)
          (Nat.le_of_succ_le_succ hj), Nat.add_assoc]

theorem bytes_fitting_le {max used : ℕ} (h : used ≤ max) (l : List Packet) :
    used + bytes (fitting max used l) ≤ max := by
  rw [fitting_eq_take]
  exact (bytes_take_le_iff h l (length_fitting_le max used l)).2 (Nat.le_refl _)

structure SameFrame (b b' : Buffering) : Prop where
  maxBuffer : b'.maxBufferSizeForChannel = b.maxBufferSizeForChannel
  maxSm : b'.maxSmBufferSize = b.maxSmBufferSize
  handling : b'.handlingBuffer = b.handlingBuffer
  thread : b'.doingThread = b.doingThread

theorem SameFrame.trans {b b' b'' : Buffering} (h : SameFrame b b') (h' : SameFrame b' b'') :
    SameFrame b b'' :=
  ⟨h'.maxBuffer.trans h.maxBuffer, h'.maxSm.trans h.maxSm, h'.handling.trans h.handling,
    h'.thread.trans h.thread⟩

theorem SameFrame.limitsSm {b b' : Buffering} (h : SameFrame b b') : b'.limitsSm = b.limitsSm := by
  unfold Buffering.limitsSm
  rw [h.maxBuffer, h.maxSm]

/-- What `MPut` makes of a buffer when it takes the packets `taken`. -/
structure Took (currentSm : ℕ) (b : Buffering) (taken : List Packet) (r : ℕ × Buffering) :
    Prop where
  frame : SameFrame b r.2
  buffer : r.2.buffer = b.buffer + bytes taken
  current : r.1 + b.smBuffer = currentSm + r.2.smBuffer
  data : ∃ stored, r.2.data = b.data ++ stored ∧
    stored.map Packet.data = taken.map Packet.data ∧
    (b.limitsSm = true → r.2.smBuffer = b.smBuffer + smBytes stored) ∧
    (b.limitsSm = false → stored = taken ∧ r.2.smBuffer = b.smBuffer)

theorem Took.trans {c : ℕ} {b : Buffering} {taken taken' : List Packet} {r r' : ℕ × Buffering}
    (h : Took c b taken r) (h' : Took r.1 r.2 taken' r') : Took c b (taken ++ taken') r' := by
  obtain ⟨stored, hdata, hsame, hlimited, hfree⟩ := h.data
  obtain ⟨stored', hdata', hsame', hlimited', hfree'⟩ := h'.data
  refine ⟨h.frame.trans h'.frame, ?_, ?_, stored ++ stored', ?_, ?_, fun hl => ?_, fun hl => ?_⟩
  · rw [h'.buffer, h.buffer, bytes_append, Nat.add_assoc]
  · have hfirst := h.current
    have hsecond := h'.current
    omega
  · rw [hdata', hdata, List.append_assoc]
  · rw [List.map_append, List.map_append, hsame, hsame']
  · rw [hlimited' (h.frame.limitsSm.trans hl), hlimited hl, smBytes_append, Nat.add_assoc]
  · obtain ⟨rfl, hsm⟩ := hfree hl
    obtain ⟨rfl, hsm'⟩ := hfree' (h.frame.limitsSm.trans hl)
    exact ⟨rfl, hsm'.trans hsm⟩

theorem took_accept (c : ℕ) {b : Buffering} (hb : b.maxBufferSizeForChannel ≠ 0) (p : Packet) :
    Took c b [p] (b.accept c p) := by
  unfold accept
  rw [if_pos hb]
  dsimp only
  have hlimits : ({ b with buffer := b.buffer + p.size } : Buffering).limitsSm = b.limitsSm := rfl
  rw [hlimits]
  cases hl : b.limitsSm with
  | false =>
    rw [Bool.false_and, if_neg Bool.false_ne_true]
    exact ⟨⟨rfl, rfl, rfl, rfl⟩, rfl, rfl, [p], rfl, rfl,
      fun h => absurd (hl.symm.trans h) Bool.false_ne_true, fun _ => ⟨rfl, rfl⟩⟩
  | true =>
    rw [Bool.true_and]
    cases hp : p.inSm with
    | false =>
      rw [if_neg Bool.false_ne_true]
      refine ⟨⟨rfl, rfl, rfl, rfl⟩, rfl, rfl, [p], rfl, rfl, fun _ => ?_,
        fun h => absurd (h.symm.trans hl) Bool.false_ne_true⟩
      rw [smBytes_cons, hp]
      rfl
    | true =>
      rw [if_pos rfl]
      split_ifs
      · refine ⟨⟨rfl, rfl, rfl, rfl⟩, rfl, ?_, [p], rfl, rfl, fun _ => ?_,
          fun h => absurd (h.symm.trans hl) Bool.false_ne_true⟩
        · change c + p.size + b.smBuffer = c + (b.smBuffer + p.size)
          omega
        · rw [smBytes_cons, hp]
          rfl
      · exact ⟨⟨rfl, rfl, rfl, rfl⟩, rfl, rfl, [p.deepCopy], rfl, rfl, fun _ => rfl,
          fun h => absurd (h.symm.trans hl) Bool.false_ne_true⟩

theorem took_nil (c : ℕ) (b : Buffering) : Took c b [] (c, b) :=
  ⟨⟨rfl, rfl, rfl, rfl⟩, rfl, rfl, [], (List.append_nil _).symm, rfl, fun _ => rfl,
    fun _ => ⟨rfl, rfl⟩⟩

/-- `MPut` takes the longest prefix that fits and leaves the rest. -/
theorem put_spec (c : ℕ) {b : Buffering} (hb : 0 < b.maxBufferSizeForChannel) (l : List Packet) :
    Took c b (fitting b.maxBufferSizeForChannel b.buffer l) (b.put c l).1 ∧
      (b.put c l).2 = l.drop (fitting b.maxBufferSizeForChannel b.buffer l).length := by
  unfold put
  rw [if_pos (.inl hb)]
  induction l generalizing c b with
  | nil => exact ⟨took_nil c b, rfl⟩
  | cons p l ih =>
    have hne : b.maxBufferSizeForChannel ≠ 0 := Nat.ne_of_gt hb
    rw [putAll, fitting]
    by_cases hp : b.maxBufferSizeForChannel < b.buffer + p.size
    · rw [if_pos hp, if_pos ⟨hne, hp⟩]
      exact ⟨took_nil c b, rfl⟩
    · rw [if_neg hp, if_neg fun h => hp h.2]
      have hfirst := took_accept c hne p
      obtain ⟨htook, hrest⟩ := ih (b.accept c p).1 (b := (b.accept c p).2)
        (by rwa [hfirst.frame.maxBuffer])
      rw [hfirst.frame.maxBuffer, hfirst.buffer, bytes_cons, bytes_nil, Nat.add_zero] at htook hrest
      exact ⟨hfirst.trans htook, hrest⟩

/-- The sizes are those of the packets in the buffer and of those that are being sent. -/
structure Counted (b : Buffering) (sending : List Packet) : Prop where
  buffer : b.buffer = bytes b.data + bytes sending
  bound : b.buffer ≤ b.maxBufferSizeForChannel
  smBuffer : b.smBuffer = smBytes b.data

/-- What `MTry` and `MFinish` know of the packets that are being sent. -/
structure Tied (b : Buffering) (sending : List Packet) : Prop where
  limited : 0 < b.maxBufferSizeForChannel
  handling : b.handlingBuffer = bytes sending
  idle : b.doingThread = 0 → sending = []

theorem bytes_eq_of_map_data_eq {l l' : List Packet} (h : l.map Packet.data = l'.map Packet.data) :
    bytes l = bytes l' := by
  have hsize : ∀ l : List Packet,
      bytes l = ((l.map Packet.data).map fun d => d.data.length).sum := by
    intro l
    rw [List.map_map]
    rfl
  rw [hsize, hsize, h]

theorem counted_put (c : ℕ) {b : Buffering} {sending : List Packet} (ht : Tied b sending)
    (hb : Counted b sending) (l : List Packet) : Counted (b.put c l).1.2 sending ↔
      b.limitsSm = true ∨ smBytes (fitting b.maxBufferSizeForChannel b.buffer l) = 0 := by
  obtain ⟨htook, -⟩ := put_spec c ht.limited l
  obtain ⟨stored, hdata, hsame, hlimited, hfree⟩ := htook.data
  have hbuffer : (b.put c l).1.2.buffer = bytes (b.put c l).1.2.data + bytes sending := by
    rw [htook.buffer, hdata, bytes_append, bytes_eq_of_map_data_eq hsame]
    have hb := hb.buffer
    omega
  have hbound : (b.put c l).1.2.buffer ≤ (b.put c l).1.2.maxBufferSizeForChannel := by
    rw [htook.buffer, htook.frame.maxBuffer]
    exact bytes_fitting_le hb.bound l
  have hsm : (b.put c l).1.2.smBuffer = smBytes (b.put c l).1.2.data ↔
      b.limitsSm = true ∨ smBytes (fitting b.maxBufferSizeForChannel b.buffer l) = 0 := by
    rw [hdata, smBytes_append, ← hb.smBuffer]
    cases hl : b.limitsSm with
    | true => simp [hlimited hl]
    | false =>
      obtain ⟨rfl, hsm⟩ := hfree hl
      rw [hsm]
      simp
  exact ⟨fun h => hsm.1 h.smBuffer, fun h => ⟨hbuffer, hbound, hsm.2 h⟩⟩

theorem counted_finish {b b' : Buffering} {sending fails : List Packet} {thread : ℕ}
    {aTryAgain : Bool} (ht : Tied b sending) (hb : Counted b sending)
    (hfails : fails.Subperm sending) (h : b.finish thread fails aTryAgain = .ok b') :
    Counted b' [] ↔ fails = [] ∨ bytes sending = 0 := by
  unfold finish at h
  split_ifs at h
  cases h
  have hle := bytes_le_of_subperm hfails
  have hbuffer := hb.buffer
  have hbound := hb.bound
  cases fails with
  | nil =>
    refine ⟨fun _ => .inl rfl, fun _ => ⟨?_, ?_, hb.smBuffer⟩⟩
    · change b.buffer - b.handlingBuffer = bytes b.data + 0
      rw [ht.handling]
      omega
    · exact (Nat.sub_le _ _).trans hbound
  | cons p fails =>
    rw [or_iff_right (List.cons_ne_nil p fails)]
    constructor
    · intro hcounted
      have hsum : b.buffer + bytes (p :: fails) =
          bytes (if aTryAgain then p :: fails ++ b.data else b.data) + 0 := hcounted.buffer
      cases aTryAgain with
      | false =>
        rw [if_neg Bool.false_ne_true] at hsum
        omega
      | true =>
        rw [if_pos rfl, bytes_append] at hsum
        omega
    · intro hzero
      have hnone : bytes (p :: fails) = 0 := by omega
      have hsm : smBytes (p :: fails) = 0 := by
        have := smBytes_le (p :: fails)
        omega
      refine ⟨?_, ?_, ?_⟩
      · change b.buffer + bytes (p :: fails) =
          bytes (if aTryAgain then p :: fails ++ b.data else b.data) + 0
        cases aTryAgain with
        | false =>
          rw [if_neg Bool.false_ne_true]
          omega
        | true =>
          rw [if_pos rfl, bytes_append]
          omega
      · change b.buffer + bytes (p :: fails) ≤ b.maxBufferSizeForChannel
        omega
      · change b.smBuffer = smBytes (if aTryAgain then p :: fails ++ b.data else b.data)
        cases aTryAgain with
        | false => exact hb.smBuffer
        | true =>
          rw [if_pos rfl, smBytes_append, hsm, hb.smBuffer, Nat.zero_add]

theorem counted_clearImidiatle {b : Buffering} {sending : List Packet} (hb : Counted b sending) :
    Counted b.clearImidiatle.1 sending ↔ bytes b.data = 0 := by
  have hbuffer := hb.buffer
  constructor
  · intro h
    have hsum : b.buffer = bytes [] + bytes sending := h.buffer
    rw [bytes_nil] at hsum
    omega
  · intro h
    refine ⟨?_, hb.bound, ?_⟩
    · change b.buffer = bytes [] + bytes sending
      rw [bytes_nil]
      omega
    · change b.smBuffer = smBytes []
      rw [hb.smBuffer, smBytes_nil]
      have := smBytes_le b.data
      omega

end Buffering

namespace Bufferings
open Buffering

variable {ι : Type} [DecidableEq ι]

/-- An operation keeps the sizes: the shared memory that is put is limited, none of the bytes that
    were tried is to be sent again, and nothing with bytes is cleared. -/
def Counts (s : Bufferings ι) : Op ι → Prop
  | .put i aData => (s.buffering i).limitsSm = true ∨
      smBytes (fitting (s.buffering i).maxBufferSizeForChannel (s.buffering i).buffer aData) = 0
  | .try_ _ _ => True
  | .finish i _ aNoSent _ => aNoSent = [] ∨ bytes (s.sending i) = 0
  | .clearImidiatle i => bytes (s.buffering i).data = 0

def StepOk (s : Bufferings ι) (op : Op ι) : Prop := Paired s op ∧ Counts s op

instance (s : Bufferings ι) (op : Op ι) : Decidable (Paired s op) := by
  cases op <;> unfold Paired <;> infer_instance

instance (s : Bufferings ι) (op : Op ι) : Decidable (Counts s op) := by
  cases op <;> unfold Counts <;> infer_instance

instance (s : Bufferings ι) (op : Op ι) : Decidable (StepOk s op) :=
  inferInstanceAs (Decidable (_ ∧ _))

/-- `MPut` takes the longest prefix that fits, in order, and leaves the rest. -/
def PutsLongest (s : Bufferings ι) : Prop :=
  ∀ i aData, ∃ k ≤ aData.length,
    ((s.buffering i).put s.currentSm aData).2 = aData.drop k ∧
    ((s.buffering i).put s.currentSm aData).1.2.data.map Packet.data =
      ((s.buffering i).data ++ aData.take k).map Packet.data ∧
    ∀ j ≤ aData.length, (bytes ((s.buffering i).data ++ s.sending i ++ aData.take j) ≤
      (s.buffering i).maxBufferSizeForChannel ↔ j ≤ k)

theorem tied_update {s s' : Bufferings ι} {i : ι} {b : Buffering} {l : List Packet}
    (h : ∀ j, Tied (s.buffering j) (s.sending j))
    (hbuffering : s'.buffering = Function.update s.buffering i b)
    (hsending : s'.sending = Function.update s.sending i l) (hb : Tied b l) (j : ι) :
    Tied (s'.buffering j) (s'.sending j) := by
  rw [hbuffering, hsending]
  by_cases hj : j = i
  · subst hj
    rwa [Function.update_self, Function.update_self]
  · rw [Function.update_of_ne hj, Function.update_of_ne hj]
    exact h j

variable [Fintype ι]

/-- The sizes of all buffers are right. -/
structure Accounted (s : Bufferings ι) : Prop where
  counted : ∀ i, Counted (s.buffering i) (s.sending i)
  current : s.currentSm = ∑ i, (s.buffering i).smBuffer

structure Kept (s : Bufferings ι) : Prop where
  tied : ∀ i, Tied (s.buffering i) (s.sending i)
  accounted : Accounted s

theorem sum_smBuffer_update (f : ι → Buffering) (i : ι) (b : Buffering) :
    ∑ j, (Function.update f i b j).smBuffer + (f i).smBuffer =
      ∑ j, (f j).smBuffer + b.smBuffer := by
  rw [← Finset.add_sum_erase Finset.univ _ (Finset.mem_univ i),
    ← Finset.add_sum_erase Finset.univ (fun j => (f j).smBuffer) (Finset.mem_univ i),
    Function.update_self]
  have hrest : ∑ j ∈ Finset.univ.erase i, (Function.update f i b j).smBuffer =
      ∑ j ∈ Finset.univ.erase i, (f j).smBuffer := by
    refine Finset.sum_congr rfl fun j hj => ?_
    rw [Function.update_of_ne (Finset.ne_of_mem_erase hj)]
  rw [hrest]
  omega

/-- When one buffer changes, its sizes are all that can go wrong. -/
theorem accounted_update {s : Bufferings ι} {i : ι} {b : Buffering} {l : List Packet} {c : ℕ}
    {sending : ι → List Packet} (h : Accounted s)
    (hsending : sending = Function.update s.sending i l)
    (hcurrent : c + (s.buffering i).smBuffer = s.currentSm + b.smBuffer) :
    Accounted ⟨c, Function.update s.buffering i b, sending⟩ ↔ Counted b l := by
  subst hsending
  constructor
  · intro h'
    have hi := h'.counted i
    dsimp only at hi
    rwa [Function.update_self, Function.update_self] at hi
  · intro hb
    refine ⟨fun j => ?_, ?_⟩
    · dsimp only
      by_cases hj : j = i
      · subst hj
        rwa [Function.update_self, Function.update_self]
      · rw [Function.update_of_ne hj, Function.update_of_ne hj]
        exact h.counted j
    · have hsum := sum_smBuffer_update s.buffering i b
      have hold := h.current
      dsimp only
      omega

/-- A call that is paired ends well, and it keeps the sizes just when `Counts` says so. -/
theorem step_spec {s : Bufferings ι} (h : Kept s) {op : Op ι} (hop : Paired s op) :
    ∃ s', step op s = .ok s' ∧ (∀ i, Tied (s'.buffering i) (s'.sending i)) ∧
      (Accounted s' ↔ Counts s op) := by
  cases op with
  | put i aData =>
    have ht := h.tied i
    obtain ⟨htook, -⟩ := put_spec s.currentSm ht.limited aData
    refine ⟨_, rfl, tied_update h.tied rfl (Function.update_eq_self i s.sending).symm ?_, ?_⟩
    · refine ⟨?_, ?_, fun hidle => ?_⟩
      · rw [htook.frame.maxBuffer]
        exact ht.limited
      · rw [htook.frame.handling]
        exact ht.handling
      · rw [htook.frame.thread] at hidle
        exact ht.idle hidle
    · refine (accounted_update h.accounted (Function.update_eq_self i s.sending).symm
        htook.current).trans ?_
      exact counted_put s.currentSm ht (h.accounted.counted i) aData
  | try_ i thread =>
    obtain ⟨hidle, hthread⟩ := hop
    have ht := h.tied i
    have hb := h.accounted.counted i
    simp only [step, try_]
    cases hempty : (s.buffering i).isEmpty with
    | true => exact ⟨s, rfl, h.tied, fun _ => trivial, fun _ => h.accounted⟩
    | false =>
      rw [if_neg Bool.false_ne_true, if_neg (not_not_intro hidle)]
      have hsending := ht.idle hidle
      have hsize : (s.buffering i).buffer = bytes (s.buffering i).data := by
        rw [hb.buffer, hsending, bytes_nil, Nat.add_zero]
      refine ⟨_, rfl, tied_update h.tied rfl rfl ?_, ?_⟩
      · exact ⟨ht.limited, hsize, fun hzero => absurd hzero hthread⟩
      · rw [accounted_update h.accounted rfl]
        · refine ⟨fun _ => trivial, fun _ => ⟨?_, hb.bound, rfl⟩⟩
          rw [bytes_nil, Nat.zero_add]
          exact hsize
        · have hle : (s.buffering i).smBuffer ≤ s.currentSm := by
            rw [h.accounted.current]
            exact Finset.single_le_sum (f := fun j => (s.buffering j).smBuffer)
              (fun _ _ => Nat.zero_le _) (Finset.mem_univ i)
          exact Nat.sub_add_cancel hle
  | finish i thread aNoSent aTryAgain =>
    obtain ⟨rfl, hthread, hfails⟩ := hop
    have ht := h.tied i
    have hfinish : (s.buffering i).finish (s.buffering i).doingThread aNoSent aTryAgain =
        .ok { (s.buffering i).takeBack aNoSent aTryAgain with
          doingThread := 0, handlingBuffer := 0 } := by
      unfold finish
      rw [if_neg (not_not_intro rfl)]
    have hlimits : ((s.buffering i).takeBack aNoSent aTryAgain).maxBufferSizeForChannel =
        (s.buffering i).maxBufferSizeForChannel ∧
        ((s.buffering i).takeBack aNoSent aTryAgain).smBuffer = (s.buffering i).smBuffer := by
      cases aNoSent <;> exact ⟨rfl, rfl⟩
    simp only [step, hfinish]
    refine ⟨_, rfl, tied_update h.tied rfl rfl ?_, ?_⟩
    · exact ⟨hlimits.1.symm ▸ ht.limited, rfl, fun _ => rfl⟩
    · rw [accounted_update h.accounted rfl (by rw [hlimits.2])]
      exact counted_finish ht (h.accounted.counted i) hfails hfinish
  | clearImidiatle i =>
    have ht := h.tied i
    refine ⟨_, rfl, tied_update h.tied rfl (Function.update_eq_self i s.sending).symm ?_, ?_⟩
    · exact ⟨ht.limited, ht.handling, ht.idle⟩
    · refine (accounted_update (b := (s.buffering i).clearImidiatle.1) h.accounted
        (Function.update_eq_self i s.sending).symm rfl).trans ?_
      exact counted_clearImidiatle (h.accounted.counted i)

omit [DecidableEq ι] in
theorem Kept.putsLongest {s : Bufferings ι} (h : Kept s) : PutsLongest s := by
  intro i aData
  have ht := h.tied i
  have hb := h.accounted.counted i
  obtain ⟨htook, hrest⟩ := put_spec s.currentSm ht.limited aData
  obtain ⟨stored, hdata, hsame, -⟩ := htook.data
  refine ⟨_, length_fitting_le _ _ aData, hrest, ?_, fun j hj => ?_⟩
  · rw [hdata, List.map_append, List.map_append, hsame, ← fitting_eq_take]
  · rw [bytes_append, bytes_append, ← hb.buffer]
    exact bytes_take_le_iff hb.bound aData hj

omit [DecidableEq ι] in
theorem kept_start {limits : ι → ℕ × ℕ} (h : ∀ i, 0 < (limits i).1) : Kept (start limits) where
  tied := fun i => ⟨h i, rfl, fun _ => rfl⟩
  accounted := ⟨fun _ => ⟨rfl, Nat.zero_le _, rfl⟩, Finset.sum_const_zero.symm⟩

omit [DecidableEq ι] [Fintype ι] in
/-- An empty buffer takes a packet that is not larger than the limit. -/
theorem PutsLongest.accepts {s : Bufferings ι} (h : PutsLongest s) {i : ι} {p : Packet}
    (hdata : (s.buffering i).data = []) (hsending : s.sending i = [])
    (hp : p.size ≤ (s.buffering i).maxBufferSizeForChannel) :
    ((s.buffering i).put s.currentSm [p]).2 = [] := by
  obtain ⟨k, -, hrest, -, hlongest⟩ := h i [p]
  have hk : 1 ≤ k := (hlongest 1 (Nat.le_refl 1)).1 (by simpa [hdata, hsending] using hp)
  rw [hrest, List.drop_eq_nil_of_le hk]

/-- In a run whose calls all keep the sizes, the sizes are right in every state reached, `MPut`
    takes the longest prefix that fits, and the next call keeps the sizes just when `Counts` says
    so. -/
theorem run_accounted (limits : ι → ℕ × ℕ) (ops : List (Op ι)) (hlimits : ∀ i, 0 < (limits i).1)
    (h : EveryStep step StepOk ops (start limits)) :
    ∃ s, runAll step ops (start limits) = .ok s ∧ Accounted s ∧ PutsLongest s ∧
      (∀ i p, (s.buffering i).data = [] → s.sending i = [] →
        p.size ≤ (s.buffering i).maxBufferSizeForChannel →
        ((s.buffering i).put s.currentSm [p]).2 = []) ∧
      ∀ op, Paired s op → ∃ s', step op s = .ok s' ∧ (Accounted s' ↔ Counts s op) := by
  have hrun : Outcome (fun _ => False) Kept (runAll step ops (start limits)) := by
    refine runAll_outcome (fun s op hs hop => ?_) (kept_start hlimits) h
    obtain ⟨s', hs', htied, hiff⟩ := step_spec hs hop.1
    rw [hs']
    exact ⟨htied, hiff.2 hop.2⟩
  cases hs : runAll step ops (start limits) with
  | error e =>
    rw [hs] at hrun
    exact hrun.elim
  | ok s =>
    rw [hs] at hrun
    refine ⟨s, rfl, hrun.accounted, hrun.putsLongest, fun i p hdata hsending hp =>
      hrun.putsLongest.accepts hdata hsending hp, fun op hop => ?_⟩
    obtain ⟨s', hs', -, hiff⟩ := step_spec hrun hop
    exact ⟨s', hs', hiff⟩

def packetOf (n : ℕ) (inSm : Bool) : Packet where
  data := ⟨{
    packetNumber := 1, protocol := ['p'], dataOffset := 0, eventsList := [], destination := [2]
    registrators := [], routing := ⟨⟨1, ['s']⟩, [2]⟩, split := .default, endian := shareEndian
    what := ⟨⟨1, 0, 0⟩, [1]⟩ }, List.replicate n 0⟩
  inSm := inSm

def twoBuffersOps : List (Op (Fin 2)) :=
  [.put 0 [packetOf 5 true, packetOf 3 false], .put 1 [packetOf 2 true], .try_ 0 7,
    .put 0 [packetOf 1 true, packetOf 4 false], .finish 0 7 [] true, .try_ 0 7]

theorem run_accounted_twoBuffers :
    ∃ s, runAll step twoBuffersOps (start fun _ => (10, 8)) = .ok s ∧ Accounted s ∧
      PutsLongest s ∧ (∀ i p, (s.buffering i).data = [] → s.sending i = [] →
        p.size ≤ (s.buffering i).maxBufferSizeForChannel →
        ((s.buffering i).put s.currentSm [p]).2 = []) ∧
      ∀ op, Paired s op → ∃ s', step op s = .ok s' ∧ (Accounted s' ↔ Counts s op) :=
  run_accounted (fun _ => (10, 8)) twoBuffersOps (by decide) (by decide)

/-- A packet of five bytes could not be sent and is to be sent again. -/
def failedOps : List (Op (Fin 1)) :=
  [.put 0 [packetOf 5 false], .try_ 0 7, .finish 0 7 [packetOf 5 false] true]

theorem accounted_false_of_failed : ∃ s, runAll step failedOps (start fun _ => (10, 8)) = .ok s ∧
    EveryStep step Paired failedOps (start fun _ => (10, 8)) ∧ ¬Accounted s := by
  refine ⟨_, rfl, by decide, fun h => ?_⟩
  exact absurd (h.counted 0).buffer (by decide)

end Bufferings

end UdtKernel
