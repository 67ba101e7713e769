import Mathlib.Data.List.Nodup
import Mathlib.Data.List.TakeWhile
import Mathlib.Data.Nat.Notation
import Mathlib.Algebra.GroupWithZero.Nat
import Mathlib.Order.CompletePartialOrder

set_option autoImplicit false

/-! The callbacks of one event: `CEvent`. -/

namespace UdtKernel.Callbacks

/-- `eCBRval`, and any code that is none of it. -/
inductive CbRval where
  | remove
  | safeIt
  | blocingOther
  | unknown
deriving DecidableEq

/-- `CEvent::Type`. -/
structure Callback (β : Type) where
  prior : ℕ
  cb : β
deriving DecidableEq

structure Event (β : Type) where
  cbs : List (Callback β)
  numberOfArrayChange : BitVec 32
deriving DecidableEq

variable {β : Type}

/-- `insert` at the `upper_bound`. -/
def insertUpper (val : Callback β) (l : List (Callback β)) : List (Callback β) :=
  l.takeWhile (·.prior ≤ val.prior) ++ val :: l.dropWhile (·.prior ≤ val.prior)

namespace Event

def new : Event β := ⟨[], 0⟩

def changed (e : Event β) (cbs : List (Callback β)) : Event β := ⟨cbs, e.numberOfArrayChange + 1⟩

def mClear (e : Event β) : Event β := { e with cbs := [] }

def mWasChanged (e : Event β) (aVal : BitVec 32) : Bool := e.numberOfArrayChange ≠ aVal

/-- The loop of `MCall`, and the callbacks that it calls. -/
def callLoop (returns : β → CbRval) (number : BitVec 32) :
    List (Callback β) → Event β × List β
  | [] => (⟨[], number⟩, [])
  | c :: l => match returns c.cb with
    | .remove =>
      let r := callLoop returns (number + 1) l
      (r.1, c.cb :: r.2)
    | .blocingOther => (⟨c :: l, number⟩, [c.cb])
    | .safeIt | .unknown =>
      let r := callLoop returns number l
      (⟨c :: r.1.cbs, r.1.numberOfArrayChange⟩, c.cb :: r.2)

def mCall (returns : β → CbRval) (e : Event β) : Event β × List β :=
  callLoop returns e.numberOfArrayChange e.cbs

variable [DecidableEq β]

def mAdd (aCb : β) (aPrior : ℕ) (e : Event β) : Event β :=
  match e.cbs.find? (·.cb = aCb) with
  | none => e.changed (insertUpper ⟨aPrior, aCb⟩ e.cbs)
  | some c =>
    if aPrior = c.prior then e
    else e.changed (insertUpper ⟨aPrior, aCb⟩ (e.cbs.eraseP (·.cb = aCb)))

def mErase (aCb : β) (e : Event β) : Event β × Bool :=
  if e.cbs.any (·.cb = aCb) then (e.changed (e.cbs.eraseP (·.cb = aCb)), true) else (e, false)

def mChangePrior (aCb : β) (aPrior : ℕ) (e : Event β) : Event β :=
  if e.cbs.any (·.cb = aCb) then
    e.changed (insertUpper ⟨aPrior, aCb⟩ (e.cbs.eraseP (·.cb = aCb)))
  else e

/-- What the loops of `MSynchronizeChange` erase. -/
def missing : List (Callback β) → List (Callback β) → List β
  | [], _ => []
  | o :: old, [] => o.cb :: missing old []
  | o :: old, n :: new =>
    if o.cb = n.cb then missing old new else o.cb :: missing old (n :: new)

def mSynchronizeChange (e aOldValue aNewValue : Event β) : Event β :=
  if !aOldValue.mWasChanged e.numberOfArrayChange then aNewValue
  else (missing aOldValue.cbs aNewValue.cbs).foldl (fun e cb => (e.mErase cb).1) e

end Event

/-- What is called of some callbacks: those up to the first that blocks the others. -/
def upToBlocking (returns : β → CbRval) : List β → List β
  | [] => []
  | cb :: l => if returns cb = .blocingOther then [cb] else cb :: upToBlocking returns l

def toRemove (returns : β → CbRval) (l : List (Callback β)) : List β :=
  (upToBlocking returns (l.map Callback.cb)).filter (returns · = .remove)

/-- The counter has gone on by `n`, and not without a change of the callbacks. -/
def Counted (e e' : Event β) (n : ℕ) : Prop :=
  e'.numberOfArrayChange = e.numberOfArrayChange + BitVec.ofNat 32 n ∧ (n = 0 → e' = e)

theorem counted_self (e : Event β) : Counted e e 0 := ⟨(BitVec.add_zero _).symm, fun _ => rfl⟩

theorem counted_changed (e : Event β) (cbs : List (Callback β)) : Counted e (e.changed cbs) 1 :=
  ⟨rfl, fun h => absurd h (by decide)⟩

/-- The callbacks stand by their priorities, each of them once. -/
structure Ordered (l : List (Callback β)) : Prop where
  sorted : l.Pairwise (·.prior ≤ ·.prior)
  nodup : (l.map Callback.cb).Nodup

theorem ordered_nil : Ordered ([] : List (Callback β)) := ⟨.nil, .nil⟩

theorem Ordered.sublist {l l' : List (Callback β)} (h : Ordered l) (hl : l'.Sublist l) :
    Ordered l' :=
  ⟨h.sorted.sublist hl, h.nodup.sublist (hl.map _)⟩

theorem insertUpper_perm (val : Callback β) (l : List (Callback β)) :
    (insertUpper val l).Perm (val :: l) := by
  have hsplit := List.takeWhile_append_dropWhile (p := fun c => c.prior ≤ val.prior) (l := l)
  have hperm : (insertUpper val l).Perm (val :: (l.takeWhile (fun c => c.prior ≤ val.prior) ++
      l.dropWhile fun c => c.prior ≤ val.prior)) := List.perm_middle
  rwa [hsplit] at hperm

theorem Ordered.insertUpper {val : Callback β} {l : List (Callback β)} (h : Ordered l)
    (hnew : val.cb ∉ l.map Callback.cb) : Ordered (insertUpper val l) := by
  constructor
  · have hsplit := List.takeWhile_append_dropWhile (p := fun c => c.prior ≤ val.prior) (l := l)
    have hsorted := h.sorted
    rw [← hsplit] at hsorted
    obtain ⟨hbefore, hafter, hacross⟩ := List.pairwise_append.1 hsorted
    have hle : ∀ c ∈ l.takeWhile fun c => c.prior ≤ val.prior, c.prior ≤ val.prior := fun c hc => by
      simpa using List.mem_takeWhile_imp hc
    have hlt : ∀ c ∈ l.dropWhile fun c => c.prior ≤ val.prior, val.prior ≤ c.prior := fun c hc => by
      cases hdrop : l.dropWhile fun c => c.prior ≤ val.prior with
      | nil =>
        rw [hdrop] at hc
        cases hc
      | cons d rest =>
        have hd : ¬ d.prior ≤ val.prior := by
          have := List.head?_dropWhile_not (fun c : Callback β => c.prior ≤ val.prior) l
          rw [hdrop] at this
          simpa using this
        rw [hdrop] at hc hafter
        rcases List.mem_cons.1 hc with rfl | hc
        · omega
        · have := (List.pairwise_cons.1 hafter).1 c hc
          omega
    refine List.pairwise_append.2 ⟨hbefore, List.pairwise_cons.2 ⟨hlt, hafter⟩, fun c hc d hd => ?_⟩
    rcases List.mem_cons.1 hd with rfl | hd
    · exact hle c hc
    · exact hacross c hc d hd
  · have hperm := (insertUpper_perm val l).map Callback.cb
    exact hperm.nodup_iff.2 (List.nodup_cons.2 ⟨hnew, h.nodup⟩)

variable [DecidableEq β]

/-- Of callbacks that are there once the first one to erase is the only one. -/
theorem eraseP_eq_filter {l : List (Callback β)} (h : (l.map Callback.cb).Nodup) (aCb : β) :
    l.eraseP (·.cb = aCb) = l.filter (·.cb ≠ aCb) := by
  induction l with
  | nil => rfl
  | cons c l ih =>
    rw [List.map_cons, List.nodup_cons] at h
    by_cases hc : c.cb = aCb
    · rw [List.eraseP_cons_of_pos (by simpa using hc), List.filter_cons_of_neg (by simpa using hc)]
      refine (List.filter_eq_self.2 fun d hd => ?_).symm
      have hne : d.cb ≠ aCb := fun heq => h.1 (List.mem_map.2 ⟨d, hd, heq.trans hc.symm⟩)
      simpa using hne
    · rw [List.eraseP_cons_of_neg (by simpa using hc), List.filter_cons_of_pos (by simpa using hc),
        ih h.2]

theorem any_eq_false_iff {l : List (Callback β)} {aCb : β} :
    l.any (·.cb = aCb) = false ↔ aCb ∉ l.map Callback.cb := by
  rw [List.any_eq_false, List.mem_map]
  simp only [decide_eq_true_eq, not_exists, not_and]

theorem notMem_eraseP {l : List (Callback β)} (h : (l.map Callback.cb).Nodup) (aCb : β) :
    aCb ∉ (l.eraseP (·.cb = aCb)).map Callback.cb := by
  rw [eraseP_eq_filter h]
  simp

namespace Event

section
variable (e : Event β) (aCb : β) (aPrior : ℕ)

theorem counted_mAdd : ∃ n ≤ 1, Counted e (e.mAdd aCb aPrior) n := by
  unfold mAdd
  split
  · exact ⟨1, Nat.le_refl 1, counted_changed e _⟩
  · split_ifs
    · exact ⟨0, Nat.zero_le 1, counted_self e⟩
    · exact ⟨1, Nat.le_refl 1, counted_changed e _⟩

theorem counted_mErase : ∃ n ≤ 1, Counted e (e.mErase aCb).1 n := by
  unfold mErase
  split_ifs
  · exact ⟨1, Nat.le_refl 1, counted_changed e _⟩
  · exact ⟨0, Nat.zero_le 1, counted_self e⟩

theorem counted_mChangePrior : ∃ n ≤ 1, Counted e (e.mChangePrior aCb aPrior) n := by
  unfold mChangePrior
  split_ifs
  · exact ⟨1, Nat.le_refl 1, counted_changed e _⟩
  · exact ⟨0, Nat.zero_le 1, counted_self e⟩

end

theorem mErase_cbs {e : Event β} (h : Ordered e.cbs) (aCb : β) :
    (e.mErase aCb).1.cbs = e.cbs.filter (·.cb ≠ aCb) := by
  unfold mErase
  cases hany : e.cbs.any (·.cb = aCb) with
  | true => exact eraseP_eq_filter h.nodup aCb
  | false =>
    rw [any_eq_false_iff] at hany
    refine (List.filter_eq_self.2 fun c hc => ?_).symm
    have hne : c.cb ≠ aCb := fun heq => hany (List.mem_map.2 ⟨c, hc, heq⟩)
    simpa using hne

theorem ordered_mErase {e : Event β} (h : Ordered e.cbs) (aCb : β) :
    Ordered (e.mErase aCb).1.cbs := by
  rw [mErase_cbs h]
  exact h.sublist List.filter_sublist

theorem ordered_mAdd {e : Event β} (h : Ordered e.cbs) (aCb : β) (aPrior : ℕ) :
    Ordered (e.mAdd aCb aPrior).cbs := by
  unfold mAdd
  cases hfind : e.cbs.find? (·.cb = aCb) with
  | none =>
    refine h.insertUpper fun hmem => ?_
    obtain ⟨c, hc, heq⟩ := List.mem_map.1 hmem
    exact absurd heq (by simpa using List.find?_eq_none.1 hfind c hc)
  | some c =>
    dsimp only
    split_ifs with hprior
    · exact h
    · exact (h.sublist List.eraseP_sublist).insertUpper (notMem_eraseP h.nodup aCb)

theorem ordered_mChangePrior {e : Event β} (h : Ordered e.cbs) (aCb : β) (aPrior : ℕ) :
    Ordered (e.mChangePrior aCb aPrior).cbs := by
  unfold mChangePrior
  split_ifs with hany
  · exact (h.sublist List.eraseP_sublist).insertUpper (notMem_eraseP h.nodup aCb)
  · exact h

end Event

section
omit [DecidableEq β]
variable (returns : β → CbRval)

theorem upToBlocking_front (l : List β) : upToBlocking returns l <+: l := by
  induction l with
  | nil => exact List.nil_prefix
  | cons cb l ih =>
    unfold upToBlocking
    split_ifs with hcb
    · exact ⟨l, rfl⟩
    · exact (List.prefix_cons_inj cb).2 ih

theorem upToBlocking_dropLast (l : List β) :
    ∀ cb ∈ (upToBlocking returns l).dropLast, returns cb ≠ .blocingOther := by
  induction l with
  | nil => exact fun cb hcb => absurd hcb List.not_mem_nil
  | cons cb l ih =>
    unfold upToBlocking
    split_ifs with hcb
    · exact fun d hd => absurd hd List.not_mem_nil
    · intro d hd
      cases hrest : upToBlocking returns l with
      | nil =>
        rw [hrest] at hd
        cases hd
      | cons e rest =>
        rw [hrest, List.dropLast_cons_cons] at hd
        rw [hrest] at ih
        rcases List.mem_cons.1 hd with rfl | hd
        · exact hcb
        · exact ih d hd

/-- Either all are called, or the last one that is called blocks the others. -/
theorem upToBlocking_all (l : List β) : upToBlocking returns l = l ∨
    ∃ cb ∈ (upToBlocking returns l).getLast?, returns cb = .blocingOther := by
  induction l with
  | nil => exact .inl rfl
  | cons cb l ih =>
    unfold upToBlocking
    split_ifs with hcb
    · exact .inr ⟨cb, rfl, hcb⟩
    · rcases ih with ih | ⟨d, hd, hblock⟩
      · exact .inl (congrArg (List.cons cb) ih)
      · refine .inr ⟨d, ?_, hblock⟩
        cases hrest : upToBlocking returns l with
        | nil =>
          rw [hrest] at hd
          cases hd
        | cons e rest =>
          rw [hrest] at hd
          rwa [List.getLast?_cons_cons]

variable (number : BitVec 32) (l : List (Callback β))

theorem callLoop_called :
    (Event.callLoop returns number l).2 = upToBlocking returns (l.map Callback.cb) := by
  induction l generalizing number with
  | nil => rfl
  | cons c l ih =>
    rw [List.map_cons, upToBlocking]
    cases hc : returns c.cb <;> simp [Event.callLoop, hc, ih]

theorem callLoop_number : (Event.callLoop returns number l).1.numberOfArrayChange =
    number + BitVec.ofNat 32 (toRemove returns l).length := by
  induction l generalizing number with
  | nil => simp [Event.callLoop, toRemove, upToBlocking]
  | cons c l ih =>
    unfold toRemove at ih ⊢
    rw [List.map_cons, upToBlocking]
    cases hc : returns c.cb with
    | remove =>
      simp only [Event.callLoop, hc, ih, reduceCtorEq, if_false, decide_true,
        List.filter_cons_of_pos, List.length_cons, BitVec.ofNat_add]
      rw [BitVec.add_assoc, BitVec.add_comm 1]
      rfl
    | blocingOther => simp [Event.callLoop, hc]
    | safeIt => simp [Event.callLoop, hc, ih]
    | unknown => simp [Event.callLoop, hc, ih]

theorem mWasChanged_mCall (e : Event β) :
    (e.mCall returns).1.mWasChanged e.numberOfArrayChange = true ↔
      (toRemove returns e.cbs).length % 2 ^ 32 ≠ 0 := by
  unfold Event.mWasChanged Event.mCall
  rw [callLoop_number, decide_eq_true_eq, ne_eq, BitVec.add_right_eq_self, ← BitVec.toNat_inj,
    BitVec.toNat_ofNat]
  rfl

end

/-- A call leaves those that are not to be removed. -/
theorem callLoop_cbs (returns : β → CbRval) (number : BitVec 32) {l : List (Callback β)}
    (h : (l.map Callback.cb).Nodup) : (Event.callLoop returns number l).1.cbs =
      l.filter (·.cb ∉ toRemove returns l) := by
  induction l generalizing number with
  | nil => rfl
  | cons c l ih =>
    rw [List.map_cons, List.nodup_cons] at h
    have hother : ∀ d ∈ l, d.cb ≠ c.cb := fun d hd heq => h.1 (List.mem_map.2 ⟨d, hd, heq⟩)
    have hgone : c.cb ∉ toRemove returns l := fun hmem =>
      h.1 ((upToBlocking_front returns _).subset (List.mem_filter.1 hmem).1)
    have hcons : toRemove returns (c :: l) = match returns c.cb with
        | .remove => c.cb :: toRemove returns l
        | .blocingOther => []
        | .safeIt | .unknown => toRemove returns l := by
      unfold toRemove
      rw [List.map_cons, upToBlocking]
      cases hc : returns c.cb <;> simp [hc]
    rw [hcons]
    cases hc : returns c.cb with
    | remove =>
      simp only [Event.callLoop, hc, ih _ h.2]
      rw [List.filter_cons_of_neg (by simp)]
      refine List.filter_congr fun d hd => ?_
      simp [hother d hd]
    | blocingOther => simp [Event.callLoop, hc]
    | safeIt =>
      simp only [Event.callLoop, hc, ih _ h.2]
      rw [List.filter_cons_of_pos (by simpa using hgone)]
    | unknown =>
      simp only [Event.callLoop, hc, ih _ h.2]
      rw [List.filter_cons_of_pos (by simpa using hgone)]

namespace Event

/-- The loops find what has been filtered out. -/
theorem missing_filter {l : List (Callback β)} (h : (l.map Callback.cb).Nodup) (p : β → Bool) :
    missing l (l.filter fun c => p c.cb) = (l.map Callback.cb).filter (!p ·) := by
  induction l with
  | nil => rfl
  | cons c l ih =>
    rw [List.map_cons, List.nodup_cons] at h
    cases hp : p c.cb with
    | true =>
      rw [List.filter_cons_of_pos (by simpa using hp), missing, if_pos rfl, ih h.2, List.map_cons,
        List.filter_cons_of_neg (by simp [hp])]
    | false =>
      rw [List.filter_cons_of_neg (by simp [hp]), List.map_cons,
        List.filter_cons_of_pos (by simp [hp]), ← ih h.2]
      cases hrest : l.filter fun c => p c.cb with
      | nil => rfl
      | cons d rest =>
        have hd : d ∈ l := (List.mem_filter.1 (hrest ▸ List.mem_cons_self)).1
        rw [missing, if_neg fun heq => h.1 (List.mem_map.2 ⟨d, hd, heq.symm⟩)]

theorem foldl_mErase {e : Event β} (h : Ordered e.cbs) (l : List β) :
    Ordered (l.foldl (fun e cb => (e.mErase cb).1) e).cbs ∧
      (l.foldl (fun e cb => (e.mErase cb).1) e).cbs = e.cbs.filter (·.cb ∉ l) := by
  induction l generalizing e with
  | nil => exact ⟨h, (List.filter_eq_self.2 fun c _ => by simp).symm⟩
  | cons cb l ih =>
    obtain ⟨hordered, hcbs⟩ := ih (ordered_mErase h cb)
    refine ⟨hordered, ?_⟩
    rw [List.foldl_cons, hcbs, mErase_cbs h, List.filter_filter]
    refine List.filter_congr fun c _ => ?_
    simp only [List.mem_cons, not_or, Bool.decide_and, Bool.and_comm]

end Event

/-- The list that `MSynchronizeChange` leaves. -/
theorem mSynchronizeChange_cbs {e e' : Event β} (h : Ordered e.cbs) (h' : Ordered e'.cbs)
    (returns : β → CbRval) : (e'.mSynchronizeChange e (e.mCall returns).1).cbs =
      if e'.numberOfArrayChange = e.numberOfArrayChange then
        e.cbs.filter (·.cb ∉ toRemove returns e.cbs)
      else e'.cbs.filter (·.cb ∉ toRemove returns e.cbs) := by
  have hcall : (e.mCall returns).1.cbs = e.cbs.filter (·.cb ∉ toRemove returns e.cbs) :=
    callLoop_cbs returns _ h.nodup
  have hsub : ∀ cb ∈ toRemove returns e.cbs, cb ∈ e.cbs.map Callback.cb := fun cb hcb =>
    (upToBlocking_front returns _).subset (List.mem_filter.1 hcb).1
  unfold Event.mSynchronizeChange Event.mWasChanged
  by_cases hnumber : e'.numberOfArrayChange = e.numberOfArrayChange
  · simp only [hnumber, ne_eq, not_true_eq_false, decide_false, Bool.not_false, if_true, hcall]
  · have hne : e.numberOfArrayChange ≠ e'.numberOfArrayChange := fun heq => hnumber heq.symm
    simp only [hne, ne_eq, not_false_eq_true, decide_true, Bool.not_true, Bool.false_eq_true,
      if_false, hnumber]
    rw [(Event.foldl_mErase h' _).2, hcall,
      Event.missing_filter h.nodup fun cb => decide (cb ∉ toRemove returns e.cbs)]
    refine List.filter_congr fun c _ => decide_eq_decide.2 (not_congr ?_)
    rw [List.mem_filter, Bool.not_eq_true', decide_eq_false_iff_not, not_not]
    exact ⟨And.right, fun hmem => ⟨hsub _ hmem, hmem⟩⟩

end UdtKernel.Callbacks
