import UdtKernel.Callbacks.Events
import UdtKernel.Lib.Run

set_option autoImplicit false

/-! What a call of the callbacks of a key leaves, when others change them meanwhile. -/

namespace UdtKernel.Callbacks
open UdtKernel.Lib

inductive Step (κ β : Type) where
  | change (c : Change κ β)
  | call (aKey : κ) (returns : β → CbRval) (changes : List (Change κ β))

namespace Events

variable {κ β : Type} [DecidableEq κ] [DecidableEq β]

def step : Step κ β → Events κ β → Except Abort (Events κ β)
  | .change c, s => .ok (s.change c)
  | .call aKey returns changes, s => (s.mCall aKey returns changes).map Prod.fst

/-- What a call of the callbacks of a key has to do: `before` is the table at its beginning, `live`
    the one that the others have made, and `after` the one it leaves. -/
structure Served (aKey : κ) (returns : β → CbRval) (before live after : Events κ β)
    (called : List β) : Prop where
  first : called <+: (before.list aKey).map Callback.cb
  notBlocked : ∀ cb ∈ called.dropLast, returns cb ≠ .blocingOther
  upTo : called = (before.list aKey).map Callback.cb ∨
    ∃ cb ∈ called.getLast?, returns cb = .blocingOther
  once : called.Nodup
  inOrder : (before.list aKey).Pairwise (·.prior ≤ ·.prior)
  list : after.list aKey =
    (live.list aKey).filter fun c => ¬ (c.cb ∈ called ∧ returns c.cb = .remove)
  ordered : Ordered (after.list aKey)
  absent : after.cbs aKey = none ↔ after.list aKey = []
  others : ∀ k, k ≠ aKey → after.cbs k = live.cbs k

def Serves (s : Events κ β) (aKey : κ) (returns : β → CbRval) (changes : List (Change κ β)) :
    Prop :=
  ∃ after called, s.mCall aKey returns changes = .ok (after, called) ∧
    Served aKey returns s (changes.foldl change s) after called

/-- The counters tell a list that has been changed from the one that was called. -/
def Told (s : Events κ β) (aKey : κ) (returns : β → CbRval) (changes : List (Change κ β)) : Prop :=
  let live := changes.foldl change s
  match s.cbs aKey with
  | none => ∀ node ∈ live.cbs aKey, node.event.cbs ≠ []
  | some node =>
    let gone := toRemove returns node.event.cbs
    if gone.length % 2 ^ 32 = 0 then
      ∀ node' ∈ live.cbs aKey, node'.event.cbs ≠ [] ∧ ∀ c ∈ node'.event.cbs, c.cb ∉ gone
    else
      (live.numberOfArrayChange = s.numberOfArrayChange →
        ∃ node' ∈ live.cbs aKey, node'.number = node.number) ∧
      ∀ node' ∈ live.cbs aKey, node'.event.numberOfArrayChange = node.event.numberOfArrayChange →
        node'.event.cbs.filter (·.cb ∉ gone) = node.event.cbs.filter (·.cb ∉ gone)

instance (s : Events κ β) (aKey : κ) (returns : β → CbRval) (changes : List (Change κ β)) :
    Decidable (s.Told aKey returns changes) := by
  unfold Told
  dsimp only
  split <;> infer_instance

variable {s live after : Events κ β} {aKey : κ} {returns : β → CbRval}
  {changes : List (Change κ β)}

omit [DecidableEq κ] in
variable (after aKey returns) in
theorem served_iff (h : s.AllOrdered) (hlive : live.AllOrdered) :
    Served aKey returns s live after (upToBlocking returns ((s.list aKey).map Callback.cb)) ↔
      after.list aKey = (live.list aKey).filter (·.cb ∉ toRemove returns (s.list aKey)) ∧
      (after.cbs aKey = none ↔ after.list aKey = []) ∧
      ∀ k, k ≠ aKey → after.cbs k = live.cbs k := by
  have hgone : ∀ c : Callback β, (¬ (c.cb ∈ upToBlocking returns ((s.list aKey).map Callback.cb) ∧
      returns c.cb = .remove)) ↔ c.cb ∉ toRemove returns (s.list aKey) := fun c => by
    unfold toRemove
    rw [List.mem_filter, decide_eq_true_eq]
  constructor
  · intro hserved
    refine ⟨?_, hserved.absent, hserved.others⟩
    rw [hserved.list]
    exact List.filter_congr fun c _ => decide_eq_decide.2 (hgone c)
  · rintro ⟨hlist, habsent, hothers⟩
    have hfront := upToBlocking_front returns ((s.list aKey).map Callback.cb)
    refine ⟨hfront, upToBlocking_dropLast returns _, upToBlocking_all returns _,
      (h aKey).nodup.sublist hfront.sublist, (h aKey).sorted, ?_, ?_, habsent, hothers⟩
    · rw [hlist]
      exact List.filter_congr fun c _ => (decide_eq_decide.2 (hgone c)).symm
    · rw [hlist]
      exact (hlive aKey).sublist List.filter_sublist

theorem serves_iff_of_none (h : s.AllOrdered) (hnode : s.cbs aKey = none) :
    s.Serves aKey returns changes ↔
      ∀ node ∈ (changes.foldl change s).cbs aKey, node.event.cbs ≠ [] := by
  have hserved : ∀ after, Served aKey returns s (changes.foldl change s) after [] ↔
      after.list aKey = (changes.foldl change s).list aKey ∧
      (after.cbs aKey = none ↔ after.list aKey = []) ∧
      ∀ k, k ≠ aKey → after.cbs k = (changes.foldl change s).cbs k := fun after => by
    have hiff := served_iff after aKey returns h (h.changes changes)
    rw [list_of_none hnode] at hiff
    rw [List.filter_eq_self.2 fun c _ => by simp [toRemove, upToBlocking]] at hiff
    exact hiff
  unfold Serves mCall
  rw [hnode]
  constructor
  · rintro ⟨after, called, hok, hs⟩ node hmem hcbs
    cases hok
    rw [hserved] at hs
    have habsent := hs.2.1.2 ((list_of_some hmem).trans hcbs)
    rw [hmem] at habsent
    cases habsent
  · intro hnodes
    refine ⟨_, [], rfl, (hserved _).2 ⟨rfl, ⟨list_of_none, fun hcbs => ?_⟩, fun _ _ => rfl⟩⟩
    by_contra hne
    obtain ⟨node, hmem⟩ := Option.ne_none_iff_exists'.1 hne
    exact hnodes node hmem ((list_of_some hmem).symm.trans hcbs)

/-- The table that a call of the callbacks of `node` leaves. -/
theorem mCall_of_some {node : Node β} (hnode : s.cbs aKey = some node) :
    s.mCall aKey returns changes = (if (toRemove returns node.event.cbs).length % 2 ^ 32 = 0 then
        .ok (changes.foldl change s)
      else (changes.foldl change s).synchronize aKey s.numberOfArrayChange node
        (node.event.mCall returns).1).map
      (·, upToBlocking returns ((s.list aKey).map Callback.cb)) := by
  have hcalled : (node.event.mCall returns).2 =
      upToBlocking returns ((s.list aKey).map Callback.cb) := by
    rw [list_of_some hnode]
    exact callLoop_called returns _ _
  have hwas := mWasChanged_mCall returns node.event
  unfold mCall
  rw [hnode]
  dsimp only
  rw [hcalled]
  by_cases hzero : (toRemove returns node.event.cbs).length % 2 ^ 32 = 0
  · rw [if_neg (fun heq => hwas.1 heq hzero), if_pos hzero]
    rfl
  · rw [if_pos (hwas.2 hzero), if_neg hzero]
    cases (changes.foldl change s).synchronize aKey s.numberOfArrayChange node
      (node.event.mCall returns).1 <;> rfl

theorem serves_iff_of_some (h : s.AllOrdered) {node : Node β} (hnode : s.cbs aKey = some node)
    {r : Except Abort (Events κ β)} (hr : s.mCall aKey returns changes =
      r.map (·, upToBlocking returns ((s.list aKey).map Callback.cb))) :
    s.Serves aKey returns changes ↔ ∃ after, r = .ok after ∧
      after.list aKey = ((changes.foldl change s).list aKey).filter
        (·.cb ∉ toRemove returns node.event.cbs) ∧
      (after.cbs aKey = none ↔ after.list aKey = []) ∧
      ∀ k, k ≠ aKey → after.cbs k = (changes.foldl change s).cbs k := by
  have hserved := fun after => served_iff after aKey returns h (h.changes changes)
  rw [list_of_some hnode] at hserved
  unfold Serves
  rw [hr, list_of_some hnode]
  cases r with
  | error e =>
    refine iff_of_false ?_ ?_
    · rintro ⟨after, called, hok, -⟩
      cases hok
    · rintro ⟨after, hok, -⟩
      cases hok
  | ok t =>
    constructor
    · rintro ⟨after, called, hok, hs⟩
      cases hok
      exact ⟨t, rfl, (hserved t).1 hs⟩
    · rintro ⟨after, hok, hs⟩
      cases hok
      exact ⟨t, _, rfl, (hserved t).2 hs⟩

omit [DecidableEq κ] in
/-- The table of the others is as it has to be, when nothing is merged into it. -/
theorem unmerged_iff (gone : List β) :
    (live.list aKey = (live.list aKey).filter (·.cb ∉ gone) ∧
      (live.cbs aKey = none ↔ live.list aKey = [])) ↔
      ∀ node ∈ live.cbs aKey, node.event.cbs ≠ [] ∧ ∀ c ∈ node.event.cbs, c.cb ∉ gone := by
  cases hnode : live.cbs aKey with
  | none =>
    rw [list_of_none hnode]
    exact iff_of_true ⟨rfl, iff_of_true rfl rfl⟩ fun node hmem => nomatch hmem
  | some node =>
    rw [list_of_some hnode]
    constructor
    · rintro ⟨hlist, habsent⟩ _ ⟨⟩
      refine ⟨fun hcbs => (nomatch habsent.2 hcbs), fun c hc => ?_⟩
      simpa using List.filter_eq_self.1 hlist.symm c hc
    · intro hnodes
      obtain ⟨hcbs, hgone⟩ := hnodes node rfl
      exact ⟨(List.filter_eq_self.2 fun c hc => by simpa using hgone c hc).symm,
        iff_of_false (fun heq => nomatch heq) hcbs⟩

/-- The table that `MCall` merges its removals into is as it has to be. -/
theorem merged_iff {node : Node β} (he : Ordered node.event.cbs) (hlive : live.AllOrdered)
    (was : BitVec 32) (returns : β → CbRval) :
    (∃ after, live.synchronize aKey was node (node.event.mCall returns).1 = .ok after ∧
      after.list aKey = (live.list aKey).filter (·.cb ∉ toRemove returns node.event.cbs) ∧
      (after.cbs aKey = none ↔ after.list aKey = []) ∧
      ∀ k, k ≠ aKey → after.cbs k = live.cbs k) ↔
    (live.numberOfArrayChange = was → ∃ node' ∈ live.cbs aKey, node'.number = node.number) ∧
      ∀ node' ∈ live.cbs aKey, node'.event.numberOfArrayChange = node.event.numberOfArrayChange →
        node'.event.cbs.filter (·.cb ∉ toRemove returns node.event.cbs) =
          node.event.cbs.filter (·.cb ∉ toRemove returns node.event.cbs) := by
  unfold synchronize
  cases hnode : live.cbs aKey with
  | none =>
    dsimp only
    by_cases hwas : live.numberOfArrayChange = was
    · rw [if_neg (not_not.2 hwas)]
      refine iff_of_false ?_ fun hfound => ?_
      · rintro ⟨after, hok, -⟩
        cases hok
      · obtain ⟨node', hmem, -⟩ := hfound.1 hwas
        cases hmem
    · rw [if_pos hwas]
      have hempty := list_of_none hnode
      refine iff_of_true ⟨live, rfl, ?_, iff_of_true hnode hempty, fun _ _ => rfl⟩
        ⟨fun heq => absurd heq hwas, fun node' hmem => nomatch hmem⟩
      rw [hempty]
      rfl
  | some node' =>
    dsimp only
    by_cases hfound : live.numberOfArrayChange ≠ was ∨ node'.number = node.number
    · have hkept : live.numberOfArrayChange = was →
          ∃ n ∈ some node', n.number = node.number := fun heq =>
        ⟨node', rfl, hfound.resolve_left fun hne => hne heq⟩
      have hcbs := mSynchronizeChange_cbs he (list_of_some hnode ▸ hlive aKey) returns
      rw [if_pos hfound]
      constructor
      · rintro ⟨after, hok, hlist, -, -⟩
        cases hok
        refine ⟨hkept, ?_⟩
        rintro _ ⟨⟩ hnumber
        rw [setOrErase_list, hcbs, if_pos hnumber, list_of_some hnode] at hlist
        exact hlist.symm
      · rintro ⟨-, hsame⟩
        refine ⟨_, rfl, ?_, setOrErase_absent .., fun k hk => setOrErase_cbs_of_ne _ _ hk⟩
        rw [setOrErase_list, hcbs, list_of_some hnode]
        split_ifs with hnumber
        · exact (hsame node' rfl hnumber).symm
        · rfl
    · rw [if_neg hfound]
      refine iff_of_false ?_ fun hsame => hfound ?_
      · rintro ⟨after, hok, -⟩
        cases hok
      · by_cases hwas : live.numberOfArrayChange = was
        · obtain ⟨_, ⟨⟩, hnumber⟩ := hsame.1 hwas
          exact .inr hnumber
        · exact .inl hwas

theorem serves_iff_told (h : s.AllOrdered) :
    s.Serves aKey returns changes ↔ s.Told aKey returns changes := by
  unfold Told
  dsimp only
  cases hnode : s.cbs aKey with
  | none => exact serves_iff_of_none h hnode
  | some node =>
    rw [serves_iff_of_some h hnode (mCall_of_some hnode)]
    dsimp only
    split_ifs with hzero
    · rw [← unmerged_iff]
      constructor
      · rintro ⟨after, hok, hlist, habsent, -⟩
        cases hok
        exact ⟨hlist, habsent⟩
      · rintro ⟨hlist, habsent⟩
        exact ⟨_, rfl, hlist, habsent, fun _ _ => rfl⟩
    · exact merged_iff (h.event hnode) (h.changes changes) _ returns

def Keeps (aKey : κ) : List (Change κ β) → Events κ β → Prop
  | [], _ => True
  | c :: changes, s => (s.change c).list aKey ≠ [] ∧ Keeps aKey changes (s.change c)

theorem change_counted (c : Change κ β) {node : Node β} (hnode : s.cbs aKey = some node)
    (hkeeps : (s.change c).list aKey ≠ []) : ∃ node' n, (s.change c).cbs aKey = some node' ∧
      node'.number = node.number ∧ n ≤ 1 ∧ Counted node.event node'.event n := by
  by_cases hkey : aKey = c.key
  · cases c with
    | add k aCb aPrior =>
      obtain rfl : aKey = k := hkey
      obtain ⟨n, hn, hcount⟩ := node.event.counted_mAdd aCb aPrior
      rw [change, mAdd, hnode]
      exact ⟨_, n, set_cbs_self node _, rfl, hn, hcount⟩
    | erase k aCb =>
      obtain rfl : aKey = k := hkey
      rw [change, mErase, hnode] at hkeeps ⊢
      dsimp only at hkeeps ⊢
      split_ifs at hkeeps ⊢ with herased
      · obtain ⟨n, hn, hcount⟩ := node.event.counted_mErase aCb
        rw [setOrErase_list] at hkeeps
        exact ⟨_, n, (setOrErase_cbs_self node _).trans (if_neg hkeeps), rfl, hn, hcount⟩
      · exact ⟨node, 0, hnode, rfl, Nat.zero_le 1, counted_self _⟩
    | changePrior k aCb aPrior =>
      obtain rfl : aKey = k := hkey
      obtain ⟨n, hn, hcount⟩ := node.event.counted_mChangePrior aCb aPrior
      rw [change, mChangePrior, hnode]
      exact ⟨_, n, set_cbs_self node _, rfl, hn, hcount⟩
    | clear k =>
      obtain rfl : aKey = k := hkey
      rw [change, mClear, hnode] at hkeeps
      exact absurd (list_of_some (set_cbs_self node _)) hkeeps
  · exact ⟨node, 0, (change_cbs_of_ne c hkey).trans hnode, rfl, Nat.zero_le 1, counted_self _⟩

theorem changes_counted (changes : List (Change κ β)) {node : Node β}
    (hnode : s.cbs aKey = some node) (hkeeps : Keeps aKey changes s) :
    ∃ node' n, (changes.foldl change s).cbs aKey = some node' ∧ node'.number = node.number ∧
      n ≤ changes.length ∧ Counted node.event node'.event n ∧
      (changes = [] ∨ node'.event.cbs ≠ []) := by
  induction changes generalizing s node with
  | nil =>
    exact ⟨node, 0, hnode, rfl, Nat.le_refl 0, counted_self _, .inl rfl⟩
  | cons c changes ih =>
    obtain ⟨hfirst, hrest⟩ := hkeeps
    obtain ⟨node₁, n₁, hnode₁, hnumber₁, hn₁, hcount₁, hsame₁⟩ := change_counted c hnode hfirst
    obtain ⟨node', n, hnode', hnumber, hn, ⟨hcount, hsame⟩, hcbs⟩ := ih hnode₁ hrest
    refine ⟨node', n₁ + n, hnode', hnumber.trans hnumber₁, ?_, ⟨?_, fun hzero => ?_⟩, .inr ?_⟩
    · rw [List.length_cons]
      omega
    · rw [hcount, hcount₁, BitVec.ofNat_add, BitVec.add_assoc]
    · rw [hsame (by omega), hsame₁ (by omega)]
    · rcases hcbs with rfl | hcbs
      · exact list_of_some hnode' ▸ hfirst
      · exact hcbs

/-- The counters tell the lists, as long as the key keeps callbacks and does not change too often
    during one call. -/
theorem told_of_keeps {node : Node β} (hnode : s.cbs aKey = some node)
    (hcbs : node.event.cbs ≠ []) (hkeeps : Keeps aKey changes s) (hfew : changes.length < 2 ^ 32)
    (hgone : (toRemove returns node.event.cbs).length < 2 ^ 32) :
    s.Told aKey returns changes := by
  obtain ⟨node', n, hnode', hnumber, hn, ⟨hcount, hsame⟩, hleft⟩ :=
    changes_counted changes hnode hkeeps
  unfold Told
  dsimp only
  rw [hnode, hnode']
  dsimp only
  split_ifs with hzero
  · rw [Nat.mod_eq_of_lt hgone, List.length_eq_zero_iff] at hzero
    rintro _ ⟨⟩
    rw [hzero]
    refine ⟨?_, fun c _ => List.not_mem_nil⟩
    rcases hleft with rfl | hleft
    · cases hnode'.symm.trans hnode
      exact hcbs
    · exact hleft
  · refine ⟨fun _ => ⟨node', rfl, hnumber⟩, ?_⟩
    rintro _ ⟨⟩ heq
    rw [hcount, BitVec.add_right_eq_self, ← BitVec.toNat_inj, BitVec.toNat_ofNat,
      Nat.mod_eq_of_lt (by omega)] at heq
    rw [hsame heq]

theorem AllOrdered.synchronize {t : Events κ β} {was : BitVec 32} {node : Node β}
    (h : s.AllOrdered) (he : Ordered node.event.cbs)
    (ht : s.synchronize aKey was node (node.event.mCall returns).1 = .ok t) : t.AllOrdered := by
  unfold Events.synchronize at ht
  split at ht
  next =>
    split_ifs at ht
    cases ht
    exact h
  next node' hnode' =>
    split_ifs at ht
    cases ht
    refine h.setOrErase node' _ ?_
    rw [mSynchronizeChange_cbs he (h.event hnode')]
    split_ifs
    · exact he.sublist List.filter_sublist
    · exact (h.event hnode').sublist List.filter_sublist

theorem AllOrdered.step (h : s.AllOrdered) (op : Step κ β) :
    Outcome (fun _ => True) AllOrdered (step op s) := by
  cases op with
  | change c => exact Outcome.ok (h.change c)
  | call aKey returns changes =>
    change Outcome _ _ ((s.mCall aKey returns changes).map Prod.fst)
    cases hnode : s.cbs aKey with
    | none =>
      unfold mCall
      rw [hnode]
      exact Outcome.ok (h.changes changes)
    | some node =>
      rw [mCall_of_some hnode]
      split_ifs with hzero
      · exact Outcome.ok (h.changes changes)
      · cases ht : (changes.foldl Events.change s).synchronize aKey s.numberOfArrayChange node
          (node.event.mCall returns).1 with
        | error e => exact trivial
        | ok t => exact Outcome.ok ((h.changes changes).synchronize (h.event hnode) ht)

theorem runAll_serves (history : List (Step κ β)) (hrun : runAll step history new = .ok s)
    (aKey : κ) (returns : β → CbRval) (changes : List (Change κ β)) :
    s.Serves aKey returns changes ↔ s.Told aKey returns changes := by
  have hevery : EveryStep step (fun _ _ => True) history (new : Events κ β) :=
    everyStep_of_forall (fun _ _ => trivial) history new
  have hordered := runAll_outcome (P := fun _ _ => True) (E := fun _ => True)
    (fun s op h _ => AllOrdered.step h op) (allOrdered_new (κ := κ) (β := β))
    hevery
  rw [hrun] at hordered
  exact serves_iff_told hordered

/-- Two callbacks of a key, the first of which is to be removed. -/
def twoCallbacks : List (Step ℕ ℕ) := [.change (.add 0 1 5), .change (.add 0 2 7)]

def firstRemoved (cb : ℕ) : CbRval := if cb = 1 then .remove else .safeIt

/-- Another callback is added while the callbacks run. -/
theorem runAll_serves_added : ∃ s, runAll step twoCallbacks new = .ok s ∧
    s.Serves 0 firstRemoved [.add 0 3 6] := by
  refine ⟨_, rfl, (runAll_serves twoCallbacks rfl 0 firstRemoved [.add 0 3 6]).2 ?_⟩
  decide

/-- The key goes with its last callback and comes back with another one, whose list has been
    changed as often as the list that was called. -/
theorem serves_false_of_created : ∃ s, runAll step [.change (.add 0 1 5)] new = .ok s ∧
    ¬ s.Serves 0 firstRemoved [.erase 0 1, .add 0 2 5] := by
  refine ⟨_, rfl, fun h => ?_⟩
  rw [serves_iff_told (allOrdered_new.change (.add 0 1 5))] at h
  revert h
  decide

end Events
end UdtKernel.Callbacks
