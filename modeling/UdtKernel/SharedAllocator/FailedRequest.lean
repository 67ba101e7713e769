import UdtKernel.SharedAllocator.Reserve
import UdtKernel.SharedAllocator.Contract

set_option autoImplicit false

/-! Requests for memory that cannot be served, and what they leave behind. -/

namespace UdtKernel.SharedAllocator
open UdtKernel.Lib

namespace Heap

variable {h h' : Heap} {n aOffset : ℕ} {aFromEnd : Bool}

theorem getFreeBlock_none (heq : h.getFreeBlock n aFromEnd aOffset = .ok (none, h')) :
    h' = h := by
  unfold getFreeBlock mGetFreeBlockFromBegin at heq
  cases aFromEnd with
  | true =>
    obtain ⟨nodes, -, heq⟩ := eq_ok_of_bind heq
    cases heq
    rfl
  | false =>
    obtain ⟨l, -, heq⟩ := eq_ok_of_bind heq
    by_cases hzero : aOffset = 0
    · rw [if_pos hzero] at heq
      exact (congrArg Prod.snd (Except.ok.inj heq)).symm
    · rw [if_neg hzero] at heq
      cases hbefore : lastBefore aOffset l with
      | mk first second =>
        rw [hbefore] at heq
        cases first with
        | none =>
          cases heq
          rfl
        | some f =>
          dsimp only at heq
          split_ifs at heq
          · cases heq
            rfl
          · cases heq
          · cases heq
            rfl
          · cases heq
            rfl
          · cases heq

/-- A block that is not found leaves the heap as it is. -/
theorem mMallocBlock_eq_none (heq : h.mMallocBlock n aFromEnd aOffset = .ok (none, h')) :
    h' = h := by
  unfold mMallocBlock at heq
  by_cases hzero : n = 0
  · rw [if_pos hzero] at heq
    cases heq
    rfl
  · rw [if_neg hzero] at heq
    dsimp only at heq
    by_cases hcount : h.freeBytesRemaining < roundUp n
    · rw [if_pos hcount] at heq
      cases heq
      rfl
    · rw [if_neg hcount] at heq
      obtain ⟨⟨nodes, h₁⟩, hnodes, heq⟩ := eq_ok_of_bind heq
      cases nodes with
      | none =>
        cases heq
        exact getFreeBlock_none hnodes
      | some nodes =>
        obtain ⟨x, -, heq⟩ := eq_ok_of_bind heq
        cases heq

end Heap

namespace Reserve

variable {r r' : Reserve} {n : ℕ}

/-- A block that the reserve does not have leaves it as it is. -/
theorem mMallocImpl_eq_none (heq : r.mMallocImpl n = .ok (none, r')) : r' = r := by
  unfold mMallocImpl mMallocBlockFromReserv at heq
  split_ifs at heq
  · cases heq
    rfl
  · dsimp only at heq
    split_ifs at heq
    · cases heq
      rfl
    · split at heq
      · cases heq
        rfl
      · obtain ⟨r₁, -, heq⟩ := eq_ok_of_bind heq
        cases heq
  · cases heq
    rfl
  · cases heq
    rfl

end Reserve

namespace Allocator

variable {s s' : Allocator} {n aOffset p : ℕ} {aFromEnd aUseReserv : Bool}

theorem setReserve_reserveOf (p : ℕ) : s.setReserve p (s.reserveOf p) = s := by
  unfold setReserve reserveOf
  rw [Function.update_eq_self]

theorem mMallocBlock_ok {q : Option ℕ}
    (heq : s.mMallocBlock n aFromEnd aOffset = .ok (q, s')) :
    ∃ h', s.heap.mMallocBlock n aFromEnd aOffset = .ok (q, h') ∧ s' = { s with heap := h' } := by
  obtain ⟨⟨q', h'⟩, hmalloc, heq⟩ := eq_ok_of_bind heq
  cases heq
  exact ⟨h', hmalloc, rfl⟩

theorem mMallocBlock_eq_none (heq : s.mMallocBlock n aFromEnd aOffset = .ok (none, s')) :
    s' = s := by
  obtain ⟨h', hmalloc, rfl⟩ := mMallocBlock_ok heq
  rw [Heap.mMallocBlock_eq_none hmalloc]

theorem mallocFromHeap_eq_none (heq : s.mallocFromHeap p n aOffset = .ok (none, s')) :
    s' = s := by
  unfold mallocFromHeap at heq
  split_ifs at heq
  · obtain ⟨⟨q, s₁⟩, hmalloc, heq⟩ := eq_ok_of_bind heq
    cases q with
    | none =>
      cases heq
      exact mMallocBlock_eq_none hmalloc
    | some q =>
      obtain ⟨r, -, heq⟩ := eq_ok_of_bind heq
      cases heq
  · cases heq
    rfl

theorem mallocFor_eq_none (heq : s.mallocFor p n aOffset aUseReserv = .ok (none, s')) :
    s' = s := by
  obtain ⟨⟨q, s₁⟩, hmalloc, hrest⟩ := eq_ok_of_bind heq
  cases q with
  | some q => cases hrest
  | none =>
    obtain rfl := mallocFromHeap_eq_none hmalloc
    dsimp only at hrest
    split_ifs at hrest
    · obtain ⟨⟨q, r⟩, hreserve, hrest⟩ := eq_ok_of_bind hrest
      cases hrest
      rw [Reserve.mMallocImpl_eq_none hreserve, setReserve_reserveOf]
    · cases hrest
      rfl

/-- Everything that is shared is as before. -/
structure Unchanged (s s' : Allocator) : Prop where
  heap : s'.heap = s.heap
  processes : s'.processes = s.processes
  process : ∀ p ∈ s.processes, s'.process p = s.process p
  free : ∀ aP, s'.heap.mFreeBlock aP = s.heap.mFreeBlock aP

/-- The request returns no memory, meets no null block and changes nothing. -/
def Harmless (s : Allocator) (xWantedSize aOffset : ℕ) (aUseReserv : Bool) : Prop :=
  ∃ s', s.mMallocImpl xWantedSize aOffset aUseReserv = .ok (none, s') ∧ s.Unchanged s'

def ownNode (s : Allocator) : Option ℕ := s.currentProcess.or (s.mSearchProcessNode s.pid).1

/-- The heap has no block for the node of a process. -/
def NoProcessNode (s : Allocator) : Prop :=
  s.ownNode = none ∧ ∃ s', s.mMallocBlock defProcessSize true 0 = .ok (none, s')

def NoReserve (s : Allocator) : Prop :=
  s.ownNode = none ∧ 0 < s.reserv ∧
    ∃ p s₁ s₂, s.mMallocBlock defProcessSize true 0 = .ok (some p, s₁) ∧
      s₁.mMallocBlock (s.reserv % 2 ^ 32) true 0 = .ok (none, s₂)

/-- It has no block for the larger node that is needed. -/
def NoLargerNode (s : Allocator) : Prop :=
  ∃ p ∈ s.ownNode, (s.process p).isFull 1 = true ∧
    ∃ s', s.mMallocBlock ((s.process p).requredMemory 1) true 0 = .ok (none, s')

/-- A request that some block is missing for. -/
def Unserved (s : Allocator) (xWantedSize aOffset : ℕ) (aUseReserv : Bool) : Prop :=
  (∃ s', s.mMallocImpl xWantedSize aOffset aUseReserv = .ok (none, s')) ∨
    xWantedSize ≤ s.heap.maxSize ∧ (s.NoProcessNode ∨ s.NoReserve ∨ s.NoLargerNode)

/-- The size is refused at once, or the process is attached and its node has a slot left. -/
def Roomy (s : Allocator) (xWantedSize : ℕ) : Prop :=
  s.heap.maxSize < xWantedSize ∨ ∃ p ∈ s.currentProcess, (s.process p).isFull 1 = false

/-- The blocks tile the heap, and the nodes of the list are in blocks that are used. -/
def Sound (s : Allocator) : Prop :=
  ∃ allocated, HeapState.Laid ⟨s.heap, allocated⟩ ∧ ∀ p ∈ s.processes, p ∈ allocated

theorem mGetOrRealocateProcessNode_of_room (hroom : (s.process p).isFull 1 = false) :
    s.mGetOrRealocateProcessNode p 1 = .ok (p, s) := by
  unfold mGetOrRealocateProcessNode
  dsimp only
  rw [hroom]
  rfl

theorem mGetOrCreateProcessNode_of_roomy (hcurrent : p ∈ s.currentProcess)
    (hroom : (s.process p).isFull 1 = false) : s.mGetOrCreateProcessNode 1 = .ok (p, s) := by
  have hcurrent : s.currentProcess = some p := hcurrent
  unfold mGetOrCreateProcessNode
  rw [hcurrent]
  dsimp only
  rw [mGetOrRealocateProcessNode_of_room hroom]
  change Except.ok (p, { s with currentProcess := some p }) = _
  rw [← hcurrent]

theorem Roomy.harmless (hroomy : s.Roomy n) (hunserved : s.Unserved n aOffset aUseReserv) :
    s.Harmless n aOffset aUseReserv := by
  by_cases hlarge : s.heap.maxSize < n
  · refine ⟨s, ?_, rfl, rfl, fun _ _ => rfl, fun _ => rfl⟩
    unfold mMallocImpl
    rw [if_pos hlarge]
  · obtain ⟨p, hcurrent, hroom⟩ := hroomy.resolve_left hlarge
    have hown : s.ownNode = some p := by
      unfold ownNode
      rw [show s.currentProcess = some p from hcurrent, Option.some_or]
    rcases hunserved with ⟨s', hnone⟩ | ⟨-, ⟨hno, -⟩ | ⟨hno, -⟩ | ⟨q, hq, hfull, -⟩⟩
    · have hsame := hnone
      unfold mMallocImpl at hsame
      rw [if_neg hlarge, mGetOrCreateProcessNode_of_roomy hcurrent hroom] at hsame
      obtain rfl := mallocFor_eq_none hsame
      exact ⟨s', hnone, rfl, rfl, fun _ _ => rfl, fun _ => rfl⟩
    · rw [hown] at hno
      cases hno
    · rw [hown] at hno
      cases hno
    · rw [hown] at hq
      cases hq
      rw [hroom] at hfull
      cases hfull

/-- No node of the list is where `MMallocBlock` finds memory. -/
theorem Sound.notMem (hs : s.Sound) (hpos : 0 < n) (hn : n < 2 ^ 63)
    (hmalloc : s.mMallocBlock n true 0 = .ok (some p, s')) : p ∉ s.processes := by
  obtain ⟨allocated, hlaid, hprocesses⟩ := hs
  obtain ⟨h', hheap, -⟩ := mMallocBlock_ok hmalloc
  obtain ⟨t, -, -, hcontract⟩ := @HeapState.contract_step _ hlaid (.malloc n true 0)
    ⟨hn, fun _ => rfl⟩ (fun _ hbegin => nomatch hbegin)
  have hserved : Heap.Served s.heap h' allocated n 0 p := hcontract hpos _ hheap
  intro hmem
  have hpos' : 0 < sizeOfBlockNode := by decide
  have hdisjoint := hserved.allocated p (hprocesses p hmem)
  omega

/-- A larger node comes into the list at a place of its own. -/
theorem mGetOrRealocateProcessNode_of_full {q : ℕ} (hfull : (s.process p).isFull 1 = true)
    (heq : s.mGetOrRealocateProcessNode p 1 = .ok (q, s')) :
    q ∈ s'.processes ∧
      ∃ t, s.mMallocBlock ((s.process p).requredMemory 1) true 0 = .ok (some q, t) := by
  unfold mGetOrRealocateProcessNode at heq
  dsimp only at heq
  rw [if_pos hfull] at heq
  obtain ⟨⟨_new_p, t⟩, hmalloc, heq⟩ := eq_ok_of_bind heq
  cases _new_p with
  | none => cases heq
  | some _new_p =>
    obtain ⟨h', -, heq⟩ := eq_ok_of_bind heq
    cases heq
    exact ⟨List.mem_append_right _ List.mem_cons_self, t, hmalloc⟩

theorem Sound.changed_of_full (hs : s.Sound) {q : ℕ} (hfull : (s.process p).isFull 1 = true)
    (heq : s.mGetOrRealocateProcessNode p 1 = .ok (q, s')) : s'.processes ≠ s.processes := by
  obtain ⟨hmem, t, hmalloc⟩ := mGetOrRealocateProcessNode_of_full hfull heq
  intro hsame
  rw [hsame] at hmem
  refine hs.notMem ?_ ?_ hmalloc hmem
  · unfold ProcessNode.requredMemory sizeOfProcessNode
    omega
  · unfold ProcessNode.requredMemory sizeOfProcessNode sizeOfOffset
    omega

theorem mSearchProcessNode_some {aPid : ℕ} (hsearch : (s.mSearchProcessNode aPid).1 = some p) :
    p ∈ s.processes := by
  unfold mSearchProcessNode at hsearch
  rw [List.span_eq_takeWhile_dropWhile] at hsearch
  exact (List.dropWhile_sublist _).subset (List.mem_of_head? hsearch)

theorem mSearchProcessNode_none {aPid : ℕ} (hsearch : (s.mSearchProcessNode aPid).1 = none) :
    (s.mSearchProcessNode aPid).2 = s.processes := by
  unfold mSearchProcessNode at hsearch ⊢
  rw [List.span_eq_takeWhile_dropWhile] at hsearch ⊢
  have happend := List.takeWhile_append_dropWhile
    (p := fun p => (s.process p).pid != aPid) (l := s.processes)
  rw [List.head?_eq_none_iff.1 hsearch, List.append_nil] at happend
  exact happend

theorem mPutOffset_counts {t t' : ProcessNode} {w : Offset} {i : ℕ}
    (heq : t.mPutOffset w = .ok (i, t')) :
    t'.arraySize = t.arraySize ∧ t'.alloactionCount = (t.alloactionCount + 1) % 2 ^ 32 := by
  unfold ProcessNode.mPutOffset at heq
  dsimp only at heq
  by_cases hout : t.arraySize ≤ t.firstFree t.minFreeIndex
  · rw [if_pos hout] at heq
    cases heq
  · rw [if_neg hout] at heq
    cases heq
    exact ⟨rfl, rfl⟩

/-- A node that keeps the block of its reserve has slots left. -/
theorem mCreateReservForProcess_room (hzero : (s.process p).alloactionCount = 0)
    (heq : s.mCreateReservForProcess p = .ok s') : s'.processes = s.processes ∧
      (s'.process p).arraySize = (s.process p).arraySize ∧
      (s'.process p).alloactionCount ≤ 1 := by
  obtain ⟨⟨q, t⟩, hmalloc, heq⟩ := eq_ok_of_bind heq
  obtain ⟨h', -, rfl⟩ := mMallocBlock_ok hmalloc
  cases q with
  | none =>
    cases heq
    exact ⟨rfl, rfl, hzero.trans_le (Nat.zero_le 1)⟩
  | some q =>
    obtain ⟨r, hreserve, heq⟩ := eq_ok_of_bind heq
    cases heq
    obtain ⟨r₁, hkeep, hreserve⟩ := eq_ok_of_bind hreserve
    cases hreserve
    obtain ⟨⟨i, n'⟩, hput, hkeep⟩ := eq_ok_of_bind hkeep
    cases hkeep
    obtain ⟨hsize, hcount⟩ := mPutOffset_counts hput
    change _ = ((s.process p).alloactionCount + 1) % 2 ^ 32 at hcount
    rw [hzero] at hcount
    refine ⟨rfl, ?_, ?_⟩
    · unfold setReserve
      dsimp only
      rw [Function.update_self]
      exact hsize
    · unfold setReserve
      dsimp only
      rw [Function.update_self]
      exact hcount.trans_le (Nat.le_refl 1)

theorem isFull_new {t : ProcessNode} (hsize : t.arraySize = arraySizeFor defProcessSize)
    (hcount : t.alloactionCount ≤ 1) : t.isFull 1 = false := by
  have hthirty : arraySizeFor defProcessSize = 30 := by decide
  unfold ProcessNode.isFull
  rw [hsize, hthirty, Bool.and_eq_false_iff]
  right
  rw [decide_eq_false_iff_not]
  omega

/-- A process that is new comes to the end of the list, with slots left. -/
theorem mCreateProcessNode_some (hsearch : (s.mSearchProcessNode s.pid).1 = none)
    (heq : s.mCreateProcessNode = .ok (some p, s')) :
    s'.processes = s.processes ++ [p] ∧ (s'.process p).arraySize = arraySizeFor defProcessSize ∧
      (s'.process p).alloactionCount ≤ 1 := by
  unfold mCreateProcessNode at heq
  dsimp only at heq
  rw [mSearchProcessNode_none hsearch] at heq
  obtain ⟨⟨q, t⟩, hmalloc, heq⟩ := eq_ok_of_bind heq
  obtain ⟨h', -, rfl⟩ := mMallocBlock_ok hmalloc
  cases q with
  | none => cases heq
  | some q =>
    obtain ⟨u, hu, heq⟩ := eq_ok_of_bind heq
    cases heq
    refine ⟨rfl, ?_⟩
    change (u.process p).arraySize = _ ∧ (u.process p).alloactionCount ≤ 1
    have hself : Function.update s.process p (.new s.pid defProcessSize s.reserv) p =
      .new s.pid defProcessSize s.reserv := Function.update_self _ _ _
    unfold reservFor at hu
    split_ifs at hu
    · obtain ⟨-, hsize, hcount⟩ := mCreateReservForProcess_room (p := p)
        (congrArg ProcessNode.alloactionCount hself) hu
      exact ⟨hsize.trans (congrArg ProcessNode.arraySize hself), hcount⟩
    · cases hu
      exact ⟨congrArg ProcessNode.arraySize hself,
        (congrArg ProcessNode.alloactionCount hself).trans_le (Nat.zero_le 1)⟩

/-- Without room at hand the process list or a node of it changes. -/
theorem Sound.changed (hs : s.Sound)
    (hfull : ∀ p ∈ s.currentProcess, (s.process p).isFull 1 = true)
    (heq : s.mGetOrCreateProcessNode 1 = .ok (p, s')) : ¬ s.Unchanged s' := by
  intro hsame
  unfold mGetOrCreateProcessNode at heq
  cases hcurrent : s.currentProcess with
  | some c =>
    rw [hcurrent] at heq
    obtain ⟨⟨q, t⟩, hnode, heq⟩ := eq_ok_of_bind heq
    cases heq
    exact hs.changed_of_full (hfull c hcurrent) hnode hsame.processes
  | none =>
    rw [hcurrent] at heq
    obtain ⟨⟨first, t⟩, hfirst, heq⟩ := eq_ok_of_bind heq
    obtain ⟨⟨c, u⟩, hinc, heq⟩ := eq_ok_of_bind heq
    obtain ⟨⟨q, v⟩, hnode, heq⟩ := eq_ok_of_bind heq
    cases heq
    cases first with
    | none => cases hinc
    | some first =>
      cases hinc
      have hupdate : (t.setProcess c { t.process c with
          count := ((t.process c).count + 1) % 2 ^ 32 }).process c =
          { t.process c with count := ((t.process c).count + 1) % 2 ^ 32 } :=
        Function.update_self _ _ _
      cases hsearch : (s.mSearchProcessNode s.pid).1 with
      | some e =>
        unfold mSearchOrCreateProcessNode at hfirst
        rw [hsearch] at hfirst
        obtain ⟨hc, rfl⟩ := Prod.mk.inj (Except.ok.inj hfirst)
        rw [hc] at hsearch
        cases hroom : (({ s.process c with
            count := ((s.process c).count + 1) % 2 ^ 32 } : ProcessNode).isFull 1) with
        | true =>
          refine Sound.changed_of_full (s := s.setProcess c _) hs ?_ hnode hsame.processes
          rw [hupdate]
          exact hroom
        | false =>
          rw [mGetOrRealocateProcessNode_of_room (by rw [hupdate]; exact hroom)] at hnode
          obtain ⟨-, rfl⟩ := Prod.mk.inj (Except.ok.inj hnode)
          have hcount := congrArg ProcessNode.count
            (hupdate.symm.trans (hsame.process c (mSearchProcessNode_some hsearch)))
          dsimp only at hcount
          omega
      | none =>
        unfold mSearchOrCreateProcessNode at hfirst
        rw [hsearch] at hfirst
        obtain ⟨hlist, hsize, hcount⟩ := mCreateProcessNode_some hsearch hfirst
        rw [mGetOrRealocateProcessNode_of_room (by
          rw [hupdate]
          exact isFull_new hsize hcount)] at hnode
        cases hnode
        have hlength := congrArg List.length (hlist.symm.trans hsame.processes)
        rw [List.length_append, List.length_singleton] at hlength
        omega

theorem Harmless.roomy (h : s.Harmless n aOffset aUseReserv) (hs : s.Sound) : s.Roomy n := by
  by_contra hnot
  unfold Roomy at hnot
  push Not at hnot
  obtain ⟨hlarge, hfull⟩ := hnot
  obtain ⟨s', hnone, hsame⟩ := h
  unfold mMallocImpl at hnone
  rw [if_neg (Nat.not_lt.2 hlarge)] at hnone
  obtain ⟨⟨p, t⟩, hnode, hnone⟩ := eq_ok_of_bind hnone
  obtain rfl := mallocFor_eq_none hnone
  exact hs.changed (fun p hp => Bool.of_not_eq_false (hfull p hp)) hnode hsame

/-- A request that cannot be served is harmless if the process has a slot at hand, and only then. -/
theorem harmless_iff (hunserved : s.Unserved n aOffset aUseReserv) :
    (s.Roomy n → s.Harmless n aOffset aUseReserv) ∧
      (s.Sound → s.Harmless n aOffset aUseReserv → s.Roomy n) :=
  ⟨fun hroomy => hroomy.harmless hunserved, fun hs h => h.roomy hs⟩

/-- More than the heap has left, for the process that made it. -/
theorem harmless_iff_mCreateHeap : ∃ s, mCreateHeap 600 0 1 0 = .ok s ∧ s.Sound ∧
    s.Unserved 200 0 false ∧ s.Harmless 200 0 false ∧ s.Roomy 200 := by
  obtain ⟨s, hs, hsound, hresult, hroom⟩ : ∃ s, mCreateHeap 600 0 1 0 = .ok s ∧ s.Sound ∧
      (s.mMallocImpl 200 0 false).map Prod.fst = .ok none ∧
      ∃ p ∈ s.currentProcess, (s.process p).isFull 1 = false := by
    have hfresh : HeapState.Fresh 600 0 := ⟨by decide, by decide⟩
    have hcreate : (HeapState.create 600 0).Laid :=
      ⟨_, 0, _, _, Heap.more_zero.symm, HeapState.inv_create hfresh (by decide)⟩
    obtain ⟨t, ht, hlaid, -⟩ := @HeapState.contract_step _ hcreate
      (.malloc defProcessSize true 0) ⟨by decide, fun _ => rfl⟩ (fun _ hbegin => nomatch hbegin)
    cases ht
    exact ⟨_, rfl, ⟨_, hlaid, fun p hp => hp⟩, rfl, _, rfl, rfl⟩
  have hunserved : s.Unserved 200 0 false := by
    left
    cases hmalloc : s.mMallocImpl 200 0 false with
    | error e =>
      rw [hmalloc] at hresult
      cases hresult
    | ok x =>
      rw [hmalloc] at hresult
      exact ⟨x.2, congrArg (fun q => Except.ok (q, x.2)) (Except.ok.inj hresult)⟩
  have hharmless := (harmless_iff hunserved).1 (Or.inr hroom)
  exact ⟨s, hs, hsound, hunserved, hharmless, (harmless_iff hunserved).2 hsound hharmless⟩

/-- A second process, for whose node the heap has no block. -/
theorem harmless_false_of_processNode : ∃ s s', mCreateHeap 600 0 1 0 = .ok s ∧
    s.mInitFromCreatedHeap 2 0 = .ok s' ∧ s'.Unserved 8 0 false ∧ ¬ s'.Harmless 8 0 false := by
  refine ⟨_, _, rfl, rfl, Or.inr ⟨by decide, Or.inl ⟨rfl, _, rfl⟩⟩, ?_⟩
  rintro ⟨t, hnone, -⟩
  cases hnone

end Allocator

end UdtKernel.SharedAllocator
