import Mathlib.Data.List.Perm.Basic
import UdtKernel.DataObject.UserOperation
import UdtKernel.Lib.Run

set_option autoImplicit false

/-! User data is handled once and in the order of pushing. -/

namespace UdtKernel.DataObject
open UdtKernel.Lib

variable {α : Type}

/-- An operation, with the place of its thread if it does not wait in the queue. -/
abbrev Job (α : Type) := Operation × Option (Place α)

namespace Job

def queued (op : Operation) : Job α := (op, none)

def ofRunning (r : Running α) : Job α := (r.op, some r.place)

def batch (j : Job α) : List α := (j.2.map Place.batch).getD []

/-- What an entry is like when its operation stands there. -/
def Fits (e : UserOperation α) (j : Job α) : Prop :=
  match j.2 with
  | none => e.data ≠ []
  | some .started => e.data ≠ []
  | some (.taken data) => e.isWorking = true ∧ data ≠ []
  | some .called => e.isWorking = true
  | some .kept => e.isWorking = true ∧ e.data ≠ []

theorem Fits.busy {e : UserOperation α} {j : Job α} (h : j.Fits e) :
    e.isWorking = true ∨ e.data ≠ [] := by
  obtain ⟨op, place⟩ := j
  cases place with
  | none => exact Or.inr h
  | some place =>
    cases place with
    | started => exact Or.inr h
    | taken data => exact Or.inl h.1
    | called => exact Or.inl h
    | kept => exact Or.inl h.1

theorem Fits.push {e : UserOperation α} {j : Job α} (h : j.Fits e) (data : List α) :
    j.Fits { e with data := e.data ++ data } := by
  have hne : e.data ≠ [] → e.data ++ data ≠ [] := fun hdata hnil =>
    hdata (List.append_eq_nil_iff.1 hnil).1
  obtain ⟨op, place⟩ := j
  cases place with
  | none => exact hne h
  | some place =>
    cases place with
    | started => exact hne h
    | taken data => exact h
    | called => exact h
    | kept => exact ⟨h.1, hne h.2⟩

def stepsLeft (fifo : Descriptor → Option (UserOperation α)) (j : Job α) : ℕ :=
  let again := if ((fifo j.1.desc).map UserOperation.data).getD [] |>.isEmpty then 0 else 5
  match j.2 with
  | none => 4
  | some .started => 3
  | some (.taken _) => 2 + again
  | some .called => 1 + again
  | some .kept => 5

def allLeft (fifo : Descriptor → Option (UserOperation α)) (jobs : List (Job α)) : ℕ :=
  (jobs.map (stepsLeft fifo)).sum

theorem allLeft_perm {fifo : Descriptor → Option (UserOperation α)} {jobs jobs' : List (Job α)}
    (h : jobs.Perm jobs') : allLeft fifo jobs = allLeft fifo jobs' :=
  (h.map _).sum_nat

theorem allLeft_cons (fifo : Descriptor → Option (UserOperation α)) (j : Job α)
    (jobs : List (Job α)) : allLeft fifo (j :: jobs) = stepsLeft fifo j + allLeft fifo jobs :=
  rfl

theorem allLeft_append (fifo : Descriptor → Option (UserOperation α)) (jobs jobs' : List (Job α)) :
    allLeft fifo (jobs ++ jobs') = allLeft fifo jobs + allLeft fifo jobs' := by
  unfold allLeft
  rw [List.map_append, List.sum_append]

theorem stepsLeft_taken {fifo : Descriptor → Option (UserOperation α)} {e : UserOperation α}
    {op : Operation} (data : List α) (he : fifo op.desc = some e) (hdata : e.data = []) :
    stepsLeft fifo (op, some (.taken data)) = 2 := by
  simp [stepsLeft, he, hdata]

theorem stepsLeft_called {fifo : Descriptor → Option (UserOperation α)} {e : UserOperation α}
    {op : Operation} (he : fifo op.desc = some e) :
    stepsLeft fifo (op, some .called) = if e.data = [] then 1 else 6 := by
  by_cases hdata : e.data = []
  · simp [stepsLeft, he, hdata]
  · simp [stepsLeft, he, hdata]

end Job

/-- Every operation is the only one for its entry, and what is pushed for a descriptor was handled,
is in the hand of its operation or is stored, in this order. -/
structure Served (fifo : Descriptor → Option (UserOperation α)) (handled all : Descriptor → List α)
    (jobs : List (Job α)) : Prop where
  nodup : (jobs.map fun j => j.1.desc).Nodup
  entry : ∀ j ∈ jobs, ∃ e, fifo j.1.desc = some e ∧ e.node = j.1.node ∧ j.Fits e ∧
    all j.1.desc = handled j.1.desc ++ j.batch ++ e.data
  job : ∀ d e, fifo d = some e → ∃ j ∈ jobs, j.1.desc = d
  idle : ∀ d, fifo d = none → all d = handled d

namespace Served

variable {fifo fifo' : Descriptor → Option (UserOperation α)}
  {handled handled' all all' : Descriptor → List α} {jobs jobs' rest : List (Job α)} {j j' : Job α}

theorem perm (h : Served fifo handled all jobs) (hperm : jobs.Perm jobs') :
    Served fifo handled all jobs' := by
  refine ⟨(hperm.map _).nodup_iff.1 h.nodup, ?_, ?_, h.idle⟩
  · intro j hj
    exact h.entry j (hperm.mem_iff.2 hj)
  · intro d e hd
    obtain ⟨j, hj, rfl⟩ := h.job d e hd
    exact ⟨j, hperm.mem_iff.1 hj, rfl⟩

theorem desc_ne (h : Served fifo handled all (j :: rest)) {k : Job α} (hk : k ∈ rest) :
    k.1.desc ≠ j.1.desc := by
  have hnodup := h.nodup
  rw [List.map_cons, List.nodup_cons] at hnodup
  intro heq
  exact hnodup.1 (List.mem_map.2 ⟨k, hk, heq⟩)

/-- One operation goes on, with its entry. -/
theorem replace (h : Served fifo handled all (j :: rest)) (j' : Job α) {e : UserOperation α}
    (hop : j'.1 = j.1) (hfifo : ∀ d, d ≠ j.1.desc → fifo' d = fifo d)
    (hhandled : ∀ d, d ≠ j.1.desc → handled' d = handled d) (he : fifo' j.1.desc = some e)
    (hnode : e.node = j.1.node) (hfits : j'.Fits e)
    (hall : all j.1.desc = handled' j.1.desc ++ j'.batch ++ e.data) :
    Served fifo' handled' all (j' :: rest) := by
  refine ⟨?_, ?_, ?_, ?_⟩
  · have hnodup := h.nodup
    rw [List.map_cons] at hnodup ⊢
    rw [hop]
    exact hnodup
  · intro k hk
    rcases List.mem_cons.1 hk with rfl | hk
    · rw [hop]
      exact ⟨e, he, hnode, hfits, hall⟩
    · have hne := h.desc_ne hk
      rw [hfifo _ hne, hhandled _ hne]
      exact h.entry k (List.mem_cons_of_mem j hk)
  · intro d e' hd
    by_cases hdesc : d = j.1.desc
    · exact ⟨j', List.mem_cons_self, by rw [hop, hdesc]⟩
    · rw [hfifo d hdesc] at hd
      obtain ⟨k, hk, rfl⟩ := h.job d e' hd
      rcases List.mem_cons.1 hk with rfl | hk
      · exact absurd rfl hdesc
      · exact ⟨k, List.mem_cons_of_mem j' hk, rfl⟩
  · intro d hd
    by_cases hdesc : d = j.1.desc
    · rw [hdesc, he] at hd
      cases hd
    · rw [hfifo d hdesc] at hd
      rw [hhandled d hdesc]
      exact h.idle d hd

/-- An operation ends, and its entry is erased. -/
theorem remove (h : Served fifo handled all (j :: rest))
    (hfifo : ∀ d, d ≠ j.1.desc → fifo' d = fifo d) (he : fifo' j.1.desc = none)
    (hall : all j.1.desc = handled j.1.desc) : Served fifo' handled all rest := by
  refine ⟨?_, ?_, ?_, ?_⟩
  · have hnodup := h.nodup
    rw [List.map_cons, List.nodup_cons] at hnodup
    exact hnodup.2
  · intro k hk
    rw [hfifo _ (h.desc_ne hk)]
    exact h.entry k (List.mem_cons_of_mem j hk)
  · intro d e hd
    have hdesc : d ≠ j.1.desc := by
      intro hdesc
      rw [hdesc, he] at hd
      cases hd
    rw [hfifo d hdesc] at hd
    obtain ⟨k, hk, rfl⟩ := h.job d e hd
    rcases List.mem_cons.1 hk with rfl | hk
    · exact absurd rfl hdesc
    · exact ⟨k, hk, rfl⟩
  · intro d hd
    by_cases hdesc : d = j.1.desc
    · rw [hdesc]
      exact hall
    · rw [hfifo d hdesc] at hd
      exact h.idle d hd

/-- The others have as many steps left as before. -/
theorem allLeft_rest (h : Served fifo handled all (j :: rest))
    (hfifo : ∀ d, d ≠ j.1.desc → fifo' d = fifo d) :
    Job.allLeft fifo' rest = Job.allLeft fifo rest := by
  unfold Job.allLeft
  congr 1
  refine List.map_congr_left fun k hk => ?_
  unfold Job.stepsLeft
  rw [hfifo _ (h.desc_ne hk)]

/-- A push for a descriptor without an entry. -/
theorem add (h : Served fifo handled all jobs) (op : Operation) (e : UserOperation α)
    (hnone : fifo op.desc = none) (hfifo : ∀ d, d ≠ op.desc → fifo' d = fifo d)
    (hall : ∀ d, d ≠ op.desc → all' d = all d) (he : fifo' op.desc = some e)
    (hnode : e.node = op.node) (hdata : e.data ≠ [])
    (hpush : all' op.desc = all op.desc ++ e.data) :
    Served fifo' handled all' (Job.queued op :: jobs) := by
  have hne : ∀ k ∈ jobs, k.1.desc ≠ op.desc := by
    intro k hk hdesc
    obtain ⟨e', he', -⟩ := h.entry k hk
    rw [hdesc, hnone] at he'
    cases he'
  refine ⟨?_, ?_, ?_, ?_⟩
  · rw [List.map_cons, List.nodup_cons]
    refine ⟨?_, h.nodup⟩
    intro hmem
    obtain ⟨k, hk, hdesc⟩ := List.mem_map.1 hmem
    exact hne k hk hdesc
  · intro k hk
    rcases List.mem_cons.1 hk with rfl | hk
    · refine ⟨e, he, hnode, hdata, ?_⟩
      change all' op.desc = handled op.desc ++ [] ++ e.data
      rw [hpush, h.idle _ hnone, List.append_nil]
    · rw [hfifo _ (hne k hk), hall _ (hne k hk)]
      exact h.entry k hk
  · intro d e' hd
    by_cases hdesc : d = op.desc
    · exact ⟨Job.queued op, List.mem_cons_self, hdesc.symm⟩
    · rw [hfifo d hdesc] at hd
      obtain ⟨k, hk, rfl⟩ := h.job d e' hd
      exact ⟨k, List.mem_cons_of_mem _ hk, rfl⟩
  · intro d hd
    by_cases hdesc : d = op.desc
    · rw [hdesc, he] at hd
      cases hd
    · rw [hfifo d hdesc] at hd
      rw [hall d hdesc]
      exact h.idle d hd

/-- A push for a descriptor with an entry. -/
theorem push (h : Served fifo handled all jobs) (data : List α) {desc : Descriptor}
    {e : UserOperation α} (hsome : fifo desc = some e) (hfifo : ∀ d, d ≠ desc → fifo' d = fifo d)
    (hall : ∀ d, d ≠ desc → all' d = all d)
    (he : fifo' desc = some { e with data := e.data ++ data })
    (hpush : all' desc = all desc ++ data) : Served fifo' handled all' jobs := by
  refine ⟨h.nodup, ?_, ?_, ?_⟩
  · intro k hk
    by_cases hdesc : k.1.desc = desc
    · obtain ⟨e', he', hnode, hfits, hk⟩ := h.entry k hk
      rw [hdesc, hsome] at he'
      cases he'
      refine ⟨{ e with data := e.data ++ data }, ?_, hnode, hfits.push data, ?_⟩
      · rw [hdesc, he]
      · rw [hdesc] at hk ⊢
        rw [hpush, hk, List.append_assoc]
    · rw [hfifo _ hdesc, hall _ hdesc]
      exact h.entry k hk
  · intro d e' hd
    by_cases hdesc : d = desc
    · rw [hdesc]
      exact h.job desc e hsome
    · rw [hfifo d hdesc] at hd
      exact h.job d e' hd
  · intro d hd
    by_cases hdesc : d = desc
    · rw [hdesc, he] at hd
      cases hd
    · rw [hfifo d hdesc] at hd
      rw [hall d hdesc]
      exact h.idle d hd

end Served

namespace State

variable {s s' : State α} {all : Descriptor → List α}

def jobs (s : State α) : List (Job α) := s.queue.map Job.queued ++ s.running.map Job.ofRunning

def Serves (s : State α) (all : Descriptor → List α) : Prop :=
  Served s.userDataFifo s.handled all s.jobs

def KeepsData (s s' : State α) : Prop :=
  ∀ d e, s.userDataFifo d = some e → e.data ≠ [] →
    ∃ e', s'.userDataFifo d = some e' ∧ e'.node = e.node

theorem KeepsData.of_eq (h : s'.userDataFifo = s.userDataFifo) : s.KeepsData s' := by
  intro d e hd _
  exact ⟨e, by rw [h, hd], rfl⟩

/-- Only one entry changes, and it stays or is empty. -/
theorem KeepsData.of_ne {desc : Descriptor}
    (hfifo : ∀ d, d ≠ desc → s'.userDataFifo d = s.userDataFifo d)
    (h : ∀ e, s.userDataFifo desc = some e → e.data ≠ [] →
      ∃ e', s'.userDataFifo desc = some e' ∧ e'.node = e.node) : s.KeepsData s' := by
  intro d e hd hdata
  by_cases hdesc : d = desc
  · rw [hdesc] at hd ⊢
    exact h e hd hdata
  · exact ⟨e, by rw [hfifo d hdesc, hd], rfl⟩

/-- The steps that the threads do, if nothing more is pushed. -/
def work (s : State α) : ℕ := Job.allLeft s.userDataFifo s.jobs

structure Went (s s' : State α) (all : Descriptor → List α) : Prop where
  serves : s'.Serves all
  keeps : s.KeepsData s'
  work : s'.work + 1 = s.work

theorem work_of_perm (new : List (Job α)) {rest : List (Job α)} {j : Job α} (h : s.Serves all)
    (hjobs : s.jobs.Perm (j :: rest)) (hjobs' : s'.jobs.Perm (new ++ rest))
    (hfifo : ∀ d, d ≠ j.1.desc → s'.userDataFifo d = s.userDataFifo d)
    (hless : Job.allLeft s'.userDataFifo new + 1 = Job.stepsLeft s.userDataFifo j) :
    s'.work + 1 = s.work := by
  have hrest := (h.perm hjobs).allLeft_rest hfifo
  unfold work
  rw [Job.allLeft_perm hjobs, Job.allLeft_perm hjobs', Job.allLeft_append, Job.allLeft_cons, hrest]
  omega

theorem serves_init : (init : State α).Serves fun _ => [] := by
  refine ⟨List.nodup_nil, ?_, ?_, fun _ _ => rfl⟩
  · intro j hj
    cases hj
  · intro d e hd
    cases hd

def followed (all : Descriptor → List α) (desc : Descriptor) (data : List α) :
    Descriptor → List α :=
  Function.update all desc (all desc ++ data)

theorem mPush_served (h : s.Serves all) (desc : Descriptor) {aVal : List α} (hval : aVal ≠ []) :
    ∃ s', s.mPush desc aVal = .ok s' ∧ s'.Serves (followed all desc aVal) ∧ s.KeepsData s' := by
  have hne : ∀ data : List α, data ++ aVal ≠ [] := fun data hnil =>
    hval (List.append_eq_nil_iff.1 hnil).2
  unfold mPush
  cases hfifo : s.userDataFifo desc with
  | none =>
    refine ⟨_, if_neg (hne []), ?_, ?_⟩
    · have hadd := Served.add h ⟨desc, s.nextNode⟩ ⟨s.nextNode, aVal, false⟩ hfifo
        (fun d hd => Function.update_of_ne hd _ _) (fun d hd => Function.update_of_ne hd _ _)
        (Function.update_self _ _ _) rfl hval (Function.update_self _ _ _)
      refine hadd.perm ?_
      let op : Operation := ⟨desc, s.nextNode⟩
      change (Job.queued op :: (s.queue.map Job.queued ++ _)).Perm
        ((s.queue ++ [op]).map Job.queued ++ _)
      rw [List.map_append, List.append_assoc]
      exact List.perm_middle.symm
    · exact KeepsData.of_ne (fun d hd => Function.update_of_ne hd _ _) fun e he => by
        rw [hfifo] at he
        cases he
  | some e =>
    obtain ⟨j, hj, hdesc⟩ := h.job desc e hfifo
    obtain ⟨e', he', -, hfits, -⟩ := h.entry j hj
    rw [hdesc, hfifo] at he'
    cases he'
    have hcall : (!e.isWorking && e.data.isEmpty) = false := by
      rcases hfits.busy with hbusy | hdata
      · rw [hbusy]
        rfl
      · rw [List.isEmpty_eq_false_iff.2 hdata, Bool.and_false]
    refine ⟨_, if_neg (hne e.data), ?_, ?_⟩
    · have hpush := Served.push h aVal hfifo
        (fun d hd => Function.update_of_ne hd _ _) (fun d hd => Function.update_of_ne hd _ _)
        (Function.update_self _ _ _) (Function.update_self _ _ _)
      have hqueue : (if (!e.isWorking && e.data.isEmpty) = true then s.queue ++ [⟨desc, e.node⟩]
          else s.queue) = s.queue := by
        rw [hcall]
        rfl
      refine hpush.perm (List.Perm.of_eq ?_)
      exact congrArg (fun q => q.map Job.queued ++ s.running.map Job.ofRunning) hqueue.symm
    · exact KeepsData.of_ne (fun d hd => Function.update_of_ne hd _ _) fun e₀ he₀ _ => by
        rw [hfifo] at he₀
        cases he₀
        exact ⟨_, Function.update_self _ _ _, rfl⟩

theorem start_went {i : ℕ} {op : Operation} (h : s.Serves all) (hop : s.queue[i]? = some op) :
    ∃ s', s.start i = .ok s' ∧ s.Went s' all := by
  unfold start
  rw [hop]
  obtain ⟨hi, hget⟩ := List.getElem?_eq_some_iff.1 hop
  have hjobs : s.jobs.Perm (Job.queued op ::
      ((s.queue.eraseIdx i).map Job.queued ++ s.running.map Job.ofRunning)) := by
    have hqueue := ((List.getElem_cons_eraseIdx_perm hi).symm.map Job.queued).append_right
      (s.running.map Job.ofRunning)
    rw [hget] at hqueue
    exact hqueue
  let x : Running α := ⟨op, .started⟩
  have hjobs' : (Job.ofRunning x ::
      ((s.queue.eraseIdx i).map Job.queued ++ s.running.map Job.ofRunning)).Perm
      ((s.queue.eraseIdx i).map Job.queued ++ (s.running ++ [x]).map Job.ofRunning) := by
    rw [List.map_append, ← List.append_assoc]
    exact (List.perm_append_singleton _ _).symm
  have hfirst := h.perm hjobs
  obtain ⟨e, he, hnode, hfits, hall⟩ := hfirst.entry _ List.mem_cons_self
  have hgoes := hfirst.replace (Job.ofRunning x) rfl (fun _ _ => rfl) (fun _ _ => rfl) he hnode
    hfits hall
  exact ⟨_, rfl, hgoes.perm hjobs', KeepsData.of_eq rfl,
    work_of_perm [Job.ofRunning x] h hjobs hjobs'.symm (fun _ _ => rfl) rfl⟩

/-- The operation of a thread, before all others. -/
theorem jobs_perm {r : ℕ} {x : Running α} (hr : s.running[r]? = some x) :
    s.jobs.Perm (Job.ofRunning x ::
      (s.queue.map Job.queued ++ (s.running.eraseIdx r).map Job.ofRunning)) := by
  obtain ⟨hlt, hget⟩ := List.getElem?_eq_some_iff.1 hr
  have hrunning := ((List.getElem_cons_eraseIdx_perm hlt).symm.map Job.ofRunning).append_left
    (s.queue.map Job.queued)
  rw [hget] at hrunning
  exact hrunning.trans List.perm_middle

theorem jobs_set_perm {r : ℕ} {x y : Running α} (hr : s.running[r]? = some x) :
    (Job.ofRunning y :: (s.queue.map Job.queued ++
      (s.running.eraseIdx r).map Job.ofRunning)).Perm
      (s.queue.map Job.queued ++ (s.running.set r y).map Job.ofRunning) := by
  obtain ⟨hlt, -⟩ := List.getElem?_eq_some_iff.1 hr
  have hrunning := ((List.set_perm_cons_eraseIdx hlt y).map Job.ofRunning).append_left
    (s.queue.map Job.queued)
  exact (hrunning.trans List.perm_middle).symm

/-- A thread finds the entry of its operation. -/
theorem served_at {r : ℕ} {x : Running α} (h : s.Serves all) (hr : s.running[r]? = some x) :
    Served s.userDataFifo s.handled all (Job.ofRunning x ::
      (s.queue.map Job.queued ++ (s.running.eraseIdx r).map Job.ofRunning)) ∧
    ∃ e, s.userDataFifo x.op.desc = some e ∧ s.deref x.op = .ok e ∧ e.node = x.op.node ∧
      (Job.ofRunning x).Fits e ∧
      all x.op.desc = s.handled x.op.desc ++ x.place.batch ++ e.data := by
  have hfirst := h.perm (jobs_perm hr)
  obtain ⟨e, he, hnode, hfits, hall⟩ := hfirst.entry _ List.mem_cons_self
  refine ⟨hfirst, e, he, ?_, hnode, hfits, hall⟩
  have hderef : s.userDataFifo x.op.desc = some e := he
  unfold deref
  rw [hderef]
  exact if_pos hnode

theorem take_went {r : ℕ} {op : Operation} (h : s.Serves all)
    (hr : s.running[r]? = some ⟨op, .started⟩) :
    ∃ s', s.take r op = .ok s' ∧ s.Went s' all := by
  obtain ⟨hfirst, e, he, hderef, hnode, hfits, hall⟩ := served_at h hr
  have hdata : e.data ≠ [] := hfits
  unfold take
  rw [hderef]
  refine ⟨_, if_neg hdata, ?_, ?_, ?_⟩
  · have hgoes := hfirst.replace (Job.ofRunning ⟨op, .taken e.data⟩)
      (e := { e with data := [], isWorking := true }) rfl
      (fun d hd => Function.update_of_ne hd _ _) (fun _ _ => rfl) (Function.update_self _ _ _)
      hnode ⟨rfl, hdata⟩ (by
        change all op.desc = s.handled op.desc ++ e.data ++ []
        rw [hall, List.append_nil]
        change s.handled op.desc ++ [] ++ e.data = _
        rw [List.append_nil])
    exact hgoes.perm (jobs_set_perm hr)
  · exact KeepsData.of_ne (fun d hd => Function.update_of_ne hd _ _) fun e₀ he₀ _ => by
      rw [he] at he₀
      cases he₀
      exact ⟨_, Function.update_self _ _ _, rfl⟩
  · refine work_of_perm [Job.ofRunning ⟨op, .taken e.data⟩] h (jobs_perm hr)
      (jobs_set_perm hr).symm (fun d hd => Function.update_of_ne hd _ _) ?_
    have hleft := Job.stepsLeft_taken e.data (Function.update_self op.desc
      (some { e with data := [], isWorking := true }) s.userDataFifo) rfl
    exact congrArg (· + 1) hleft

theorem call_went {r : ℕ} {op : Operation} {data : List α} (h : s.Serves all)
    (hr : s.running[r]? = some ⟨op, .taken data⟩) : s.Went (s.call r op data) all := by
  obtain ⟨hfirst, e, he, -, hnode, hfits, hall⟩ := served_at h hr
  have hgoes : Served s.userDataFifo
      (Function.update s.handled op.desc (s.handled op.desc ++ data)) all
      (Job.ofRunning ⟨op, .called⟩ ::
        (s.queue.map Job.queued ++ (s.running.eraseIdx r).map Job.ofRunning)) :=
    hfirst.replace (Job.ofRunning ⟨op, .called⟩) rfl (fun _ _ => rfl)
      (fun d hd => Function.update_of_ne hd _ _) he hnode hfits.1 (by
      change all op.desc = Function.update s.handled op.desc _ op.desc ++ [] ++ e.data
      rw [Function.update_self, List.append_nil]
      exact hall)
  refine ⟨hgoes.perm (jobs_set_perm hr), KeepsData.of_eq rfl, ?_⟩
  refine work_of_perm [Job.ofRunning ⟨op, .called⟩] h (jobs_perm hr)
    (jobs_set_perm hr).symm (fun _ _ => rfl) ?_
  exact Nat.add_right_comm 1 _ 1

theorem finish_went {r : ℕ} {op : Operation} (h : s.Serves all)
    (hr : s.running[r]? = some ⟨op, .called⟩) :
    ∃ s', s.finish r op = .ok s' ∧ s.Went s' all := by
  obtain ⟨hfirst, e, he, hderef, hnode, hfits, hall⟩ := served_at h hr
  have hworking : e.isWorking = true := hfits
  unfold finish
  rw [hderef]
  by_cases hdata : e.data = []
  · refine ⟨_, if_pos hdata, ?_, ?_, ?_⟩
    · exact hfirst.remove (fun d hd => Function.update_of_ne hd _ _) (Function.update_self _ _ _)
        (by
          rw [hdata, List.append_nil] at hall
          exact hall.trans (List.append_nil _))
    · exact KeepsData.of_ne (fun d hd => Function.update_of_ne hd _ _) fun e₀ he₀ hne => by
        rw [he] at he₀
        cases he₀
        exact absurd hdata hne
    · refine work_of_perm [] h (jobs_perm hr) (List.Perm.refl _)
        (fun d hd => Function.update_of_ne hd _ _) ?_
      exact ((Job.stepsLeft_called he).trans (if_pos hdata)).symm
  · have hgoes := hfirst.replace (Job.ofRunning ⟨op, .kept⟩) rfl (fun _ _ => rfl)
      (fun _ _ => rfl) he hnode ⟨hworking, hdata⟩ hall
    refine ⟨_, if_neg hdata, hgoes.perm (jobs_set_perm hr), KeepsData.of_eq rfl, ?_⟩
    refine work_of_perm [Job.ofRunning ⟨op, .kept⟩] h (jobs_perm hr)
      (jobs_set_perm hr).symm (fun _ _ => rfl) ?_
    exact ((Job.stepsLeft_called he).trans (if_neg hdata)).symm

theorem keep_went {r : ℕ} {op : Operation} (h : s.Serves all)
    (hr : s.running[r]? = some ⟨op, .kept⟩) : s.Went (s.keep r op) all := by
  obtain ⟨hfirst, e, he, -, hnode, hfits, hall⟩ := served_at h hr
  have hgoes := hfirst.replace (Job.queued op) rfl (fun _ _ => rfl) (fun _ _ => rfl) he hnode
    hfits.2 hall
  have hjobs' : (Job.queued op :: (s.queue.map Job.queued ++
      (s.running.eraseIdx r).map Job.ofRunning)).Perm (s.keep r op).jobs := by
    change (Job.queued op :: (s.queue.map Job.queued ++ _)).Perm
      ((s.queue ++ [op]).map Job.queued ++ _)
    rw [List.map_append, List.append_assoc]
    exact List.perm_middle.symm
  exact ⟨hgoes.perm hjobs', KeepsData.of_eq rfl,
    work_of_perm [Job.queued op] h (jobs_perm hr) hjobs'.symm (fun _ _ => rfl) rfl⟩

theorem next_went {r : ℕ} {x : Running α} (h : s.Serves all) (hr : s.running[r]? = some x) :
    ∃ s', s.next r = .ok s' ∧ s.Went s' all := by
  unfold next
  rw [hr]
  obtain ⟨op, place⟩ := x
  cases place with
  | started => exact take_went h hr
  | taken data => exact ⟨_, rfl, call_went h hr⟩
  | called => exact finish_went h hr
  | kept => exact ⟨_, rfl, keep_went h hr⟩

theorem start_served (h : s.Serves all) (i : ℕ) :
    ∃ s', s.start i = .ok s' ∧ s'.Serves all ∧ s.KeepsData s' := by
  cases hop : s.queue[i]? with
  | none =>
    unfold start
    rw [hop]
    exact ⟨s, rfl, h, KeepsData.of_eq rfl⟩
  | some op =>
    obtain ⟨s', hs', hwent⟩ := start_went h hop
    exact ⟨s', hs', hwent.serves, hwent.keeps⟩

theorem next_served (h : s.Serves all) (r : ℕ) :
    ∃ s', s.next r = .ok s' ∧ s'.Serves all ∧ s.KeepsData s' := by
  cases hr : s.running[r]? with
  | none =>
    unfold next
    rw [hr]
    exact ⟨s, rfl, h, KeepsData.of_eq rfl⟩
  | some x =>
    obtain ⟨s', hs', hwent⟩ := next_went h hr
    exact ⟨s', hs', hwent.serves, hwent.keeps⟩

end State

theorem flatMap_of_not_mem {β : Type} {key : β → Descriptor} {f : β → List α} {d : Descriptor}
    {l : List β} (h : ∀ b ∈ l, key b ≠ d) :
    (l.flatMap fun b => if key b = d then f b else []) = [] := by
  rw [List.flatMap_eq_nil_iff]
  intro b hb
  exact if_neg (h b hb)

theorem flatMap_of_nodup {β : Type} (key : β → Descriptor) (f : β → List α) {l : List β} {b : β}
    (h : (l.map key).Nodup) (hb : b ∈ l) :
    (l.flatMap fun c => if key c = key b then f c else []) = f b := by
  induction l with
  | nil => cases hb
  | cons c l ih =>
    rw [List.map_cons, List.nodup_cons] at h
    rw [List.flatMap_cons]
    rcases List.mem_cons.1 hb with rfl | hb
    · have hrest : ∀ c ∈ l, key c ≠ key b := fun c hc heq =>
        h.1 (List.mem_map.2 ⟨c, hc, heq⟩)
      rw [flatMap_of_not_mem hrest, if_pos rfl, List.append_nil]
    · have hne : key c ≠ key b := fun heq => h.1 (List.mem_map.2 ⟨b, hb, heq.symm⟩)
      rw [if_neg hne, List.nil_append]
      exact ih h.2 hb

namespace State

variable {s : State α} {all : Descriptor → List α}

/-- One operation at most for a descriptor, on a live entry and for every entry with data; and
every packet once, in the order of pushing, handled, in hand or stored. -/
structure Delivers (s : State α) (all : Descriptor → List α) : Prop where
  nodup : (s.operations.map Operation.desc).Nodup
  live : ∀ op ∈ s.operations, ∃ e, s.userDataFifo op.desc = some e ∧ e.node = op.node
  awake : ∀ d, s.stored d ≠ [] → ∃ op ∈ s.operations, op.desc = d
  once : ∀ d, all d = s.handled d ++ s.inHand d ++ s.stored d
  done : ∀ d, (∀ op ∈ s.operations, op.desc ≠ d) → s.handled d = all d

theorem operations_eq (s : State α) : s.operations = s.jobs.map Prod.fst := by
  unfold operations jobs
  rw [List.map_append, List.map_map, List.map_map]
  change _ = s.queue.map id ++ _
  rw [List.map_id]
  rfl

theorem inHand_eq (s : State α) (desc : Descriptor) :
    s.inHand desc = s.jobs.flatMap fun j => if j.1.desc = desc then j.batch else [] := by
  have hqueue : ((s.queue.map Job.queued).flatMap fun j : Job α =>
      if j.1.desc = desc then j.batch else []) = [] := by
    rw [List.flatMap_eq_nil_iff]
    intro j hj
    obtain ⟨op, -, rfl⟩ := List.mem_map.1 hj
    exact ite_self []
  unfold jobs
  rw [List.flatMap_append, hqueue, List.nil_append, List.flatMap_map]
  rfl

theorem mem_operations {j : Job α} (hj : j ∈ s.jobs) : j.1 ∈ s.operations := by
  rw [operations_eq]
  exact List.mem_map.2 ⟨j, hj, rfl⟩

theorem Serves.delivers (h : s.Serves all) : s.Delivers all := by
  have hjob : ∀ op ∈ s.operations, ∃ j ∈ s.jobs, j.1 = op := by
    intro op hop
    rw [operations_eq] at hop
    exact List.mem_map.1 hop
  have hnone : ∀ d, (∀ op ∈ s.operations, op.desc ≠ d) → s.userDataFifo d = none := by
    intro d hd
    cases hfifo : s.userDataFifo d with
    | none => rfl
    | some e =>
      obtain ⟨j, hj, hdesc⟩ := h.job d e hfifo
      exact absurd hdesc (hd j.1 (mem_operations hj))
  refine ⟨?_, ?_, ?_, ?_, ?_⟩
  · rw [operations_eq, List.map_map]
    exact h.nodup
  · intro op hop
    obtain ⟨j, hj, rfl⟩ := hjob op hop
    obtain ⟨e, he, hnode, -⟩ := h.entry j hj
    exact ⟨e, he, hnode⟩
  · intro d hd
    by_contra hno
    push Not at hno
    rw [stored, hnone d hno] at hd
    exact hd rfl
  · intro d
    rw [inHand_eq, stored]
    cases hfifo : s.userDataFifo d with
    | none =>
      have hother : ∀ j ∈ s.jobs, j.1.desc ≠ d := by
        intro j hj hdesc
        obtain ⟨e, he, -⟩ := h.entry j hj
        rw [hdesc, hfifo] at he
        cases he
      rw [flatMap_of_not_mem hother, List.append_nil, List.append_nil]
      exact h.idle d hfifo
    | some e =>
      obtain ⟨j, hj, rfl⟩ := h.job d e hfifo
      obtain ⟨e', he', -, -, hall⟩ := h.entry j hj
      rw [hfifo] at he'
      cases he'
      rw [flatMap_of_nodup (fun j : Job α => j.1.desc) Job.batch h.nodup hj]
      exact hall
  · intro d hd
    exact (h.idle d (hnone d hd)).symm

end State

def Step.HasData : Step α → Prop
  | .push _ data => data ≠ []
  | _ => True

instance : (st : Step α) → Decidable st.HasData
  | .push _ [] => isFalse fun h => h rfl
  | .push _ (x :: data) => isTrue (List.cons_ne_nil x data)
  | .start _ => isTrue trivial
  | .next _ => isTrue trivial

theorem pushed_push (desc : Descriptor) (data : List α) (d : Descriptor) :
    pushed [Step.push desc data] d = if desc = d then data else [] := by
  unfold pushed
  rw [List.flatMap_singleton]

theorem pushed_cons (st : Step α) (steps : List (Step α)) (d : Descriptor) :
    pushed (st :: steps) d = pushed [st] d ++ pushed steps d := by
  unfold pushed
  rw [List.flatMap_cons, List.flatMap_singleton]

theorem step_served {s : State α} {all : Descriptor → List α} (h : s.Serves all) {st : Step α}
    (hst : st.HasData) :
    ∃ s', step st s = .ok s' ∧ s'.Serves (fun d => all d ++ pushed [st] d) ∧ s.KeepsData s' := by
  have hsame : (fun d => all d ++ []) = all := funext fun d => List.append_nil (all d)
  cases st with
  | push desc data =>
    obtain ⟨s', hs', hserves, hkeeps⟩ := State.mPush_served h desc hst
    refine ⟨s', hs', ?_, hkeeps⟩
    have hall : State.followed all desc data =
        fun d => all d ++ pushed [Step.push desc data] d := by
      funext d
      rw [pushed_push]
      by_cases hd : desc = d
      · rw [← hd, if_pos rfl]
        exact Function.update_self _ _ _
      · rw [if_neg hd, List.append_nil]
        exact Function.update_of_ne (Ne.symm hd) _ _
    rw [← hall]
    exact hserves
  | start i =>
    change ∃ s', s.start i = .ok s' ∧ s'.Serves (fun d => all d ++ []) ∧ s.KeepsData s'
    rw [hsame]
    exact State.start_served h i
  | next r =>
    change ∃ s', s.next r = .ok s' ∧ s'.Serves (fun d => all d ++ []) ∧ s.KeepsData s'
    rw [hsame]
    exact State.next_served h r

theorem runAll_served {steps : List (Step α)} {s : State α} {all : Descriptor → List α}
    (h : s.Serves all) (hsteps : ∀ st ∈ steps, st.HasData) :
    ∃ s', runAll step steps s = .ok s' ∧ s'.Serves fun d => all d ++ pushed steps d := by
  induction steps generalizing s all with
  | nil =>
    refine ⟨s, rfl, ?_⟩
    change s.Serves fun d => all d ++ []
    rw [funext fun d => List.append_nil (all d)]
    exact h
  | cons st steps ih =>
    obtain ⟨s₁, hstep, hs₁, -⟩ := step_served h (hsteps st List.mem_cons_self)
    obtain ⟨s', hrun, hs'⟩ := ih hs₁ fun st hst => hsteps st (List.mem_cons_of_mem _ hst)
    refine ⟨s', ?_, ?_⟩
    · rw [runAll_cons_of_ok hstep]
      exact hrun
    · have hall : (fun d => all d ++ pushed (st :: steps) d) =
          fun d => all d ++ pushed [st] d ++ pushed steps d := by
        funext d
        rw [pushed_cons, List.append_assoc]
      rw [hall]
      exact hs'

namespace State

/-- A step of a thread that has an operation to begin or to go on with. -/
def Moves (s : State α) : Step α → Prop
  | .push _ _ => False
  | .start i => i < s.queue.length
  | .next r => r < s.running.length

/-- A thread that took a batch gives it to the handler, however the other threads stand; and the
threads, whatever the order of their steps, come to an end, at which every packet was handled. -/
structure Completes (s : State α) (all : Descriptor → List α) : Prop where
  handsOver : ∀ r op data, s.running[r]? = some ⟨op, .taken data⟩ → data ≠ [] ∧
    ∃ s', step (.next r) s = .ok s' ∧
      s'.handled = Function.update s.handled op.desc (s.handled op.desc ++ data) ∧
      s'.running[r]? = some ⟨op, .called⟩
  ends : ∃ n, ∀ more, EveryStep step Moves more s → more.length ≤ n ∧
    ∃ s', runAll step more s = .ok s' ∧ (s'.operations = [] → s'.handled = all)
  empties : ∃ more, EveryStep step Moves more s ∧
    ∃ s', runAll step more s = .ok s' ∧ s'.operations = [] ∧ s'.handled = all

variable {s : State α} {all : Descriptor → List α}

theorem Moves.went {st : Step α} (h : s.Serves all) (hst : s.Moves st) :
    ∃ s', step st s = .ok s' ∧ s.Went s' all := by
  cases st with
  | push desc data => exact hst.elim
  | start i => exact start_went h (List.getElem?_eq_getElem hst)
  | next r => exact next_went h (List.getElem?_eq_getElem hst)

/-- While there is an operation, some thread has a step to do. -/
theorem exists_moves (h : s.operations ≠ []) : ∃ st, s.Moves st := by
  cases hqueue : s.queue with
  | cons op queue =>
    refine ⟨.start 0, ?_⟩
    change 0 < s.queue.length
    rw [hqueue]
    exact Nat.succ_pos _
  | nil =>
    refine ⟨.next 0, List.length_pos_iff.2 fun hrunning => h ?_⟩
    unfold operations
    rw [hqueue, hrunning]
    rfl

theorem Serves.handled_eq (h : s.Serves all) (hnone : s.operations = []) : s.handled = all := by
  funext d
  refine h.delivers.done d fun op hop => ?_
  rw [hnone] at hop
  cases hop

/-- The steps that are left go down to none. -/
theorem Serves.empties (h : s.Serves all) : ∃ more, EveryStep step Moves more s ∧
    ∃ s', runAll step more s = .ok s' ∧ s'.operations = [] ∧ s'.handled = all := by
  induction hwork : s.work using Nat.strongRecOn generalizing s with
  | ind n ih =>
    by_cases hnone : s.operations = []
    · exact ⟨[], trivial, s, rfl, hnone, h.handled_eq hnone⟩
    · obtain ⟨st, hst⟩ := exists_moves hnone
      obtain ⟨s₁, hs₁, hwent⟩ := hst.went h
      have hless : s₁.work < n := by
        have hone := hwent.work
        omega
      obtain ⟨more, hmore, s', hrun, hend⟩ := ih s₁.work hless hwent.serves rfl
      refine ⟨st :: more, ⟨hst, fun s₂ hs₂ => ?_⟩, s', ?_, hend⟩
      · rw [hs₁] at hs₂
        cases hs₂
        exact hmore
      · rw [runAll_cons_of_ok hs₁]
        exact hrun

theorem Serves.completes (h : s.Serves all) : s.Completes all := by
  refine ⟨?_, ⟨s.work, ?_⟩, h.empties⟩
  · intro r op data hr
    obtain ⟨-, e, -, -, -, hfits, -⟩ := served_at h hr
    refine ⟨hfits.2, s.call r op data, ?_, rfl, ?_⟩
    · change s.next r = _
      unfold next
      rw [hr]
    · exact List.getElem?_set_self (List.getElem?_eq_some_iff.1 hr).1
  · intro more hmore
    obtain ⟨s', hrun, hs', hless⟩ := runAll_decreases
      (I := fun s : State α => s.Serves all) (f := work) (fun s st hI hst => by
        obtain ⟨s', hs', hwent⟩ := Moves.went hI hst
        exact ⟨s', hs', hwent.serves, hwent.work.le⟩) h hmore
    exact ⟨(Nat.le_add_right _ _).trans hless, s', hrun, hs'.handled_eq⟩

end State

/-- Whatever the order of pushes and of the steps of the threads, every packet is handled once, and
the threads do not stop before. -/
theorem runAll_delivers {steps : List (Step α)} (hsteps : ∀ st ∈ steps, st.HasData) :
    ∃ s, runAll step steps State.init = .ok s ∧ s.Delivers (pushed steps) ∧
      s.Completes (pushed steps) ∧
      ∀ st : Step α, st.HasData → ∃ s', step st s = .ok s' ∧ s.KeepsData s' := by
  obtain ⟨s, hrun, hserves⟩ := runAll_served State.serves_init hsteps
  refine ⟨s, hrun, hserves.delivers, hserves.completes, ?_⟩
  intro st hst
  obtain ⟨s', hs', -, hkeeps⟩ := step_served hserves hst
  exact ⟨s', hs', hkeeps⟩

/-- A push between the taking of a batch and the end of its operation. -/
def busyRun : List (Step ℕ) :=
  [.push 1 [10, 11], .start 0, .next 0, .push 1 [12], .push 2 [20], .next 0, .next 0, .next 0,
    .start 1]

theorem runAll_delivers_busyRun :
    ∃ s, runAll step busyRun State.init = .ok s ∧ s.Delivers (pushed busyRun) ∧
      s.Completes (pushed busyRun) ∧
      ∀ st : Step ℕ, st.HasData → ∃ s', step st s = .ok s' ∧ s.KeepsData s' :=
  runAll_delivers (by decide)

end UdtKernel.DataObject
