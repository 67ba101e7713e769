import Mathlib.Data.List.Pairwise
import Mathlib.Tactic
import UdtKernel.Lib.SortedMap
import UdtKernel.Types

set_option autoImplicit false

/-! Messages are distributed among the descriptors: `MDistributeMsgByDescriptors`. -/

namespace UdtKernel.Distribute
open UdtKernel.Lib

/-- The test of `getOutputDescriptors` on `MNextDestinations(u)`: only the front is looked at. -/
def outputDescriptor (next : Uuid → List Descriptor) (u : Uuid) : Option Descriptor :=
  match next u with
  | [] => none
  | d :: _ => if isValidDescriptor d then some d else none

structure OutputDescriptors where
  remains : List Uuid
  notRoute : List Uuid
  descr : SortedMap Descriptor Routing

/-- `_descr[d].push_back(u)`, the entry being made with the sender of the packet. -/
def pushRoute (sender : Id) (u : Uuid) : Option Routing → Routing
  | none => ⟨sender, [u]⟩
  | some r => ⟨r.from_, r.uuids ++ [u]⟩

def outputDescriptorsLoop (next : Uuid → List Descriptor) (sender : Id) :
    List Uuid → OutputDescriptors → OutputDescriptors
  | [], o => o
  | u :: us, o => match outputDescriptor next u with
    | some d => outputDescriptorsLoop next sender us
        ⟨o.remains ++ [u], o.notRoute, o.descr.alter d fun r => some (pushRoute sender u r)⟩
    | none => outputDescriptorsLoop next sender us
        ⟨o.remains, o.notRoute ++ [u], o.descr⟩

def getOutputDescriptors (next : Uuid → List Descriptor) (r : Routing) : OutputDescriptors :=
  outputDescriptorsLoop next r.from_ r.uuids ⟨[], [], .empty⟩

def withRouting (m : UserData) (us : List Uuid) : UserData :=
  { m with dataId := setRouting m.dataId us }

def routingMsgToDescriptor (m : UserData) (descr : SortedMap Descriptor Routing) :
    List RoutingUserData :=
  descr.entries.map fun e => ⟨e.1, [{ m with dataId := { m.dataId with routing := e.2 } }]⟩

def sortedSplice : List RoutingUserData → List RoutingUserData → List RoutingUserData
  | [], to_ => to_
  | f :: fs, [] => f :: fs
  | f :: fs, t :: ts =>
    if t.desc < f.desc then t :: sortedSplice (f :: fs) ts
    else if t.desc = f.desc then ⟨t.desc, t.data ++ f.data⟩ :: sortedSplice fs ts
    else f :: sortedSplice fs (t :: ts)
termination_by what to_ => what.length + to_.length

structure Distributed where
  hasNotRoute : List UserData
  sendTo : List RoutingUserData
  errors : List FailSend

/-- The end of the loop's body: a message with an error is reported and handed back. -/
def noteError (m : UserData) (error : ErrorType) (a : Distributed) : Distributed :=
  if error ≠ eNoError then
    { a with
      errors := a.errors ++ [(FailSend.ofInfo m.dataId).setError error]
      hasNotRoute := a.hasNotRoute ++ [m] }
  else a

/-- One turn of the loop of `MDistributeMsgByDescriptors`. The guard on the second report
    is the source's: it asks for an error that is never set when something was output. -/
def distributeMsg (next : Uuid → List Descriptor) (a : Distributed) (m : UserData) :
    Distributed :=
  if m.dataId.routing.uuids ≠ [] then
    let o := getOutputDescriptors next m.dataId.routing
    let m' := withRouting m o.remains
    if o.descr.entries ≠ [] then
      let output := routingMsgToDescriptor m' o.descr
      let error := if output ≠ [] then eNoError else eNoRoute
      let sendTo := if output ≠ [] then sortedSplice output a.sendTo else a.sendTo
      let errors := if error ≠ eNoError ∧ o.notRoute ≠ [] then
          a.errors ++ [FailSend.ofRouting m'.dataId o.notRoute eNoRoute]
        else a.errors
      noteError m' error ⟨a.hasNotRoute, sendTo, errors⟩
    else noteError m' eNoRoute a
  else noteError m eUnknownError a

def distributeMsgByDescriptors (next : Uuid → List Descriptor) (what : List UserData)
    (a : Distributed) : Distributed :=
  what.foldl (distributeMsg next) a

def Routable (next : Uuid → List Descriptor) (u : Uuid) : Prop :=
  (outputDescriptor next u).isSome

instance (next : Uuid → List Descriptor) (u : Uuid) : Decidable (Routable next u) :=
  inferInstanceAs (Decidable (_ = true))

def goingBy (next : Uuid → List Descriptor) (d : Descriptor) (us : List Uuid) : List Uuid :=
  us.filter fun u => outputDescriptor next u = some d

/-- What a loop over `us` adds to the routing kept for one descriptor. -/
def extendRoute (sender : Id) (us : List Uuid) (r : Option Routing) : Option Routing :=
  if us = [] then r
  else some ⟨(r.map Routing.from_).getD sender, (r.map Routing.uuids).getD [] ++ us⟩

theorem extendRoute_pushRoute (sender : Id) (u : Uuid) (us : List Uuid) (r : Option Routing) :
    extendRoute sender us (some (pushRoute sender u r)) = extendRoute sender (u :: us) r := by
  cases r <;> cases us <;> simp [extendRoute, pushRoute]

theorem outputDescriptorsLoop_spec (next : Uuid → List Descriptor) (sender : Id)
    (us : List Uuid) (o : OutputDescriptors) :
    (outputDescriptorsLoop next sender us o).remains =
      o.remains ++ us.filter (fun u => Routable next u) ∧
    (outputDescriptorsLoop next sender us o).notRoute =
      o.notRoute ++ us.filter (fun u => ¬ Routable next u) ∧
    ∀ d, (outputDescriptorsLoop next sender us o).descr.find d =
      extendRoute sender (goingBy next d us) (o.descr.find d) := by
  induction us generalizing o with
  | nil => simp [outputDescriptorsLoop, goingBy, extendRoute]
  | cons u us ih =>
    cases hu : outputDescriptor next u with
    | none =>
      have hr : ¬ Routable next u := by simp [Routable, hu]
      simp only [outputDescriptorsLoop, hu]
      obtain ⟨h1, h2, h3⟩ := ih ⟨o.remains, o.notRoute ++ [u], o.descr⟩
      refine ⟨?_, ?_, fun d => ?_⟩
      · rw [h1]; simp [hr]
      · rw [h2]; simp [hr]
      · rw [h3 d]; simp [goingBy, hu]
    | some e =>
      have hr : Routable next u := by simp [Routable, hu]
      simp only [outputDescriptorsLoop, hu]
      obtain ⟨h1, h2, h3⟩ := ih
        ⟨o.remains ++ [u], o.notRoute, o.descr.alter e fun r => some (pushRoute sender u r)⟩
      refine ⟨?_, ?_, fun d => ?_⟩
      · rw [h1]; simp [hr]
      · rw [h2]; simp [hr]
      · rw [h3 d, SortedMap.find_alter]
        by_cases hd : d = e
        · subst hd
          rw [if_pos rfl, extendRoute_pushRoute]
          simp [goingBy, hu]
        · have hde : ¬ e = d := fun h => hd h.symm
          simp [goingBy, hu, hd, hde]

theorem getOutputDescriptors_remains (next : Uuid → List Descriptor) (r : Routing) :
    (getOutputDescriptors next r).remains = r.uuids.filter fun u => Routable next u := by
  simpa [getOutputDescriptors] using
    (outputDescriptorsLoop_spec next r.from_ r.uuids ⟨[], [], .empty⟩).1

theorem getOutputDescriptors_find (next : Uuid → List Descriptor) (r : Routing)
    (d : Descriptor) : (getOutputDescriptors next r).descr.find d =
      if goingBy next d r.uuids = [] then none
      else some ⟨r.from_, goingBy next d r.uuids⟩ := by
  have h := (outputDescriptorsLoop_spec next r.from_ r.uuids ⟨[], [], .empty⟩).2.2 d
  simpa [getOutputDescriptors, extendRoute] using h

theorem descr_entries_eq_nil_iff (next : Uuid → List Descriptor) (r : Routing) :
    (getOutputDescriptors next r).descr.entries = [] ↔ ∀ u ∈ r.uuids, ¬ Routable next u := by
  constructor
  · intro h u hu hr
    obtain ⟨d, hd⟩ := Option.isSome_iff_exists.1 hr
    have hg : goingBy next d r.uuids ≠ [] :=
      List.ne_nil_of_mem (List.mem_filter.2 ⟨hu, by simpa using hd⟩)
    have hf := getOutputDescriptors_find next r d
    rw [if_neg hg, ← SortedMap.mem_entries_iff, h] at hf
    cases hf
  · intro h
    refine List.eq_nil_iff_forall_not_mem.2 fun ⟨d, v⟩ hm => ?_
    rw [SortedMap.mem_entries_iff, getOutputDescriptors_find] at hm
    have hg : goingBy next d r.uuids = [] := by
      refine List.filter_eq_nil_iff.2 fun u hu hd => h u hu ?_
      simp only [decide_eq_true_eq] at hd
      simp [Routable, hd]
    rw [if_pos hg] at hm
    cases hm

def StrictlySorted (l : List RoutingUserData) : Prop := l.Pairwise fun r r' => r.desc < r'.desc

/-- What the output list holds for one descriptor, in order. -/
def dataFor (d : Descriptor) (l : List RoutingUserData) : List UserData :=
  l.flatMap fun r => if r.desc = d then r.data else []

theorem dataFor_eq_nil {d : Descriptor} {l : List RoutingUserData} (h : ∀ r ∈ l, d < r.desc) :
    dataFor d l = [] := by
  refine List.flatMap_eq_nil_iff.2 fun r hr => if_neg ?_
  exact ne_of_gt (h r hr)

theorem mem_sortedSplice_desc {what to_ : List RoutingUserData} {r : RoutingUserData}
    (h : r ∈ sortedSplice what to_) :
    (∃ f ∈ what, r.desc = f.desc) ∨ ∃ t ∈ to_, r.desc = t.desc := by
  induction what, to_ using sortedSplice.induct with
  | case1 to_ => exact .inr ⟨r, by simpa [sortedSplice] using h, rfl⟩
  | case2 f fs => exact .inl ⟨r, by simpa [sortedSplice] using h, rfl⟩
  | case3 f fs t ts hlt ih =>
    rw [sortedSplice, if_pos hlt] at h
    rcases List.mem_cons.1 h with rfl | h
    · exact .inr ⟨r, List.mem_cons_self, rfl⟩
    · rcases ih h with hf | ⟨t', ht', he⟩
      · exact .inl hf
      · exact .inr ⟨t', List.mem_cons_of_mem _ ht', he⟩
  | case4 f fs t ts hlt heq ih =>
    rw [sortedSplice, if_neg hlt, if_pos heq] at h
    rcases List.mem_cons.1 h with rfl | h
    · exact .inr ⟨t, List.mem_cons_self, rfl⟩
    · rcases ih h with ⟨f', hf', he⟩ | ⟨t', ht', he⟩
      · exact .inl ⟨f', List.mem_cons_of_mem _ hf', he⟩
      · exact .inr ⟨t', List.mem_cons_of_mem _ ht', he⟩
  | case5 f fs t ts hlt hne ih =>
    rw [sortedSplice, if_neg hlt, if_neg hne] at h
    rcases List.mem_cons.1 h with rfl | h
    · exact .inl ⟨r, List.mem_cons_self, rfl⟩
    · rcases ih h with ⟨f', hf', he⟩ | ht
      · exact .inl ⟨f', List.mem_cons_of_mem _ hf', he⟩
      · exact .inr ht

theorem lt_of_mem_sortedSplice {d : Descriptor} {what to_ : List RoutingUserData}
    (hw : ∀ f ∈ what, d < f.desc) (ht : ∀ t ∈ to_, d < t.desc) :
    ∀ r ∈ sortedSplice what to_, d < r.desc := by
  intro r hr
  rcases mem_sortedSplice_desc hr with ⟨f, hf, he⟩ | ⟨t, ht', he⟩
  · exact he ▸ hw f hf
  · exact he ▸ ht t ht'

theorem sortedSplice_sorted (what to_ : List RoutingUserData) (hw : StrictlySorted what)
    (ht : StrictlySorted to_) : StrictlySorted (sortedSplice what to_) := by
  induction what, to_ using sortedSplice.induct with
  | case1 to_ => simpa [sortedSplice] using ht
  | case2 f fs => simpa [sortedSplice] using hw
  | case3 f fs t ts hlt ih =>
    rw [sortedSplice, if_pos hlt]
    obtain ⟨ht', hts⟩ := List.pairwise_cons.1 ht
    refine List.pairwise_cons.2 ⟨lt_of_mem_sortedSplice (fun g hg => ?_) ht', ih hw hts⟩
    rcases List.mem_cons.1 hg with rfl | hg
    · exact hlt
    · exact lt_trans hlt ((List.pairwise_cons.1 hw).1 g hg)
  | case4 f fs t ts hlt heq ih =>
    rw [sortedSplice, if_neg hlt, if_pos heq]
    obtain ⟨ht', hts⟩ := List.pairwise_cons.1 ht
    obtain ⟨hf', hfs⟩ := List.pairwise_cons.1 hw
    refine List.pairwise_cons.2 ⟨lt_of_mem_sortedSplice (fun g hg => ?_) ht', ih hfs hts⟩
    exact heq ▸ hf' g hg
  | case5 f fs t ts hlt hne ih =>
    rw [sortedSplice, if_neg hlt, if_neg hne]
    obtain ⟨hf', hfs⟩ := List.pairwise_cons.1 hw
    have hft : f.desc < t.desc := lt_of_le_of_ne (not_lt.1 hlt) fun h => hne h.symm
    refine List.pairwise_cons.2 ⟨lt_of_mem_sortedSplice hf' fun g hg => ?_, ih hfs ht⟩
    rcases List.mem_cons.1 hg with rfl | hg
    · exact hft
    · exact lt_trans hft ((List.pairwise_cons.1 ht).1 g hg)

/-- Splicing appends to what a descriptor already had, so input order is kept. -/
theorem dataFor_sortedSplice (d : Descriptor) (what to_ : List RoutingUserData)
    (hw : StrictlySorted what) (ht : StrictlySorted to_) :
    dataFor d (sortedSplice what to_) = dataFor d to_ ++ dataFor d what := by
  induction what, to_ using sortedSplice.induct with
  | case1 to_ => simp [sortedSplice, dataFor]
  | case2 f fs => simp [sortedSplice, dataFor]
  | case3 f fs t ts hlt ih =>
    have h := ih hw (List.pairwise_cons.1 ht).2
    rw [sortedSplice, if_pos hlt]
    simp only [dataFor, List.flatMap_cons] at h ⊢
    rw [h, List.append_assoc]
  | case4 f fs t ts hlt heq ih =>
    obtain ⟨ht', hts⟩ := List.pairwise_cons.1 ht
    have h := ih (List.pairwise_cons.1 hw).2 hts
    rw [sortedSplice, if_neg hlt, if_pos heq]
    by_cases hd : t.desc = d
    · have hnil : dataFor d ts = [] := dataFor_eq_nil fun r hr => hd ▸ ht' r hr
      have hfd : f.desc = d := heq.symm.trans hd
      simp only [dataFor, List.flatMap_cons] at h hnil ⊢
      rw [h, hnil]
      simp [hd, hfd]
    · have hfd : ¬ f.desc = d := fun hf => hd (heq.trans hf)
      simpa [dataFor, hd, hfd] using h
  | case5 f fs t ts hlt hne ih =>
    have h := ih (List.pairwise_cons.1 hw).2 ht
    rw [sortedSplice, if_neg hlt, if_neg hne]
    have hft : f.desc < t.desc := lt_of_le_of_ne (not_lt.1 hlt) fun h => hne h.symm
    by_cases hd : f.desc = d
    · have hnil : dataFor d (t :: ts) = [] := dataFor_eq_nil fun r hr => by
        rcases List.mem_cons.1 hr with rfl | hr
        · exact hd ▸ hft
        · exact hd ▸ lt_trans hft ((List.pairwise_cons.1 ht).1 r hr)
      rw [hnil] at h ⊢
      simp only [List.nil_append] at h ⊢
      simpa [dataFor, hd] using h
    · simpa [dataFor, hd] using h

end UdtKernel.Distribute
