import UdtKernel.Config.Programs
import UdtKernel.Lib.Run
import UdtKernel.Lib.SortedMap

set_option autoImplicit false

/-! The table of descriptors, and which of them belong to a program: `CDescriptors`. -/

namespace UdtKernel.Core
open UdtKernel.Lib

/-- `descriptor_info_t`, without the info of its connection. -/
abbrev DescriptorInfo := Service.KernelLink

namespace DescriptorInfo

/-- A default `descriptor_info_t`. -/
def default : DescriptorInfo := ⟨⟨⟨0, []⟩, ⟨0, 0, 0⟩, 0, 0, [], 0, shareEndian⟩, 0, [], 2 ^ 16 - 1⟩

/-- `operator==`, that of the programs. -/
def same (i j : DescriptorInfo) : Bool :=
  i.program.id.uuid == j.program.id.uuid && i.program.path == j.program.path &&
    i.program.pid == j.program.pid

end DescriptorInfo

/-- `FByUUIDs` holds iterators, that is descriptors whose entries they point to. -/
structure Descriptors where
  last : Descriptor
  descriptors : SortedMap Descriptor (Option DescriptorInfo)
  byUuids : SortedMap Uuid Descriptor

namespace Descriptors

def new : Descriptors := ⟨1, .empty, .empty⟩

variable (s : Descriptors)

def mCreate : Descriptors :=
  { s with last := s.last + 1, descriptors := s.descriptors.insert (s.last + 1) none }

def mOpenInfo (aVal : Descriptor) (aInfo : DescriptorInfo) : Descriptors :=
  { s with
    descriptors := s.descriptors.insert aVal (some aInfo)
    byUuids := s.byUuids.insert aInfo.program.id.uuid aVal }

def mOpen (aVal : Descriptor) (aInfo : DescriptorInfo) : Descriptors :=
  match s.descriptors.find aVal with
  | none => s
  | some _ => s.mOpenInfo aVal aInfo

def mCloseInfo (_info : DescriptorInfo) : Descriptors :=
  { s with byUuids := s.byUuids.erase _info.program.id.uuid }

def mClose (aVal : Descriptor) : Descriptors :=
  match s.descriptors.find aVal with
  | none => s
  | some none => { s with descriptors := s.descriptors.erase aVal }
  | some (some _info) => mCloseInfo { s with descriptors := s.descriptors.erase aVal } _info

/-- `MIs(uuid)` -/
def mIsUuid (aVal : Uuid) : Bool := (s.byUuids.find aVal).isSome

/-- `MGet(uuid)`; an iterator that points to a destroyed entry is not followed. -/
def mGetByUuid (aVal : Uuid) : Option Descriptor :=
  match s.byUuids.find aVal with
  | none => some invalidDescriptor
  | some d => if (s.descriptors.find d).isSome then some d else none

/-- `MGet(info)`; what is not set is compared as a default one. -/
def mGetByInfo (aVal : DescriptorInfo) : Descriptor :=
  ((s.descriptors.entries.find? fun p => !aVal.same (p.2.getD .default)).map Prod.fst).getD
    invalidDescriptor

inductive Op where
  | create
  | open_ (aVal : Descriptor) (aInfo : DescriptorInfo)
  | close (aVal : Descriptor)

def step : Op → Descriptors → Except Empty Descriptors
  | .create, s => .ok s.mCreate
  | .open_ aVal aInfo, s => .ok (s.mOpen aVal aInfo)
  | .close aVal, s => .ok (s.mClose aVal)

def IsOpen (d : Descriptor) (i : DescriptorInfo) : Prop := s.descriptors.find d = some (some i)

/-- What is found of a uuid is an open descriptor of it, if there is one. -/
def FindsUuid (u : Uuid) : Prop :=
  (s.mIsUuid u = true ↔ ∃ d i, s.IsOpen d i ∧ i.program.id.uuid = u) ∧
    ∃ d, s.mGetByUuid u = some d ∧
      ((∃ i, s.IsOpen d i ∧ i.program.id.uuid = u) ∨
        d = invalidDescriptor ∧ ∀ e i, s.IsOpen e i → i.program.id.uuid ≠ u)

/-- What is found of an info is a descriptor that carries it, if there is one. -/
def FindsInfo (v : DescriptorInfo) : Prop :=
  (∃ i, s.IsOpen (s.mGetByInfo v) i ∧ v.same i = true) ∨
    s.mGetByInfo v = invalidDescriptor ∧ ∀ e i, s.IsOpen e i → v.same i = false

def OpensOnce : Op → Prop
  | .open_ aVal _ => (s.descriptors.find aVal).join = none
  | _ => True

/-- A descriptor is closed when its program has no other one, and numbers are left for new ones. -/
def KeepsOthers : Op → Prop
  | .create => s.last + 1 < 2 ^ 31
  | .close aVal => ∀ i ∈ (s.descriptors.find aVal).join, ∀ p ∈ s.descriptors.entries, ∀ j ∈ p.2,
      j.program.id.uuid = i.program.id.uuid → p.1 = aVal
  | _ => True

instance : (op : Op) → Decidable (s.OpensOnce op)
  | .open_ _ _ => inferInstanceAs (Decidable (_ = _))
  | .create | .close _ => isTrue trivial

instance : (op : Op) → Decidable (s.KeepsOthers op)
  | .create => inferInstanceAs (Decidable (_ < _))
  | .close _ => inferInstanceAs (Decidable (∀ i ∈ _, ∀ p ∈ _, ∀ j ∈ _, _ → _))
  | .open_ _ _ => isTrue trivial

/-- No descriptor is open, and the info is that of those which are not. -/
def NoneOpen (v : DescriptorInfo) : Prop :=
  (∀ e i, ¬ s.IsOpen e i) ∧ (s.descriptors.entries = [] ∨ v.same .default = true)

structure Inv : Prop where
  known : ∀ u d, s.byUuids.find u = some d → ∃ i, s.IsOpen d i ∧ i.program.id.uuid = u
  found : ∀ d i, s.IsOpen d i → (s.byUuids.find i.program.id.uuid).isSome = true
  valid : ∀ d, (s.descriptors.find d).isSome = true → 1 < d ∧ d ≤ s.last
  last : 1 ≤ s.last

variable {s} {u : Uuid} {v : DescriptorInfo} {d e : Descriptor} {i j : DescriptorInfo}

theorem isOpen_mCreate (hfree : s.descriptors.find (s.last + 1) = none) :
    s.mCreate.IsOpen d i ↔ s.IsOpen d i := by
  unfold IsOpen mCreate
  rw [SortedMap.find_insert]
  split_ifs with hd
  · rw [hd, hfree]
    exact ⟨fun h => (nomatch h), fun h => (nomatch h)⟩
  · exact Iff.rfl

theorem isOpen_mOpenInfo :
    (s.mOpenInfo e j).IsOpen d i ↔ (d = e ∧ i = j) ∨ (d ≠ e ∧ s.IsOpen d i) := by
  unfold IsOpen mOpenInfo
  rw [SortedMap.find_insert]
  split_ifs with hd
  · simp [hd, eq_comm]
  · simp [hd]

theorem isOpen_erase :
    IsOpen { s with descriptors := s.descriptors.erase e } d i ↔ d ≠ e ∧ s.IsOpen d i := by
  unfold IsOpen
  rw [SortedMap.find_erase]
  split_ifs with hd
  · simp [hd]
  · simp [hd]

theorem isOpen_iff_join : (s.descriptors.find d).join = some i ↔ s.IsOpen d i := by
  unfold IsOpen
  rw [Option.join_eq_some_iff]

theorem IsOpen.inj (h : s.IsOpen d i) (h' : s.IsOpen d j) : i = j :=
  Option.some.inj (Option.some.inj (h.symm.trans h'))

theorem new_inv : new.Inv :=
  ⟨fun _ _ h => (nomatch h), fun _ _ h => (nomatch h), fun _ h => (nomatch h), Int.le_refl 1⟩

namespace Inv

theorem find_last (h : s.Inv) : s.descriptors.find (s.last + 1) = none := by
  rw [← Option.not_isSome_iff_eq_none]
  intro hsome
  exact Int.not_le.2 (Int.lt_succ s.last) (h.valid _ hsome).2

theorem mCreate (h : s.Inv) : s.mCreate.Inv := by
  have hopen := fun d i => isOpen_mCreate (d := d) (i := i) h.find_last
  have hlast := h.last
  refine ⟨fun u d hu => ?_, fun d i hi => ?_, fun d hd => ?_, Int.le_add_one hlast⟩
  · obtain ⟨i, hi, hiu⟩ := h.known u d hu
    exact ⟨i, (hopen d i).2 hi, hiu⟩
  · exact h.found d i ((hopen d i).1 hi)
  · change ((s.descriptors.insert (s.last + 1) none).find d).isSome = true at hd
    change 1 < d ∧ d ≤ s.last + 1
    rw [SortedMap.find_insert] at hd
    split_ifs at hd with hnew
    · exact ⟨hnew ▸ Int.lt_add_one_of_le hlast, Int.le_of_eq hnew⟩
    · exact ⟨(h.valid d hd).1, Int.le_add_one (h.valid d hd).2⟩

theorem mOpen (h : s.Inv) (honce : ∀ i, ¬ s.IsOpen e i) : (s.mOpen e j).Inv := by
  unfold Descriptors.mOpen
  cases hfind : s.descriptors.find e with
  | none => exact h
  | some o =>
    refine ⟨fun u d hu => ?_, fun d i hi => ?_, fun d hd => ?_, h.last⟩
    · change (s.byUuids.insert j.program.id.uuid e).find u = some d at hu
      rw [SortedMap.find_insert] at hu
      split_ifs at hu with hself
      · exact ⟨j, isOpen_mOpenInfo.2 (Or.inl ⟨(Option.some.inj hu).symm, rfl⟩), hself.symm⟩
      · obtain ⟨i, hi, hiu⟩ := h.known u d hu
        have hne : d ≠ e := fun heq => honce i (heq ▸ hi)
        exact ⟨i, isOpen_mOpenInfo.2 (Or.inr ⟨hne, hi⟩), hiu⟩
    · change ((s.byUuids.insert j.program.id.uuid e).find i.program.id.uuid).isSome = true
      rw [SortedMap.find_insert]
      split_ifs with hself
      · rfl
      · rcases isOpen_mOpenInfo.1 hi with ⟨-, rfl⟩ | ⟨-, hi⟩
        · exact absurd rfl hself
        · exact h.found d i hi
    · change ((s.descriptors.insert e (some j)).find d).isSome = true at hd
      rw [SortedMap.find_insert] at hd
      split_ifs at hd with hself
      · refine h.valid d ?_
        rw [hself, hfind]
        rfl
      · exact h.valid d hd

theorem mClose (h : s.Inv) (hothers : ∀ i, s.IsOpen e i → ∀ d j, s.IsOpen d j →
    j.program.id.uuid = i.program.id.uuid → d = e) : (s.mClose e).Inv := by
  have hvalid : ∀ d, ((s.descriptors.erase e).find d).isSome = true → 1 < d ∧ d ≤ s.last := by
    intro d hd
    rw [SortedMap.find_erase] at hd
    split_ifs at hd
    · cases hd
    · exact h.valid d hd
  unfold Descriptors.mClose
  cases hfind : s.descriptors.find e with
  | none => exact h
  | some o =>
    cases o with
    | none =>
      have hne : ∀ d i, s.IsOpen d i → d ≠ e := by
        rintro d i hi rfl
        exact nomatch Option.some.inj (hfind.symm.trans hi)
      refine ⟨fun u d hu => ?_, fun d i hi => ?_, hvalid, h.last⟩
      · obtain ⟨i, hi, hiu⟩ := h.known u d hu
        exact ⟨i, isOpen_erase.2 ⟨hne d i hi, hi⟩, hiu⟩
      · exact h.found d i (isOpen_erase.1 hi).2
    | some j =>
      have hj : s.IsOpen e j := hfind
      refine ⟨fun u d hu => ?_, fun d i hi => ?_, hvalid, h.last⟩
      · change (s.byUuids.erase j.program.id.uuid).find u = some d at hu
        rw [SortedMap.find_erase] at hu
        split_ifs at hu with hself
        obtain ⟨i, hi, hiu⟩ := h.known u d hu
        refine ⟨i, isOpen_erase.2 ⟨?_, hi⟩, hiu⟩
        rintro rfl
        exact hself (hi.inj hj ▸ hiu.symm)
      · obtain ⟨hne, hi⟩ := isOpen_erase.1 hi
        change ((s.byUuids.erase j.program.id.uuid).find i.program.id.uuid).isSome = true
        rw [SortedMap.find_erase, if_neg]
        · exact h.found d i hi
        · exact fun hsame => hne (hothers j hj d i hi hsame)

theorem step (h : s.Inv) {op : Op} (honce : s.OpensOnce op) (hothers : s.KeepsOthers op) :
    Outcome (fun _ => False) Inv (Descriptors.step op s) := by
  cases op with
  | create => exact h.mCreate
  | open_ aVal aInfo =>
    refine h.mOpen fun i hi => ?_
    exact nomatch (show (s.descriptors.find aVal).join = none from honce).symm.trans
      (isOpen_iff_join.2 hi)
  | close aVal =>
    refine h.mClose fun i hi d j hj => ?_
    exact hothers i (isOpen_iff_join.2 hi) (d, some j) ((SortedMap.mem_entries_iff ..).2 hj) j rfl

theorem findsUuid (h : s.Inv) (u : Uuid) : s.FindsUuid u := by
  unfold FindsUuid mIsUuid mGetByUuid
  cases hfind : s.byUuids.find u with
  | none =>
    have hnone : ∀ e i, s.IsOpen e i → i.program.id.uuid ≠ u := by
      rintro e i hi rfl
      have hsome := h.found e i hi
      rw [hfind] at hsome
      cases hsome
    refine ⟨⟨fun hsome => (nomatch hsome), fun ⟨d, i, hi, hiu⟩ => absurd hiu (hnone d i hi)⟩,
      invalidDescriptor, rfl, Or.inr ⟨rfl, hnone⟩⟩
  | some d =>
    obtain ⟨i, hi, hiu⟩ := h.known u d hfind
    refine ⟨⟨fun _ => ⟨d, i, hi, hiu⟩, fun _ => rfl⟩, d, if_pos ?_, Or.inl ⟨i, hi, hiu⟩⟩
    rw [show s.descriptors.find d = some (some i) from hi]
    rfl

/-- What is found by an info is not a descriptor that carries it. -/
theorem findsInfo_iff (h : s.Inv) (v : DescriptorInfo) : s.FindsInfo v ↔ s.NoneOpen v := by
  unfold FindsInfo mGetByInfo
  cases hfind : s.descriptors.entries.find? fun p => !v.same (p.2.getD .default) with
  | none =>
    have hall : ∀ d o, s.descriptors.find d = some o → v.same (o.getD .default) = true := by
      intro d o hd
      have hmem := (SortedMap.mem_entries_iff s.descriptors d o).2 hd
      rw [← Bool.not_eq_false]
      simpa using List.find?_eq_none.1 hfind _ hmem
    have hinvalid : ∀ i, ¬ s.IsOpen invalidDescriptor i := by
      intro i hi
      have hlt := (h.valid invalidDescriptor (by rw [hi]; rfl)).1
      exact absurd hlt (by decide)
    constructor
    · rintro (⟨i, hi, -⟩ | ⟨-, hnone⟩)
      · exact absurd hi (hinvalid i)
      · refine ⟨fun e i hi => ?_, ?_⟩
        · exact Bool.false_ne_true ((hnone e i hi).symm.trans (hall e (some i) hi))
        · cases hentries : s.descriptors.entries with
          | nil => exact Or.inl rfl
          | cons p l =>
            have hp : s.descriptors.find p.1 = some p.2 := by
              rw [← SortedMap.mem_entries_iff, hentries]
              exact List.mem_cons_self
            refine Or.inr ?_
            cases hinfo : p.2 with
            | none => exact hall p.1 none (hinfo ▸ hp)
            | some i =>
              have hi : s.IsOpen p.1 i := hp.trans (congrArg some hinfo)
              exact absurd ((hnone p.1 i hi).symm.trans (hall p.1 (some i) hi)) Bool.false_ne_true
    · exact fun hnone => Or.inr ⟨rfl, fun e i hi => absurd hi (hnone.1 e i)⟩
  | some p =>
    have hdiffers := List.find?_some hfind
    have hp : s.descriptors.find p.1 = some p.2 :=
      (SortedMap.mem_entries_iff ..).1 (List.mem_of_find?_eq_some hfind)
    rw [Bool.not_eq_true'] at hdiffers
    constructor
    · rintro (⟨i, hi, hsame⟩ | ⟨hinvalid, -⟩)
      · have hinfo : p.2 = some i := Option.some.inj (hp.symm.trans hi)
        rw [hinfo] at hdiffers
        exact absurd (hdiffers.symm.trans hsame) Bool.false_ne_true
      · have hlt := (h.valid p.1 (by rw [hp]; rfl)).1
        change p.1 = invalidDescriptor at hinvalid
        rw [hinvalid] at hlt
        exact absurd hlt (by decide)
    · intro ⟨hnone, hdefault⟩
      cases hinfo : p.2 with
      | some i => exact absurd (hp.trans (congrArg some hinfo)) (hnone p.1 i)
      | none =>
        rw [hinfo] at hdiffers
        rcases hdefault with hnil | hdefault
        · have hmem := List.mem_of_find?_eq_some hfind
          rw [hnil] at hmem
          cases hmem
        · exact absurd (hdiffers.symm.trans hdefault) Bool.false_ne_true

end Inv

/-- The lookups after a run in which no program has another descriptor when one of it is closed. -/
theorem runAll_lookups {ops : List Op}
    (hops : EveryStep step (fun s op => s.OpensOnce op ∧ s.KeepsOthers op) ops new) :
    ∃ s, runAll step ops new = .ok s ∧ (∀ u, s.FindsUuid u) ∧
      ∀ v, s.FindsInfo v ↔ s.NoneOpen v := by
  have hrun := runAll_outcome (fun s op hs hop => hs.step hop.1 hop.2) new_inv hops
  cases hs : runAll step ops new with
  | error e => exact e.elim
  | ok s =>
    rw [hs] at hrun
    exact ⟨s, rfl, hrun.findsUuid, hrun.findsInfo_iff⟩

def someInfo (uuid : Uuid) : DescriptorInfo :=
  { DescriptorInfo.default with
    program := { DescriptorInfo.default.program with id := ⟨uuid, []⟩, pid := 5 } }

/-- Two programs, of which the first connects again. -/
def someOps : List Op :=
  [.create, .open_ 2 (someInfo 7), .create, .open_ 3 (someInfo 8), .close 2, .create,
    .open_ 4 (someInfo 7), .close 9, .create]

theorem runAll_lookups_someOps :
    EveryStep step (fun s op => s.OpensOnce op ∧ s.KeepsOthers op) someOps new ∧
      ∃ s, runAll step someOps new = .ok s ∧ (∀ u, s.FindsUuid u) ∧
        ∀ v, s.FindsInfo v ↔ s.NoneOpen v := by
  have hops : EveryStep step (fun s op => s.OpensOnce op ∧ s.KeepsOthers op) someOps new := by
    decide +kernel
  exact ⟨hops, runAll_lookups hops⟩

/-- The old descriptor of a program is closed, and the new one is not found; nor is the one
descriptor there is by its info. -/
theorem lookups_false_of_close :
    (∃ s, runAll step [.create, .open_ 2 (someInfo 7), .create, .open_ 3 (someInfo 7), .close 2]
        new = .ok s ∧ s.IsOpen 3 (someInfo 7) ∧ s.mIsUuid 7 = false ∧ ¬ s.FindsUuid 7) ∧
    ∃ s, runAll step [.create, .open_ 2 (someInfo 7)] new = .ok s ∧ s.IsOpen 2 (someInfo 7) ∧
      s.mGetByInfo (someInfo 7) = invalidDescriptor ∧ ¬ s.FindsInfo (someInfo 7) := by
  refine ⟨⟨_, rfl, rfl, rfl, fun h => ?_⟩, ⟨_, rfl, rfl, rfl, fun h => ?_⟩⟩
  · exact Bool.false_ne_true (h.1.2 ⟨3, someInfo 7, rfl, rfl⟩)
  · rcases h with ⟨i, hi, -⟩ | ⟨-, hnone⟩
    · exact nomatch hi
    · exact Bool.false_ne_true ((hnone 2 (someInfo 7) rfl).symm.trans rfl)

end Descriptors

end UdtKernel.Core
