import Mathlib.Data.List.Nodup
import Mathlib.Data.Nat.Bitwise
import Mathlib.Data.Prod.Lex
import UdtKernel.Lib.SortedMap
import UdtKernel.Types

set_option autoImplicit false

/-! The failure reports of one array, merged by packet and sender: `MNoteFailSend`. -/

namespace UdtKernel.FailSends
open UdtKernel.Lib

/-- What `_less_compare` looks at. -/
def packetOfSender (f : FailSend) : ℕ ×ₗ Uuid :=
  toLex (f.info.packetNumber, f.info.routing.from_.uuid)

/-- The set `_unique` holds the uuids that are in the new list by now. -/
def pushUnique (newUuids : List Uuid) (u : Uuid) : List Uuid :=
  if u ∈ newUuids then newUuids else newUuids ++ [u]

def mergeFail (jt it : FailSend) : FailSend :=
  let new := jt.setError it.error
  let newUuids := new.info.routing.uuids.foldl pushUnique []
  { new with info := setRouting new.info (it.info.routing.uuids.foldl pushUnique newUuids) }

def noteRepeated (repeates : SortedMap (ℕ ×ₗ Uuid) FailSend) (it : FailSend) :
    SortedMap (ℕ ×ₗ Uuid) FailSend :=
  match repeates.find (packetOfSender it) with
  | none => repeates.insert (packetOfSender it) it
  | some jt =>
    (repeates.erase (packetOfSender it)).insert (packetOfSender it) (mergeFail jt it)

/-- `MNoteFailSend` of one report: to whom it is sent, by the kernel `myId`. All errors go to the
    receivers too, the test of their kind ends in `|| true`. -/
def noteFailSend (myId : Id) (sent : FailSend) : Routing × FailSend :=
  (⟨myId, sent.info.registrators ++ [sent.info.routing.from_.uuid] ++ sent.info.routing.uuids⟩,
    sent)

def noteFailSends (myId : Id) (aFail : List FailSend) : List (Routing × FailSend) :=
  (aFail.foldl noteRepeated .empty).values.map (noteFailSend myId)

theorem mem_pushUnique (us vs : List Uuid) (u : Uuid) :
    u ∈ vs.foldl pushUnique us ↔ u ∈ us ∨ u ∈ vs := by
  induction vs generalizing us with
  | nil => simp
  | cons v vs ih =>
    rw [List.foldl_cons, ih, pushUnique]
    by_cases hv : v ∈ us
    · rw [if_pos hv, List.mem_cons]
      constructor
      · rintro (h | h)
        · exact .inl h
        · exact .inr (.inr h)
      · rintro (h | rfl | h)
        · exact .inl h
        · exact .inl hv
        · exact .inr h
    · rw [if_neg hv, List.mem_append, List.mem_singleton, List.mem_cons, or_assoc]

theorem pushUnique_nodup {us : List Uuid} (h : us.Nodup) (vs : List Uuid) :
    (vs.foldl pushUnique us).Nodup := by
  induction vs generalizing us with
  | nil => exact h
  | cons v vs ih =>
    rw [List.foldl_cons]
    apply ih
    unfold pushUnique
    split_ifs with hv
    · exact h
    · refine List.nodup_append.2 ⟨h, List.nodup_singleton v, fun a ha b hb => ?_⟩
      rintro rfl
      exact hv (List.mem_singleton.1 hb ▸ ha)

theorem mergeFail_error (jt it : FailSend) : (mergeFail jt it).error = jt.error ||| it.error := rfl

theorem mem_mergeFail_routing (jt it : FailSend) (u : Uuid) :
    u ∈ (mergeFail jt it).info.routing.uuids ↔
      u ∈ jt.info.routing.uuids ∨ u ∈ it.info.routing.uuids := by
  change u ∈ it.info.routing.uuids.foldl pushUnique (jt.info.routing.uuids.foldl pushUnique []) ↔ _
  rw [mem_pushUnique, mem_pushUnique]
  simp

theorem mergeFail_routing_nodup (jt it : FailSend) :
    (mergeFail jt it).info.routing.uuids.Nodup :=
  pushUnique_nodup (pushUnique_nodup List.nodup_nil _) _

/-- The reports of `fs` merged into `f`. -/
theorem foldl_mergeFail (f : FailSend) (fs : List FailSend) :
    packetOfSender (fs.foldl mergeFail f) = packetOfSender f ∧
    (fs.foldl mergeFail f).info.registrators = f.info.registrators ∧
    (∀ i, (fs.foldl mergeFail f).error.testBit i ↔ ∃ g ∈ f :: fs, g.error.testBit i) ∧
    ∀ u, u ∈ (fs.foldl mergeFail f).info.routing.uuids ↔
      ∃ g ∈ f :: fs, u ∈ g.info.routing.uuids := by
  induction fs generalizing f with
  | nil => simp
  | cons g fs ih =>
    obtain ⟨hkey, hreg, herr, hrout⟩ := ih (mergeFail f g)
    rw [List.foldl_cons]
    refine ⟨hkey, hreg, fun i => ?_, fun u => ?_⟩
    · rw [herr]
      simp only [List.exists_mem_cons_iff, mergeFail_error, Nat.testBit_or, Bool.or_eq_true,
        or_assoc]
    · rw [hrout]
      simp only [List.exists_mem_cons_iff, mem_mergeFail_routing, or_assoc]

theorem foldl_mergeFail_nodup (f : FailSend) (fs : List FailSend) :
    (fs.foldl mergeFail f).info.routing.uuids.Nodup ↔ fs = [] → f.info.routing.uuids.Nodup := by
  induction fs generalizing f with
  | nil => simp
  | cons g fs ih =>
    rw [List.foldl_cons, ih]
    exact ⟨fun _ h => (nomatch h), fun _ _ => mergeFail_routing_nodup f g⟩

def reportsOf (aFail : List FailSend) (k : ℕ ×ₗ Uuid) : List FailSend :=
  aFail.filter fun f => packetOfSender f = k

theorem mem_reportsOf {aFail : List FailSend} {k : ℕ ×ₗ Uuid} {f : FailSend} :
    f ∈ reportsOf aFail k ↔ f ∈ aFail ∧ packetOfSender f = k := by simp [reportsOf]

theorem noteRepeated_eq (m : SortedMap (ℕ ×ₗ Uuid) FailSend) (it : FailSend) :
    noteRepeated m it = m.alter (packetOfSender it)
      fun o => some (o.elim it fun jt => mergeFail jt it) := by
  refine SortedMap.ext_find fun k => ?_
  unfold noteRepeated
  cases h : m.find (packetOfSender it) with
  | none =>
    rw [SortedMap.find_insert, SortedMap.find_alter, h]
    rfl
  | some jt =>
    rw [SortedMap.find_insert, SortedMap.find_erase, SortedMap.find_alter, h]
    split_ifs <;> rfl

/-- What is kept under a key: the first report of it with the others merged into it. -/
theorem find_noteRepeated (aFail : List FailSend) (k : ℕ ×ₗ Uuid) (v : FailSend) :
    (aFail.foldl noteRepeated .empty).find k = some v ↔
      ∃ f fs, reportsOf aFail k = f :: fs ∧ v = fs.foldl mergeFail f := by
  have hsome : ∀ (fs : List FailSend) (f : FailSend),
      fs.foldl (fun o it => some (o.elim it fun jt => mergeFail jt it)) (some f) =
        some (fs.foldl mergeFail f) := by
    intro fs
    induction fs with
    | nil => exact fun f => rfl
    | cons g fs ih => exact fun f => ih (mergeFail f g)
  rw [show (noteRepeated : _ → FailSend → _) = _ from funext₂ noteRepeated_eq,
    SortedMap.find_foldl_alter]
  change (reportsOf aFail k).foldl _ none = some v ↔ _
  cases reportsOf aFail k with
  | nil => simp
  | cons f fs =>
    change fs.foldl _ (some f) = some v ↔ _
    rw [hsome, Option.some.injEq]
    constructor
    · rintro rfl
      exact ⟨f, fs, rfl, rfl⟩
    · rintro ⟨f', fs', heq, rfl⟩
      rw [(List.cons.inj heq).1, (List.cons.inj heq).2]

/-- The one report of a packet and sender, and where it goes. -/
structure Merged (aFail : List FailSend) (aTo : Routing) (sent : FailSend) : Prop where
  error : ∀ i, sent.error.testBit i ↔
    ∃ g ∈ aFail, packetOfSender g = packetOfSender sent ∧ g.error.testBit i
  receivers : ∀ u, u ∈ sent.info.routing.uuids ↔
    ∃ g ∈ aFail, packetOfSender g = packetOfSender sent ∧ u ∈ g.info.routing.uuids
  once : sent.info.routing.uuids.Nodup
  registrators : ∀ g ∈ aFail, packetOfSender g = packetOfSender sent →
    ∀ r ∈ g.info.registrators, r ∈ aTo.uuids

structure MergedWithoutLoss (aFail : List FailSend) (issued : List (Routing × FailSend)) :
    Prop where
  one : (issued.map fun p => packetOfSender p.2).Nodup
  keys : ∀ k, (∃ p ∈ issued, packetOfSender p.2 = k) ↔ ∃ f ∈ aFail, packetOfSender f = k
  merged : ∀ p ∈ issued, Merged aFail p.1 p.2

/-- A report that is alone names its receivers once, and a registrator is named by the first
    report of the packet unless it gets the report anyway. -/
structure NothingDropped (aFail : List FailSend) : Prop where
  alone : ∀ f, reportsOf aFail (packetOfSender f) = [f] → f.info.routing.uuids.Nodup
  registrators : ∀ f ∈ aFail, ∀ r ∈ f.info.registrators,
    (∃ first, (reportsOf aFail (packetOfSender f)).head? = some first ∧
      r ∈ first.info.registrators) ∨
    r = f.info.routing.from_.uuid ∨
    ∃ g ∈ aFail, packetOfSender g = packetOfSender f ∧ r ∈ g.info.routing.uuids

theorem mem_noteFailSends {myId : Id} {aFail : List FailSend} {p : Routing × FailSend} :
    p ∈ noteFailSends myId aFail ↔
      ∃ f fs, reportsOf aFail (packetOfSender f) = f :: fs ∧
        p = noteFailSend myId (fs.foldl mergeFail f) := by
  unfold noteFailSends
  rw [List.mem_map]
  constructor
  · rintro ⟨v, hv, rfl⟩
    obtain ⟨⟨k, v⟩, hkv, rfl⟩ := List.mem_map.1 hv
    obtain ⟨f, fs, hfs, rfl⟩ :=
      (find_noteRepeated _ _ _).1 ((SortedMap.mem_entries_iff _ _ _).1 hkv)
    have hf : f ∈ reportsOf aFail k := hfs ▸ List.mem_cons_self
    exact ⟨f, fs, by rw [(mem_reportsOf.1 hf).2, hfs], rfl⟩
  · rintro ⟨f, fs, hfs, rfl⟩
    exact ⟨_, List.mem_map.2 ⟨(packetOfSender f, _), (SortedMap.mem_entries_iff _ _ _).2
      ((find_noteRepeated _ _ _).2 ⟨f, fs, hfs, rfl⟩), rfl⟩, rfl⟩

theorem noteFailSends_keys (myId : Id) (aFail : List FailSend) :
    (noteFailSends myId aFail).map (fun p => packetOfSender p.2) =
      (aFail.foldl noteRepeated .empty).keys := by
  unfold noteFailSends SortedMap.values SortedMap.keys
  rw [List.map_map, List.map_map]
  refine List.map_congr_left fun ⟨k, v⟩ hkv => ?_
  obtain ⟨f, fs, hfs, rfl⟩ := (find_noteRepeated _ _ _).1 ((SortedMap.mem_entries_iff _ _ _).1 hkv)
  have hf : f ∈ reportsOf aFail k := hfs ▸ List.mem_cons_self
  exact (foldl_mergeFail f fs).1.trans (mem_reportsOf.1 hf).2

/-- Where the merged report of `f :: fs` goes. -/
theorem mem_noteFailSend {myId : Id} {f : FailSend} {fs : List FailSend} {r : Uuid} :
    r ∈ (noteFailSend myId (fs.foldl mergeFail f)).1.uuids ↔ r ∈ f.info.registrators ∨
      r = f.info.routing.from_.uuid ∨ ∃ g ∈ f :: fs, r ∈ g.info.routing.uuids := by
  obtain ⟨hkey, hreg, -, hrout⟩ := foldl_mergeFail f fs
  have hfrom : (fs.foldl mergeFail f).info.routing.from_.uuid = f.info.routing.from_.uuid :=
    congrArg (fun k => (ofLex k).2) hkey
  simp only [noteFailSend, List.mem_append, List.mem_singleton, hreg, hfrom, hrout, or_assoc]

section
variable {myId : Id} {aFail : List FailSend} {f : FailSend} {fs : List FailSend}

theorem exists_mem_of_reportsOf (hfs : reportsOf aFail (packetOfSender f) = f :: fs)
    (P : FailSend → Prop) :
    (∃ g ∈ f :: fs, P g) ↔ ∃ g ∈ aFail, packetOfSender g = packetOfSender f ∧ P g := by
  simp only [← hfs, mem_reportsOf, and_assoc]

theorem merged_iff (hfs : reportsOf aFail (packetOfSender f) = f :: fs) :
    Merged aFail (noteFailSend myId (fs.foldl mergeFail f)).1 (fs.foldl mergeFail f) ↔
      (fs = [] → f.info.routing.uuids.Nodup) ∧
      ∀ g ∈ f :: fs, ∀ r ∈ g.info.registrators, r ∈ f.info.registrators ∨
        r = f.info.routing.from_.uuid ∨ ∃ g ∈ f :: fs, r ∈ g.info.routing.uuids := by
  obtain ⟨hkey, -, herr, hrout⟩ := foldl_mergeFail f fs
  constructor
  · intro h
    refine ⟨(foldl_mergeFail_nodup f fs).1 h.once, fun g hg r hr => ?_⟩
    obtain ⟨hmem, hgk⟩ := mem_reportsOf.1 (hfs ▸ hg)
    exact mem_noteFailSend.1 (h.registrators g hmem (hgk.trans hkey.symm) r hr)
  · rintro ⟨honce, hreg⟩
    refine ⟨fun i => ?_, fun u => ?_, (foldl_mergeFail_nodup f fs).2 honce,
      fun g hg hgk r hr => mem_noteFailSend.2 (hreg g ?_ r hr)⟩
    · rw [herr, hkey, exists_mem_of_reportsOf hfs]
    · rw [hrout, hkey, exists_mem_of_reportsOf hfs]
    · exact hfs ▸ mem_reportsOf.2 ⟨hg, hgk.trans hkey⟩

end

theorem noteFailSends_one (myId : Id) (aFail : List FailSend) :
    ((noteFailSends myId aFail).map fun p => packetOfSender p.2).Nodup := by
  rw [noteFailSends_keys]
  exact SortedMap.keys_nodup _

theorem reportsOf_head {aFail : List FailSend} {f : FailSend} (hf : f ∈ aFail) :
    ∃ first fs, reportsOf aFail (packetOfSender f) = first :: fs ∧
      packetOfSender first = packetOfSender f := by
  have hmem := mem_reportsOf.2 ⟨hf, rfl⟩
  obtain ⟨first, fs, hfs⟩ := List.exists_cons_of_ne_nil (List.ne_nil_of_mem hmem)
  exact ⟨first, fs, hfs, (mem_reportsOf.1 (hfs ▸ List.mem_cons_self)).2⟩

theorem issued_of_mem (myId : Id) {aFail : List FailSend} {first : FailSend}
    {fs : List FailSend} (hfs : reportsOf aFail (packetOfSender first) = first :: fs) :
    noteFailSend myId (fs.foldl mergeFail first) ∈ noteFailSends myId aFail :=
  mem_noteFailSends.2 ⟨first, fs, hfs, rfl⟩

theorem noteFailSends_keys_iff (myId : Id) (aFail : List FailSend) (k : ℕ ×ₗ Uuid) :
    (∃ p ∈ noteFailSends myId aFail, packetOfSender p.2 = k) ↔
      ∃ f ∈ aFail, packetOfSender f = k := by
  constructor
  · rintro ⟨p, hp, rfl⟩
    obtain ⟨f, fs, hfs, rfl⟩ := mem_noteFailSends.1 hp
    have hf : f ∈ reportsOf aFail (packetOfSender f) := hfs ▸ List.mem_cons_self
    exact ⟨f, (mem_reportsOf.1 hf).1, (foldl_mergeFail f fs).1.symm⟩
  · rintro ⟨f, hf, rfl⟩
    obtain ⟨first, fs, hfs, hkey⟩ := reportsOf_head hf
    rw [← hkey] at hfs
    exact ⟨_, issued_of_mem myId hfs, (foldl_mergeFail first fs).1.trans hkey⟩

theorem nothingDropped_of_merged {myId : Id} {aFail : List FailSend}
    (h : ∀ p ∈ noteFailSends myId aFail, Merged aFail p.1 p.2) : NothingDropped aFail := by
  refine ⟨fun f hfs => ?_, fun f hf r hr => ?_⟩
  · exact ((merged_iff hfs).1 (h _ (issued_of_mem myId hfs))).1 rfl
  · obtain ⟨first, fs, hfs, hkey⟩ := reportsOf_head hf
    have hown : reportsOf aFail (packetOfSender first) = first :: fs := hkey ▸ hfs
    have hmem : f ∈ first :: fs := hfs ▸ mem_reportsOf.2 ⟨hf, rfl⟩
    have hfrom : first.info.routing.from_.uuid = f.info.routing.from_.uuid :=
      congrArg (fun k => (ofLex k).2) hkey
    rw [hfs, ← hfrom, ← hkey, ← exists_mem_of_reportsOf hown]
    rcases ((merged_iff hown).1 (h _ (issued_of_mem myId hown))).2 f hmem r hr with hr | hr | hr
    · exact .inl ⟨first, rfl, hr⟩
    · exact .inr (.inl hr)
    · exact .inr (.inr hr)

theorem merged_of_nothingDropped {myId : Id} {aFail : List FailSend} (h : NothingDropped aFail) :
    ∀ p ∈ noteFailSends myId aFail, Merged aFail p.1 p.2 := by
  intro p hp
  obtain ⟨first, fs, hfs, rfl⟩ := mem_noteFailSends.1 hp
  refine (merged_iff hfs).2 ⟨fun hnil => h.alone first (hnil ▸ hfs), fun f hf r hr => ?_⟩
  obtain ⟨hmem, hkey⟩ := mem_reportsOf.1 (hfs ▸ hf)
  have hfrom : f.info.routing.from_.uuid = first.info.routing.from_.uuid :=
    congrArg (fun k => (ofLex k).2) hkey
  have hr' := h.registrators f hmem r hr
  rw [hkey, hfs, hfrom, ← exists_mem_of_reportsOf hfs] at hr'
  rcases hr' with ⟨g, hg, hr'⟩ | hr' | hr'
  · exact .inl (Option.some.inj hg ▸ hr')
  · exact .inr (.inl hr')
  · exact .inr (.inr hr')

/-- Reports are merged without loss exactly when the registrators that only a later report of a
    packet names get it as its sender or receivers, and a lone report names nobody twice. -/
theorem noteFailSends_mergedWithoutLoss_iff (myId : Id) (aFail : List FailSend) :
    MergedWithoutLoss aFail (noteFailSends myId aFail) ↔ NothingDropped aFail :=
  ⟨fun h => nothingDropped_of_merged h.merged, fun h =>
    ⟨noteFailSends_one myId aFail, noteFailSends_keys_iff myId aFail,
      merged_of_nothingDropped h⟩⟩

/-- A piece of packet 4 of program 3 that a receiver did not get. -/
def lostPiece (aRegistrators : List Uuid) (aTo : Uuid) : FailSend :=
  ⟨⟨4, [], 0, [], [aTo], aRegistrators, ⟨⟨3, []⟩, [aTo]⟩, .default, shareEndian,
    ⟨⟨0, 0, 0⟩, []⟩⟩, ePacketLost⟩

/-- The registrator 8 of the second report never hears of it. -/
theorem mergedWithoutLoss_false_of_registrators :
    ¬ MergedWithoutLoss [lostPiece [] 5, lostPiece [8] 6]
      (noteFailSends ⟨1, []⟩ [lostPiece [] 5, lostPiece [8] 6]) := by
  intro h
  have hissued : noteFailSends ⟨1, []⟩ [lostPiece [] 5, lostPiece [8] 6] =
      [(⟨⟨1, []⟩, [3, 5, 6]⟩, mergeFail (lostPiece [] 5) (lostPiece [8] 6))] := by decide
  rw [hissued] at h
  have hnot := (h.merged _ List.mem_cons_self).registrators (lostPiece [8] 6) (by decide) rfl 8
    (by decide)
  exact absurd hnot (by decide)

end UdtKernel.FailSends
