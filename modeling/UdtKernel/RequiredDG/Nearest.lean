import Mathlib.Data.Nat.Find
import UdtKernel.RequiredDG.Subscribe

set_option autoImplicit false

/-! Which identifiers are the nearest that conform to a demand. -/

namespace UdtKernel.RequiredDG
open UdtKernel.Lib UdtKernel.Address

/-- The test of the name of an identifier against a demand comes to an end. -/
def Conformable (aName : Text) (d : DemandDg) : Prop :=
  conformable aName d.nameFrom d.flags.invertGroup = true

instance (aName : Text) (d : DemandDg) : Decidable (Conformable aName d) :=
  inferInstanceAs (Decidable (_ = true))

/-- The depth at which the name of an identifier conforms to a demand. -/
def nameDepth (aName : Text) (d : DemandDg) : ℕ := depth aName d.nameFrom d.flags.invertGroup

/-- The depth at which an identifier conforms, zero when it is not known. -/
def depthOf (aIds : SortedMap Uuid Text) (d : DemandDg) (u : Uuid) : ℕ :=
  match aIds.find u with
  | none => 0
  | some name => nameDepth name d

/-- An identifier that a demand is for: it conforms, and for a demand for the nearest ones no
    other conforms at a smaller depth. -/
def Selected (aIds : SortedMap Uuid Text) (d : DemandDg) (u : Uuid) : Prop :=
  depthOf aIds d u ≠ 0 ∧
    (d.flags.nearest = true → ∀ v, depthOf aIds d v ≠ 0 → depthOf aIds d u ≤ depthOf aIds d v)

/-- Every identifier can be tested against the demand. -/
def AllConformable (aIds : SortedMap Uuid Text) (d : DemandDg) : Prop :=
  ∀ e ∈ aIds.entries, Conformable e.2 d

theorem mem_of_depthOf {aIds : SortedMap Uuid Text} {d : DemandDg} {u : Uuid}
    (h : depthOf aIds d u ≠ 0) :
    ∃ name, aIds.find u = some name ∧ depthOf aIds d u = nameDepth name d := by
  unfold depthOf at h ⊢
  cases hu : aIds.find u with
  | none => rw [hu] at h; exact absurd rfl h
  | some name => exact ⟨name, rfl, rfl⟩

/-- What one identifier adds to the result of `getUUIDFor`. -/
theorem foldlM_depths {d : DemandDg} {l : List (Uuid × Text)}
    (hsorted : l.Pairwise fun p q => p.1 < q.1) (hconf : ∀ e ∈ l, Conformable e.2 d)
    (res : SortedMap Uuid ℕ) :
    ∃ m, l.foldlM (fun (res : SortedMap Uuid ℕ) e => do
        let val ← doesIdConformTo e.2 d.nameFrom d.flags.invertGroup
        return if val ≠ 0 then res.insert e.1 val else res) res = Except.ok m ∧
      ∀ u, m.find u = match SortedMap.lookup u l with
        | none => res.find u
        | some name => if nameDepth name d ≠ 0 then some (nameDepth name d) else res.find u := by
  induction l generalizing res with
  | nil => exact ⟨res, rfl, fun u => rfl⟩
  | cons e l ih =>
    obtain ⟨he, hl⟩ := List.pairwise_cons.1 hsorted
    obtain ⟨m, hm, hfind⟩ := ih hl (fun x hx => hconf x (List.mem_cons_of_mem _ hx))
      (if nameDepth e.2 d ≠ 0 then res.insert e.1 (nameDepth e.2 d) else res)
    refine ⟨m, ?_, fun u => ?_⟩
    · rw [List.foldlM_cons, doesIdConformTo_ok (hconf e List.mem_cons_self)]
      exact hm
    · rw [hfind]
      by_cases hu : u = e.1
      · subst hu
        rw [SortedMap.lookup_eq_none_of_forall_lt he, SortedMap.lookup, if_pos rfl]
        by_cases hz : nameDepth e.2 d ≠ 0
        · simp only [if_pos hz, SortedMap.find_insert_self]
        · simp only [if_neg hz]
      · have hsame : (if nameDepth e.2 d ≠ 0 then res.insert e.1 (nameDepth e.2 d)
            else res).find u = res.find u := by
          split_ifs
          · rw [SortedMap.find_insert, if_neg hu]
          · rfl
        rw [SortedMap.lookup, if_neg hu, hsame]

/-- `getUUIDFor` finds the identifiers that conform, each with its depth. -/
theorem getUUIDFor_spec {aIds : SortedMap Uuid Text} {d : DemandDg} (h : AllConformable aIds d) :
    ∃ m, getUUIDFor aIds d.nameFrom d.flags.invertGroup = .ok m ∧
      ∀ u n, m.find u = some n ↔ depthOf aIds d u ≠ 0 ∧ n = depthOf aIds d u := by
  obtain ⟨m, hm, hfind⟩ := foldlM_depths aIds.sorted h .empty
  refine ⟨m, hm, fun u n => ?_⟩
  have hlookup : SortedMap.lookup u aIds.entries = aIds.find u := rfl
  rw [hfind, hlookup, depthOf]
  cases aIds.find u with
  | none => simp
  | some name =>
    by_cases hz : nameDepth name d ≠ 0
    · simp only [if_pos hz, Option.some.injEq]
      exact ⟨fun h => ⟨hz, h.symm⟩, fun h => h.2.symm⟩
    · simp only [if_neg hz, SortedMap.find_empty]
      constructor
      · rintro ⟨⟩
      · rintro ⟨hne, -⟩
        exact absurd hne hz

/-- Only the entries with the least value are kept. -/
theorem find_getOnlyNearest (m : SortedMap Uuid ℕ) (u : Uuid) (n : ℕ) :
    (getOnlyNearestUUIDFor m).find u = some n ↔
      m.find u = some n ∧ ∀ v k, m.find v = some k → n ≤ k := by
  have hvalue : ∀ k, k ∈ m.values ↔ ∃ v, m.find v = some k := fun k => by
    simp [SortedMap.values, ← SortedMap.mem_entries_iff]
  unfold getOnlyNearestUUIDFor
  cases hmin : m.values.min? with
  | none =>
    have hnil : m.values = [] := List.min?_eq_none_iff.1 hmin
    constructor
    · intro hu
      exact absurd ((hvalue n).2 ⟨u, hu⟩) (by rw [hnil]; exact List.not_mem_nil)
    · exact fun h => h.1
  | some least =>
    obtain ⟨hmem, hle⟩ := List.min?_eq_some_iff.1 hmin
    simp only [SortedMap.find_filter, Option.filter_eq_some_iff, decide_eq_true_eq]
    constructor
    · rintro ⟨hu, rfl⟩
      exact ⟨hu, fun v k hv => hle k ((hvalue k).2 ⟨v, hv⟩)⟩
    · rintro ⟨hu, hall⟩
      obtain ⟨v, hv⟩ := (hvalue least).1 hmem
      exact ⟨hu, le_antisymm (hall v least hv) (hle n ((hvalue n).2 ⟨u, hu⟩))⟩

/-- `sendersFor` finds the identifiers that the demand is for. -/
theorem sendersFor_spec {aIds : SortedMap Uuid Text} {d : DemandDg} (h : AllConformable aIds d) :
    ∃ m, sendersFor aIds d = .ok m ∧
      ∀ u n, m.find u = some n ↔ Selected aIds d u ∧ n = depthOf aIds d u := by
  obtain ⟨m, hm, hfind⟩ := getUUIDFor_spec h
  unfold sendersFor
  rw [hm]
  refine ⟨_, rfl, fun u n => ?_⟩
  cases hn : d.flags.nearest with
  | false =>
    simp only [Bool.false_eq_true, if_false, hfind, Selected, hn, false_implies, and_true]
  | true =>
    simp only [if_true, find_getOnlyNearest, hfind, Selected, hn, true_implies]
    constructor
    · rintro ⟨⟨hz, rfl⟩, hall⟩
      exact ⟨⟨hz, fun v hv => hall v _ ⟨hv, rfl⟩⟩, rfl⟩
    · rintro ⟨⟨hz, hall⟩, rfl⟩
      exact ⟨⟨hz, rfl⟩, by rintro v k ⟨hv, rfl⟩; exact hall v hv⟩

/-- The distance of a map all of whose values are one number. -/
theorem firstDistance_eq {m : SortedMap Uuid ℕ} {u : Uuid} {n : ℕ} (hu : m.find u = some n)
    (hall : ∀ v k, m.find v = some k → k = n) : firstDistance m = n := by
  unfold firstDistance
  cases he : m.entries with
  | nil =>
    have hmem := (SortedMap.mem_entries_iff m u n).2 hu
    rw [he] at hmem
    cases hmem
  | cons e l =>
    refine hall e.1 e.2 ((SortedMap.mem_entries_iff m e.1 e.2).1 ?_)
    rw [he]
    exact List.mem_cons_self

/-- The depth of the nearest identifiers that conform, the greatest one when there are none. -/
def leastDepth (aIds : SortedMap Uuid Text) (d : DemandDg) : ℕ :=
  (((aIds.values.map fun name => nameDepth name d).filter (· ≠ 0)).min?).getD unsignedMax

theorem mem_depths {aIds : SortedMap Uuid Text} {d : DemandDg} {n : ℕ} :
    n ∈ (aIds.values.map fun name => nameDepth name d).filter (· ≠ 0) ↔
      n ≠ 0 ∧ ∃ u, depthOf aIds d u = n := by
  simp only [List.mem_filter, List.mem_map, decide_eq_true_eq, SortedMap.values]
  constructor
  · rintro ⟨⟨name, ⟨e, he, rfl⟩, rfl⟩, hz⟩
    refine ⟨hz, e.1, ?_⟩
    rw [depthOf, (SortedMap.mem_entries_iff aIds e.1 e.2).1 he]
  · rintro ⟨hz, u, rfl⟩
    obtain ⟨name, hname, hdepth⟩ := mem_of_depthOf hz
    exact ⟨⟨name, ⟨(u, name), (SortedMap.mem_entries_iff aIds u name).2 hname, rfl⟩, hdepth.symm⟩,
      hz⟩

theorem leastDepth_of_selected {aIds : SortedMap Uuid Text} {d : DemandDg} {u : Uuid}
    (hn : d.flags.nearest = true) (h : Selected aIds d u) :
    leastDepth aIds d = depthOf aIds d u := by
  have hmin : ((aIds.values.map fun name => nameDepth name d).filter (· ≠ 0)).min? =
      some (depthOf aIds d u) := by
    rw [List.min?_eq_some_iff]
    refine ⟨mem_depths.2 ⟨h.1, u, rfl⟩, fun n hmem => ?_⟩
    obtain ⟨hz, v, rfl⟩ := mem_depths.1 hmem
    exact h.2 hn v hz
  rw [leastDepth, hmin]
  rfl

theorem leastDepth_of_none {aIds : SortedMap Uuid Text} {d : DemandDg}
    (h : ∀ u, depthOf aIds d u = 0) : leastDepth aIds d = unsignedMax := by
  have hnil : (aIds.values.map fun name => nameDepth name d).filter (· ≠ 0) = [] := by
    refine List.eq_nil_iff_forall_not_mem.2 fun n hmem => ?_
    obtain ⟨hz, u, rfl⟩ := mem_depths.1 hmem
    exact hz (h u)
  rw [leastDepth, hnil]
  rfl

/-- Some identifier that conforms is nearest. -/
theorem exists_selected {aIds : SortedMap Uuid Text} {d : DemandDg} {v : Uuid}
    (h : depthOf aIds d v ≠ 0) : ∃ u, Selected aIds d u := by
  classical
  have hex : ∃ n, n ≠ 0 ∧ ∃ u, depthOf aIds d u = n := ⟨_, h, v, rfl⟩
  obtain ⟨hz, u, hu⟩ := Nat.find_spec hex
  exact ⟨u, hu ▸ hz, fun _ w hw => hu ▸ Nat.find_min' hex ⟨hw, w, rfl⟩⟩

/-- The distance that is recorded for the senders of a demand for the nearest ones. -/
theorem firstDistance_senders {aIds : SortedMap Uuid Text} {d : DemandDg} {m : SortedMap Uuid ℕ}
    (hn : d.flags.nearest = true)
    (hm : ∀ u n, m.find u = some n ↔ Selected aIds d u ∧ n = depthOf aIds d u) :
    firstDistance m = leastDepth aIds d := by
  by_cases hnone : ∀ u, depthOf aIds d u = 0
  · have hnil : m.entries = [] := by
      refine List.eq_nil_iff_forall_not_mem.2 fun e he => ?_
      have hsel := ((hm e.1 e.2).1 ((SortedMap.mem_entries_iff m e.1 e.2).1 he)).1
      exact hsel.1 (hnone e.1)
    rw [leastDepth_of_none hnone, firstDistance, hnil]
  · push Not at hnone
    obtain ⟨v, hv⟩ := hnone
    obtain ⟨u, hu⟩ := exists_selected hv
    rw [leastDepth_of_selected hn hu]
    refine firstDistance_eq ((hm u _).2 ⟨hu, rfl⟩) fun x k hk => ?_
    obtain ⟨hx, rfl⟩ := (hm x k).1 hk
    exact le_antisymm (hx.2 hn u hu.1) (hu.2 hn x hx.1)

/-- Nearest entries have one value. -/
theorem getOnlyNearest_eq {m : SortedMap Uuid ℕ} {u v : Uuid} {n k : ℕ}
    (hu : (getOnlyNearestUUIDFor m).find u = some n)
    (hv : (getOnlyNearestUUIDFor m).find v = some k) : k = n := by
  rw [find_getOnlyNearest] at hu hv
  exact le_antisymm (hv.2 u n hu.1) (hu.2 v k hv.1)

theorem nearestOf_setNearest (dg : RequiredDG) (r r' : Uuid) (h h' n : ℕ) :
    (dg.setNearest r h n).nearestOf r' h' = if r' = r ∧ h' = h then n else dg.nearestOf r' h' := by
  unfold nearestOf setNearest
  dsimp only
  rw [SortedMap.find_insert]
  have hkey : toLex (r', h') = toLex (r, h) ↔ r' = r ∧ h' = h := by
    rw [toLex_inj, Prod.mk.injEq]
  by_cases heq : r' = r ∧ h' = h
  · rw [if_pos (hkey.2 heq), if_pos heq, Option.getD_some]
  · rw [if_neg fun hh => heq (hkey.1 hh), if_neg heq]

theorem nearestOf_eraseNearest (dg : RequiredDG) {r r' : Uuid} {h h' : ℕ}
    (hne : ¬ (r' = r ∧ h' = h)) :
    (dg.eraseNearest r h).nearestOf r' h' = dg.nearestOf r' h' := by
  unfold nearestOf eraseNearest
  dsimp only
  rw [SortedMap.find_erase, if_neg fun hh => hne (by rwa [toLex_inj, Prod.mk.injEq] at hh)]

end UdtKernel.RequiredDG
