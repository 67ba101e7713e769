import Mathlib.Order.Basic
import Mathlib.Order.Defs.LinearOrder
import Mathlib.Data.List.Basic
import Mathlib.Algebra.GroupWithZero.Nat
import Mathlib.Order.CompletePartialOrder

set_option autoImplicit false

namespace UdtKernel.Lib

/-- A finite map kept as a strictly increasing list of keys, so that an unsorted or a
    doubly keyed table cannot be built. Two maps with the same lookups are equal. -/
structure SortedMap (κ ν : Type) [LinearOrder κ] where
  entries : List (κ × ν)
  sorted : entries.Pairwise (fun p q => p.1 < q.1)

namespace SortedMap

variable {κ ν : Type} [LinearOrder κ]

instance [DecidableEq ν] : DecidableEq (SortedMap κ ν) := fun m n =>
  decidable_of_iff (m.entries = n.entries) ⟨fun h => by cases m; cases n; cases h; rfl, congrArg _⟩

def empty : SortedMap κ ν := ⟨[], List.Pairwise.nil⟩

instance : Inhabited (SortedMap κ ν) := ⟨empty⟩

def lookup (k : κ) : List (κ × ν) → Option ν
  | [] => none
  | (a, v) :: l => if k = a then some v else lookup k l

def find (m : SortedMap κ ν) (k : κ) : Option ν := lookup k m.entries

def keys (m : SortedMap κ ν) : List κ := m.entries.map Prod.fst

def values (m : SortedMap κ ν) : List ν := m.entries.map Prod.snd

/-- One pass over the list: `f` sees the value at `k`, if any, and says what is kept there. -/
def alterEntries (k : κ) (f : Option ν → Option ν) : List (κ × ν) → List (κ × ν)
  | [] => match f none with
    | none => []
    | some w => [(k, w)]
  | (a, v) :: l =>
    if k < a then match f none with
      | none => (a, v) :: l
      | some w => (k, w) :: (a, v) :: l
    else if k = a then match f (some v) with
      | none => l
      | some w => (k, w) :: l
    else (a, v) :: alterEntries k f l

theorem mem_alterEntries {k : κ} {f : Option ν → Option ν} {l : List (κ × ν)} {p : κ × ν}
    (h : p ∈ alterEntries k f l) : p.1 = k ∨ p ∈ l := by
  induction l with
  | nil =>
    unfold alterEntries at h
    cases hf : f none <;> simp_all
  | cons q l ih =>
    obtain ⟨a, v⟩ := q
    unfold alterEntries at h
    split at h
    · cases hf : f none with
      | none => simp only [hf] at h; exact .inr h
      | some w =>
        simp only [hf, List.mem_cons] at h
        rcases h with rfl | h
        · exact .inl rfl
        · exact .inr (List.mem_cons.2 h)
    · split at h
      · cases hf : f (some v) with
        | none => simp only [hf] at h; exact .inr (List.mem_cons_of_mem _ h)
        | some w =>
          simp only [hf, List.mem_cons] at h
          rcases h with rfl | h
          · exact .inl rfl
          · exact .inr (List.mem_cons_of_mem _ h)
      · rcases List.mem_cons.1 h with rfl | h
        · exact .inr List.mem_cons_self
        · rcases ih h with hk | hm
          · exact .inl hk
          · exact .inr (List.mem_cons_of_mem _ hm)

theorem alterEntries_sorted (k : κ) (f : Option ν → Option ν) (l : List (κ × ν))
    (h : l.Pairwise (fun p q => p.1 < q.1)) :
    (alterEntries k f l).Pairwise (fun p q => p.1 < q.1) := by
  induction l with
  | nil =>
    unfold alterEntries
    cases hf : f none <;> simp
  | cons q l ih =>
    obtain ⟨a, v⟩ := q
    obtain ⟨ha, hl⟩ := List.pairwise_cons.1 h
    unfold alterEntries
    split
    · rename_i hlt
      cases hf : f none with
      | none => exact h
      | some w =>
        refine List.pairwise_cons.2 ⟨fun p hp => ?_, h⟩
        rcases List.mem_cons.1 hp with rfl | hp
        · exact hlt
        · exact lt_trans hlt (ha p hp)
    · rename_i hnlt
      split
      · rename_i heq
        cases hf : f (some v) with
        | none => exact hl
        | some w => exact List.pairwise_cons.2 ⟨fun p hp => heq ▸ ha p hp, hl⟩
      · rename_i hne
        have hak : a < k := lt_of_le_of_ne (not_lt.1 hnlt) (Ne.symm hne)
        refine List.pairwise_cons.2 ⟨fun p hp => ?_, ih hl⟩
        rcases mem_alterEntries hp with hk | hm
        · simpa [hk] using hak
        · exact ha p hm

def alter (m : SortedMap κ ν) (k : κ) (f : Option ν → Option ν) : SortedMap κ ν :=
  ⟨alterEntries k f m.entries, alterEntries_sorted k f m.entries m.sorted⟩

/-- `operator[] =`: what was there is overwritten. -/
def insert (m : SortedMap κ ν) (k : κ) (v : ν) : SortedMap κ ν := m.alter k fun _ => some v

/-- `std::map::insert`: an entry that is already there stays. -/
def insertNew (m : SortedMap κ ν) (k : κ) (v : ν) : SortedMap κ ν :=
  m.alter k fun o => some (o.getD v)

def erase (m : SortedMap κ ν) (k : κ) : SortedMap κ ν := m.alter k fun _ => none

theorem lookup_eq_none_of_forall_lt {k : κ} {l : List (κ × ν)} (h : ∀ p ∈ l, k < p.1) :
    lookup k l = none := by
  induction l with
  | nil => rfl
  | cons q l ih =>
    have hq : k ≠ q.1 := ne_of_lt (h q List.mem_cons_self)
    simpa [lookup, hq] using ih fun p hp => h p (List.mem_cons_of_mem _ hp)

theorem lookup_alterEntries (k : κ) (f : Option ν → Option ν) (l : List (κ × ν))
    (h : l.Pairwise (fun p q => p.1 < q.1)) (k' : κ) :
    lookup k' (alterEntries k f l) = if k' = k then f (lookup k l) else lookup k' l := by
  induction l with
  | nil =>
    unfold alterEntries
    by_cases hk : k' = k <;> cases hf : f none <;> simp [lookup, hk, hf]
  | cons q l ih =>
    obtain ⟨a, v⟩ := q
    obtain ⟨ha, hl⟩ := List.pairwise_cons.1 h
    by_cases hlt : k < a
    · have hnone : lookup k ((a, v) :: l) = none :=
        lookup_eq_none_of_forall_lt fun p hp => by
          rcases List.mem_cons.1 hp with rfl | hp
          · exact hlt
          · exact lt_trans hlt (ha p hp)
      rw [hnone]
      by_cases hk : k' = k
      · subst hk
        cases hf : f none with
        | none => simp [alterEntries, hlt, hf, hnone]
        | some w => simp [alterEntries, hlt, hf, lookup]
      · cases hf : f none <;> simp [alterEntries, hlt, hf, lookup, hk]
    · by_cases heq : k = a
      · subst heq
        have hnone : lookup k l = none := lookup_eq_none_of_forall_lt ha
        by_cases hk : k' = k
        · subst hk
          cases hf : f (some v) <;> simp [alterEntries, hf, lookup, hnone]
        · cases hf : f (some v) <;> simp [alterEntries, hf, lookup, hk]
      · simp only [alterEntries, hlt, heq, if_false, lookup]
        rw [ih hl]
        by_cases hk : k' = k
        · subst hk; simp [heq]
        · simp [hk]

@[simp] theorem find_empty (k : κ) : (empty : SortedMap κ ν).find k = none := rfl

theorem find_alter (m : SortedMap κ ν) (k : κ) (f : Option ν → Option ν) (k' : κ) :
    (m.alter k f).find k' = if k' = k then f (m.find k) else m.find k' :=
  lookup_alterEntries k f m.entries m.sorted k'

@[simp] theorem find_alter_self (m : SortedMap κ ν) (k : κ) (f : Option ν → Option ν) :
    (m.alter k f).find k = f (m.find k) := by
  simp [find_alter]

theorem find_alter_of_ne (m : SortedMap κ ν) {k k' : κ} (f : Option ν → Option ν)
    (h : k' ≠ k) : (m.alter k f).find k' = m.find k' := by
  simp [find_alter, h]

/-- A loop over `l` leaves under a key what the elements with that key make of it. -/
theorem find_foldl_alter {α : Type} (key : α → κ) (f : α → Option ν → Option ν) (l : List α)
    (m : SortedMap κ ν) (k : κ) : (l.foldl (fun m a => m.alter (key a) (f a)) m).find k =
      (l.filter fun a => key a = k).foldl (fun o a => f a o) (m.find k) := by
  induction l generalizing m with
  | nil => rfl
  | cons a l ih =>
    rw [List.foldl_cons, ih, find_alter]
    by_cases h : key a = k
    · simp [h]
    · simp [h, Ne.symm h]

theorem find_insert (m : SortedMap κ ν) (k : κ) (v : ν) (k' : κ) :
    (m.insert k v).find k' = if k' = k then some v else m.find k' := find_alter ..

@[simp] theorem find_insert_self (m : SortedMap κ ν) (k : κ) (v : ν) :
    (m.insert k v).find k = some v := by
  simp [find_insert]

theorem find_insertNew (m : SortedMap κ ν) (k : κ) (v : ν) (k' : κ) :
    (m.insertNew k v).find k' = if k' = k then some ((m.find k).getD v) else m.find k' :=
  find_alter ..

theorem find_erase (m : SortedMap κ ν) (k k' : κ) :
    (m.erase k).find k' = if k' = k then none else m.find k' := find_alter ..

@[simp] theorem find_erase_self (m : SortedMap κ ν) (k : κ) : (m.erase k).find k = none := by
  simp [find_erase]

theorem mem_entries_iff (m : SortedMap κ ν) (k : κ) (v : ν) :
    (k, v) ∈ m.entries ↔ m.find k = some v := by
  obtain ⟨l, hl⟩ := m
  change (k, v) ∈ l ↔ lookup k l = some v
  induction l with
  | nil => simp [lookup]
  | cons q l ih =>
    obtain ⟨a, w⟩ := q
    obtain ⟨ha, hl'⟩ := List.pairwise_cons.1 hl
    by_cases hk : k = a
    · subst hk
      have hnot : (k, v) ∉ l := fun hm => lt_irrefl k (ha _ hm)
      simp [lookup, hnot, eq_comm]
    · simp [lookup, hk, ih hl']

theorem mem_keys_iff (m : SortedMap κ ν) (k : κ) : k ∈ m.keys ↔ ∃ v, m.find k = some v := by
  simp [keys, ← mem_entries_iff]

theorem keys_sorted (m : SortedMap κ ν) : m.keys.Pairwise (· < ·) :=
  List.pairwise_map.2 m.sorted

theorem keys_nodup (m : SortedMap κ ν) : m.keys.Nodup :=
  m.keys_sorted.imp fun h => ne_of_lt h

theorem entries_eq_of_mem_iff {l l' : List (κ × ν)} (hl : l.Pairwise (fun p q => p.1 < q.1))
    (hl' : l'.Pairwise (fun p q => p.1 < q.1)) (h : ∀ p, p ∈ l ↔ p ∈ l') : l = l' := by
  refine List.Perm.eq_of_pairwise (fun p q _ _ hpq hqp => absurd hqp (lt_asymm hpq)) hl hl' ?_
  refine (List.perm_ext_iff_of_nodup ?_ ?_).2 h
  · exact hl.imp fun hlt heq => ne_of_lt hlt (congrArg Prod.fst heq)
  · exact hl'.imp fun hlt heq => ne_of_lt hlt (congrArg Prod.fst heq)

theorem ext_find {m n : SortedMap κ ν} (h : ∀ k, m.find k = n.find k) : m = n := by
  have he : m.entries = n.entries := entries_eq_of_mem_iff m.sorted n.sorted fun p => by
    obtain ⟨k, v⟩ := p
    rw [mem_entries_iff, mem_entries_iff, h k]
  cases m; cases n; cases he; rfl

theorem insert_insert (m : SortedMap κ ν) (k : κ) (v w : ν) :
    (m.insert k v).insert k w = m.insert k w := ext_find fun k' => by
  simp only [find_insert]
  split_ifs <;> rfl

theorem erase_insert (m : SortedMap κ ν) (k : κ) (v : ν) : (m.insert k v).erase k = m.erase k :=
  ext_find fun k' => by
    simp only [find_erase, find_insert]
    split_ifs <;> rfl

theorem erase_of_find_none {m : SortedMap κ ν} {k : κ} (h : m.find k = none) : m.erase k = m :=
  ext_find fun k' => by
    rw [find_erase]
    split_ifs with hk
    · rw [hk, h]
    · rfl

theorem entries_nodup (m : SortedMap κ ν) : m.entries.Nodup :=
  m.sorted.imp fun hlt heq => ne_of_lt hlt (congrArg Prod.fst heq)

/-- An entry and the others. -/
theorem entries_perm {m : SortedMap κ ν} {k : κ} {v : ν} (h : m.find k = some v) :
    m.entries.Perm ((k, v) :: (m.erase k).entries) := by
  refine (List.perm_ext_iff_of_nodup m.entries_nodup
    (List.nodup_cons.2 ⟨fun hmem => ?_, entries_nodup _⟩)).2 ?_
  · rw [mem_entries_iff, find_erase_self] at hmem
    cases hmem
  · rintro ⟨k', w⟩
    rw [List.mem_cons, mem_entries_iff, mem_entries_iff, find_erase, Prod.mk.injEq]
    by_cases hk : k' = k
    · subst hk
      simp [h, eq_comm]
    · simp [hk]

def filter (m : SortedMap κ ν) (p : κ → ν → Bool) : SortedMap κ ν :=
  ⟨m.entries.filter fun e => p e.1 e.2, m.sorted.filter _⟩

theorem find_filter (m : SortedMap κ ν) (p : κ → ν → Bool) (k : κ) :
    (m.filter p).find k = (m.find k).filter (p k) := by
  cases h : m.find k with
  | none =>
    rw [Option.filter_none, Option.eq_none_iff_forall_ne_some]
    intro v hv
    rw [← mem_entries_iff] at hv
    have hm : (k, v) ∈ m.entries := (List.mem_filter.1 hv).1
    rw [mem_entries_iff, h] at hm
    cases hm
  | some v =>
    have hm : (k, v) ∈ m.entries := (mem_entries_iff m k v).2 h
    cases hp : p k v with
    | true =>
      rw [Option.filter_some, hp, if_pos rfl, ← mem_entries_iff]
      exact List.mem_filter.2 ⟨hm, hp⟩
    | false =>
      rw [Option.filter_some, hp, if_neg Bool.false_ne_true, Option.eq_none_iff_forall_ne_some]
      intro w hw
      rw [← mem_entries_iff] at hw
      obtain ⟨hwm, hwp⟩ := List.mem_filter.1 hw
      rw [mem_entries_iff, h] at hwm
      cases hwm
      simp [hp] at hwp

def mapVal {μ : Type} (m : SortedMap κ ν) (f : κ → ν → μ) : SortedMap κ μ :=
  ⟨m.entries.map fun e => (e.1, f e.1 e.2), List.pairwise_map.2 m.sorted⟩

theorem find_mapVal {μ : Type} (m : SortedMap κ ν) (f : κ → ν → μ) (k : κ) :
    (m.mapVal f).find k = (m.find k).map (f k) := by
  obtain ⟨l, hl⟩ := m
  change lookup k (l.map fun e => (e.1, f e.1 e.2)) = (lookup k l).map (f k)
  clear hl
  induction l with
  | nil => rfl
  | cons q l ih =>
    by_cases hk : k = q.1
    · simp [lookup, hk]
    · simpa [lookup, hk] using ih

end SortedMap

end UdtKernel.Lib

/-! The values of a map, when the value of one key changes. -/

namespace UdtKernel.Lib.SortedMap

variable {κ ν α : Type} [LinearOrder κ] {m : SortedMap κ ν} {k : κ} {v : ν}

theorem values_perm (h : m.find k = some v) : m.values.Perm (v :: (m.erase k).values) :=
  (entries_perm h).map Prod.snd

theorem values_insert_perm (m : SortedMap κ ν) (k : κ) (v : ν) :
    (m.insert k v).values.Perm (v :: (m.erase k).values) := by
  have hperm := values_perm (find_insert_self m k v)
  rwa [erase_insert] at hperm

section CountP

variable (p : ν → Bool)

theorem countP_erase (h : m.find k = some v) :
    m.values.countP p = (m.erase k).values.countP p + if p v then 1 else 0 := by
  rw [(values_perm h).countP_eq, List.countP_cons]

theorem countP_insert (h : m.find k = some v) (w : ν) :
    (m.insert k w).values.countP p + (if p v then 1 else 0) =
      m.values.countP p + if p w then 1 else 0 := by
  rw [(values_insert_perm m k w).countP_eq, countP_erase p h, List.countP_cons]
  omega

theorem countP_insert_of_none (h : m.find k = none) (w : ν) :
    (m.insert k w).values.countP p = m.values.countP p + if p w then 1 else 0 := by
  rw [(values_insert_perm m k w).countP_eq, erase_of_find_none h, List.countP_cons]

end CountP

section FlatMap

variable (f : ν → List α)

theorem flatMap_erase (h : m.find k = some v) :
    (m.values.flatMap f).Perm (f v ++ (m.erase k).values.flatMap f) :=
  (values_perm h).flatMap_right f

theorem flatMap_insert (m : SortedMap κ ν) (k : κ) (w : ν) :
    ((m.insert k w).values.flatMap f).Perm (f w ++ (m.erase k).values.flatMap f) :=
  (values_insert_perm m k w).flatMap_right f

end FlatMap

end UdtKernel.Lib.SortedMap
