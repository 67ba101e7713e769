import UdtKernel.Lib.SortedMap

set_option autoImplicit false

/-! Maps of maps, read and changed by a pair of keys. -/

namespace UdtKernel.Lib

abbrev NestedMap (κ κ' ν : Type) [LinearOrder κ] [LinearOrder κ'] := SortedMap κ (SortedMap κ' ν)

variable {κ κ' ν : Type} [LinearOrder κ] [LinearOrder κ']

/-- The order in which a nested loop over the two levels meets the keys. -/
def Precedes (x y : κ × κ') : Prop := x.1 < y.1 ∨ x.1 = y.1 ∧ x.2 < y.2

instance (x y : κ × κ') : Decidable (Precedes x y) :=
  inferInstanceAs (Decidable (_ ∨ _))

theorem Precedes.irrefl (x : κ × κ') : ¬Precedes x x := by
  rintro (h | ⟨-, h⟩)
  · exact lt_irrefl _ h
  · exact lt_irrefl _ h

theorem Precedes.asymm {x y : κ × κ'} (h : Precedes x y) : ¬Precedes y x := by
  rcases h with h | ⟨h1, h2⟩
  · rintro (h' | ⟨h', -⟩)
    · exact lt_asymm h h'
    · exact absurd h (by rw [h']; exact lt_irrefl _)
  · rintro (h' | ⟨-, h'⟩)
    · exact absurd h' (by rw [h1]; exact lt_irrefl _)
    · exact lt_asymm h2 h'

namespace NestedMap

def at_ (m : NestedMap κ κ' ν) (x : κ × κ') : Option ν := (m.find x.1).bind fun n => n.find x.2

/-- `operator[][]`: the inner map is created when it is not there. -/
def alterAt (m : NestedMap κ κ' ν) (x : κ × κ') (f : Option ν → Option ν) : NestedMap κ κ' ν :=
  m.alter x.1 fun o => some ((o.getD .empty).alter x.2 f)

def keysOf (m : NestedMap κ κ' ν) (k : κ) : List κ' := ((m.find k).getD .empty).keys

def allKeys (m : NestedMap κ κ' ν) : List (κ × κ') :=
  m.entries.flatMap fun e => e.2.keys.map fun k' => (e.1, k')

theorem at_alterAt (m : NestedMap κ κ' ν) (x y : κ × κ') (f : Option ν → Option ν) :
    at_ (alterAt m x f) y = if y = x then f (at_ m x) else at_ m y := by
  unfold at_ alterAt
  rw [SortedMap.find_alter]
  by_cases h1 : y.1 = x.1
  · rw [if_pos h1, Option.bind_some, SortedMap.find_alter, h1]
    by_cases h2 : y.2 = x.2
    · rw [if_pos h2, if_pos (Prod.ext h1 h2)]
      cases m.find x.1 <;> rfl
    · rw [if_neg h2, if_neg fun h => h2 (congrArg Prod.snd h)]
      cases m.find x.1 <;> rfl
  · rw [if_neg h1, if_neg fun h => h1 (congrArg Prod.fst h)]

@[simp] theorem at_alterAt_self (m : NestedMap κ κ' ν) (x : κ × κ') (f : Option ν → Option ν) :
    at_ (alterAt m x f) x = f (at_ m x) := by
  rw [at_alterAt, if_pos rfl]

theorem at_alterAt_of_ne (m : NestedMap κ κ' ν) {x y : κ × κ'} (f : Option ν → Option ν)
    (h : y ≠ x) : at_ (alterAt m x f) y = at_ m y := by
  rw [at_alterAt, if_neg h]

theorem at_eq_none_of_find {m : NestedMap κ κ' ν} {x : κ × κ'} (h : m.find x.1 = none) :
    at_ m x = none := by
  rw [at_, h]
  rfl

theorem mem_keysOf_iff {m : NestedMap κ κ' ν} {k : κ} {k' : κ'} :
    k' ∈ keysOf m k ↔ (at_ m (k, k')).isSome := by
  unfold keysOf at_
  rw [SortedMap.mem_keys_iff]
  cases m.find k with
  | none => simp
  | some n => simp [Option.isSome_iff_exists]

theorem mem_allKeys_iff {m : NestedMap κ κ' ν} {x : κ × κ'} :
    x ∈ allKeys m ↔ (at_ m x).isSome := by
  obtain ⟨k, k'⟩ := x
  unfold allKeys at_
  rw [List.mem_flatMap, Option.isSome_iff_exists]
  constructor
  · rintro ⟨⟨k₀, n⟩, hn, hx⟩
    obtain ⟨k₁, hk, heq⟩ := List.mem_map.1 hx
    obtain ⟨v, hv⟩ := (SortedMap.mem_keys_iff n k₁).1 hk
    cases heq
    exact ⟨v, by rw [(SortedMap.mem_entries_iff m _ n).1 hn]; exact hv⟩
  · rintro ⟨v, hv⟩
    obtain ⟨n, hn, hv⟩ := Option.bind_eq_some_iff.1 hv
    exact ⟨(k, n), (SortedMap.mem_entries_iff m k n).2 hn,
      List.mem_map.2 ⟨k', (SortedMap.mem_keys_iff n k').2 ⟨v, hv⟩, rfl⟩⟩

/-- No inner map is empty. -/
def Peopled (m : NestedMap κ κ' ν) : Prop := ∀ k ∈ m.keys, ∃ k', (at_ m (k, k')).isSome

theorem Peopled.alterAt {m : NestedMap κ κ' ν} (h : Peopled m) (x : κ × κ')
    {f : Option ν → Option ν} (hf : ∀ o, (f o).isSome) : Peopled (alterAt m x f) := by
  intro k hk
  by_cases hkx : k = x.1
  · refine ⟨x.2, ?_⟩
    rw [hkx]
    change (at_ (NestedMap.alterAt m x f) x).isSome
    rw [at_alterAt_self]
    exact hf _
  · have hfind : (NestedMap.alterAt m x f).find k = m.find k := SortedMap.find_alter_of_ne _ _ hkx
    rw [SortedMap.mem_keys_iff, hfind] at hk
    obtain ⟨k', hk'⟩ := h k ((SortedMap.mem_keys_iff m k).2 hk)
    refine ⟨k', ?_⟩
    rw [at_alterAt_of_ne _ _ fun heq => hkx (congrArg Prod.fst heq)]
    exact hk'

theorem pairwise_flatMap_keys {l : List κ} (hl : l.Pairwise (· < ·)) {f : κ → List κ'}
    (hf : ∀ k ∈ l, (f k).Pairwise (· < ·)) :
    (l.flatMap fun k => (f k).map fun k' => (k, k')).Pairwise Precedes := by
  refine List.pairwise_flatMap.2 ⟨fun k hk => ?_, hl.imp fun hlt x hx y hy => ?_⟩
  · exact List.pairwise_map.2 ((hf k hk).imp fun hlt => .inr ⟨rfl, hlt⟩)
  · obtain ⟨_, -, rfl⟩ := List.mem_map.1 hx
    obtain ⟨_, -, rfl⟩ := List.mem_map.1 hy
    exact .inl hlt

theorem allKeys_sorted (m : NestedMap κ κ' ν) : (allKeys m).Pairwise Precedes := by
  refine List.pairwise_flatMap.2 ⟨fun e _ => ?_, m.sorted.imp fun hlt x hx y hy => ?_⟩
  · exact List.pairwise_map.2 (e.2.keys_sorted.imp fun hlt => .inr ⟨rfl, hlt⟩)
  · obtain ⟨_, -, rfl⟩ := List.mem_map.1 hx
    obtain ⟨_, -, rfl⟩ := List.mem_map.1 hy
    exact .inl hlt

end NestedMap

end UdtKernel.Lib
