import UdtKernel.Text.ListEdits
import UdtKernel.Lib.Run

set_option autoImplicit false

/-! Texts that share what they are made of until one of them is edited. -/

namespace UdtKernel.CText
open Lib

/-- A `CText`: which `impl_t` it holds, and `FCodePointLength`. -/
structure Handle where
  impl : ℕ
  length : ℕ

/-- The text that is edited, the other ones, and what they hold. -/
structure World where
  impls : ℕ → Impl
  next : ℕ
  main : Handle
  others : List Handle

namespace World

def isShared (w : World) : Bool := w.others.any fun h => h.impl = w.main.impl

def mainStore (w : World) : Store :=
  { w.impls w.main.impl with shared := w.isShared, length := w.main.length }

def codesOf (w : World) (h : Handle) : List ℕ := (w.impls h.impl).buf.take h.length

/-- The code points of the other texts; there are none where there is no text. -/
def env (w : World) (k : ℕ) : List ℕ := (w.others.map w.codesOf).getD k []

/-- An `impl_t` is written to, or a new one is held in the place of one that is not its own. -/
def keep (w : World) (s : Store) : World :=
  if s.shared then { w with main := ⟨w.main.impl, s.length⟩ }
  else if w.isShared then
    { w with
      impls := Function.update w.impls w.next s.toImpl
      next := w.next + 1
      main := ⟨w.next, s.length⟩ }
  else
    { w with
      impls := Function.update w.impls w.main.impl s.toImpl
      main := ⟨w.main.impl, s.length⟩ }

end World

/-- A call, with what stands in the memory it is given, or the construction of a copy. -/
inductive Event where
  | edit (call : Call) (junk : ℕ → ℕ)
  | copy

def Event.IsEdit : Event → Prop
  | edit _ _ => True
  | copy => False

namespace World
variable (reserved : ℕ → ℕ)

def step : Event → World → Except Fault World
  | .edit call junk, w => do return w.keep (← w.mainStore.edit reserved junk w.env call)
  | .copy, w => .ok { w with others := w.others ++ [w.main] }

/-- The calls whose defects are not met, and that need no more memory than a `size_type` tells. -/
def Fits (w : World) : Event → Prop
  | .edit call _ => call.Fits w.env w.mainStore ∧
    (w.mainStore.bufLen ≠ 0 ∨ call.Allocates w.env w.mainStore.codes) ∧
    w.mainStore.Room reserved (call.apply w.env w.mainStore.codes).length
  | .copy => True

end World

structure Lists where
  main : List ℕ
  others : List (List ℕ)

def Lists.step (l : Lists) : Event → Lists
  | .edit call _ => { l with main := call.apply (fun k => l.others.getD k []) l.main }
  | .copy => { l with others := l.others ++ [l.main] }

namespace World
variable {reserved : ℕ → ℕ} {w : World}

def lists (w : World) : Lists := ⟨w.mainStore.codes, w.others.map w.codesOf⟩

/-- The texts are as they are made, or as the edits leave them. -/
structure Inv (w : World) : Prop where
  ready : w.mainStore.Ready
  main_lt : w.main.impl < w.next
  others_lt : ∀ h ∈ w.others, h.impl < w.next ∧ h.length < maxSize

theorem Inv.env_le (hw : w.Inv) (k : ℕ) : (w.env k).length ≤ npos := by
  rw [env, List.getD_eq_getElem?_getD, List.getElem?_map]
  cases hk : w.others[k]? with
  | none => exact Nat.zero_le _
  | some h =>
    have hlt := (hw.others_lt h (List.mem_of_getElem? hk)).2
    change ((w.impls h.impl).buf.take h.length).length ≤ npos
    rw [List.length_take]
    unfold maxSize at hlt
    omega

theorem map_codesOf_congr {l : List Handle} {w w' : World}
    (h : ∀ x ∈ l, w'.impls x.impl = w.impls x.impl) : l.map w'.codesOf = l.map w.codesOf :=
  List.map_congr_left fun x hx => by rw [codesOf, codesOf, h x hx]

theorem not_shared {w : World} (h : ¬w.isShared = true) {x : Handle} (hx : x ∈ w.others) :
    x.impl ≠ w.main.impl := by
  rw [isShared, List.any_eq_true] at h
  exact fun heq => h ⟨x, hx, decide_eq_true heq⟩

theorem Inv.of_kept (hw : w.Inv) {w' : World} {s : Store} (hs : s.Good)
    (hmain : w'.impls w'.main.impl = s.toImpl) (hlength : w'.main.length = s.length)
    (hothers : w'.others = w.others) (hsame : ∀ x ∈ w.others, w'.impls x.impl = w.impls x.impl)
    (hlt : w'.main.impl < w'.next) (hnext : w.next ≤ w'.next) :
    w'.Inv ∧ w'.mainStore.Good ∧ w'.lists = ⟨s.codes, w.lists.others⟩ := by
  have hstore : w'.mainStore = { s with shared := w'.isShared } := by
    rw [mainStore, hmain, hlength]
  have hgood : w'.mainStore.Good := by
    rw [hstore]
    exact ⟨hs.memory, hs.room, hs.ended, hs.small⟩
  refine ⟨⟨.inl hgood, hlt, ?_⟩, hgood, ?_⟩
  · intro x hx
    rw [hothers] at hx
    obtain ⟨hold, hsmall⟩ := hw.others_lt x hx
    exact ⟨lt_of_lt_of_le hold hnext, hsmall⟩
  · rw [lists, hstore, hothers, map_codesOf_congr hsame]
    rfl

/-- The text keeps what an edit made of it, and the other texts are as before. -/
theorem Inv.keep (hw : w.Inv) {s : Store} (hs : s.Good)
    (hown : s.shared = false ∨ s = w.mainStore) :
    (w.keep s).Inv ∧ (w.keep s).mainStore.Good ∧ (w.keep s).lists = ⟨s.codes, w.lists.others⟩ := by
  have hmain := hw.main_lt
  rw [World.keep]
  split_ifs with hshared hothers
  · obtain rfl : s = w.mainStore := hown.resolve_left (by rw [hshared]; decide)
    exact hw.of_kept hs rfl rfl rfl (fun _ _ => rfl) hmain le_rfl
  · refine hw.of_kept hs (Function.update_self _ _ _) rfl rfl ?_ (Nat.lt_succ_self _)
      (Nat.le_succ _)
    exact fun x hx => Function.update_of_ne (Nat.ne_of_lt (hw.others_lt x hx).1) _ _
  · refine hw.of_kept hs (Function.update_self _ _ _) rfl rfl ?_ hmain le_rfl
    exact fun x hx => Function.update_of_ne (not_shared hothers hx) _ _

theorem Inv.copy (hw : w.Inv) : ({ w with others := w.others ++ [w.main] } : World).Inv := by
  refine ⟨hw.ready.imp (fun h => ⟨h.memory, h.room, h.ended, h.small⟩) id, hw.main_lt, ?_⟩
  intro x hx
  rcases List.mem_append.1 hx with hx | hx
  · exact hw.others_lt x hx
  · obtain rfl := List.mem_singleton.1 hx
    exact ⟨hw.main_lt, hw.ready.small⟩

/-- What a step does to the texts is done to the lists, and the text is a good one after an edit. -/
theorem step_outcome (hreserved : ∀ n, n ≤ reserved n) (hw : w.Inv) {e : Event}
    (hfits : w.Fits reserved e) :
    Outcome (· = .check) (fun w' => w'.Inv ∧ w'.lists = w.lists.step e ∧
      (e.IsEdit ∨ w.mainStore.Good → w'.mainStore.Good)) (step reserved e w) := by
  cases e with
  | edit call junk =>
    obtain ⟨hcall, hbuf, hroom⟩ := hfits
    have hgood : w.mainStore.Good ∨ call.Allocates w.env w.mainStore.codes :=
      hbuf.imp_left fun hne => hw.ready.resolve_right fun h => hne h.2.1
    have hedit := edit_edited junk hreserved hw.ready hw.env_le hcall hgood hroom
    refine hedit.bind fun s hs => ?_
    obtain ⟨hkept, hkeptGood, hlists⟩ := hw.keep hs.1 hs.2.2
    refine ⟨hkept, ?_, fun _ => hkeptGood⟩
    rw [hlists, hs.2.1]
    rfl
  | copy =>
    refine ⟨hw.copy, ?_, ?_⟩
    · rw [lists, lists, Lists.step, List.map_append]
      rfl
    · rintro (h | h)
      · exact h.elim
      · exact ⟨h.memory, h.room, h.ended, h.small⟩

/-- In a run whose calls all fit, the texts are as the lists after the same calls, and a text that
    was edited ends with a null in memory of its own. -/
theorem runAll_lists (hreserved : ∀ n, n ≤ reserved n) (hw : w.Inv) {events : List Event}
    (hfits : EveryStep (step reserved) (Fits reserved) events w) :
    Outcome (· = .check) (fun w' => w'.lists = events.foldl Lists.step w.lists ∧
      ((∃ e ∈ events, e.IsEdit) ∨ w.mainStore.Good → w'.mainStore.Good))
      (runAll (step reserved) events w) := by
  have hrun := runAll_outcome_rest (E := (· = .check))
    (I := fun rest w' => w'.Inv ∧ rest.foldl Lists.step w'.lists = events.foldl Lists.step w.lists ∧
      ((∃ e ∈ events, e.IsEdit) ∨ w.mainStore.Good →
        (∃ e ∈ rest, e.IsEdit) ∨ w'.mainStore.Good))
    (fun e rest w' hI hP => ?_) ⟨hw, rfl, id⟩ hfits
  · refine hrun.mono fun w' hI => ⟨hI.2.1, fun h => (hI.2.2 h).resolve_left ?_⟩
    rintro ⟨e, he, -⟩
    exact nomatch he
  · obtain ⟨hinv, hlists, hgood⟩ := hI
    refine (step_outcome hreserved hinv hP).mono fun w'' hw'' => ⟨hw''.1, ?_, fun h => ?_⟩
    · rw [hw''.2.1, ← hlists]
      rfl
    · rcases hgood h with ⟨e', he', hedit⟩ | hmain
      · rcases List.mem_cons.1 he' with rfl | he'
        · exact .inr (hw''.2.2 (.inl hedit))
        · exact .inl ⟨e', he', hedit⟩
      · exact .inr (hw''.2.2 (.inr hmain))

/-- A text of two characters, with memory for three. -/
def ab : World := ⟨fun _ => ⟨[97, 98, 0], 3, none, 0, 0⟩, 1, ⟨0, 2⟩, []⟩

theorem inv_ab : ab.Inv where
  ready := .inl ⟨rfl, by decide, rfl, by decide⟩
  main_lt := by decide
  others_lt _ hx := nomatch hx

theorem runAll_lists_copied :
    Outcome (· = .check) (fun w' => w'.lists = ⟨[99, 99, 99], [[97, 98]]⟩ ∧ w'.mainStore.Good)
      (runAll (step fun n => n * 13 / 10) [.copy, .edit (.assign (.fill 3 99)) fun _ => 7] ab) := by
  have hfits : EveryStep (step fun n => n * 13 / 10) (Fits fun n => n * 13 / 10)
      [.copy, .edit (.assign (.fill 3 99)) fun _ => 7] ab := by
    refine ⟨trivial, fun w' _ => ⟨⟨trivial, .inr trivial, ?_, .inr ?_⟩, fun _ _ => trivial⟩⟩
    · change (List.replicate 3 99).length < 2 ^ 64
      decide
    · change ((List.replicate 3 99).length + 1) * 13 / 10 * 4 < 2 ^ 64
      decide
  exact (runAll_lists (fun n => by omega) inv_ab hfits).mono fun w' hw' =>
    ⟨hw'.1, hw'.2 (.inl ⟨_, List.mem_cons_of_mem _ List.mem_cons_self, trivial⟩)⟩

/-- A `std::string` of the one character of the code `0xe9`. -/
def acute : StdString := ⟨[⟨0xe9, by decide⟩], by decide⟩

/-- `replace` takes the bytes of a `std::string` for code points. -/
theorem replace_widens : ∃ w', ab.Inv ∧
    step (fun n => n * 13 / 10) (.edit (.replace 0 1 (.std acute 0 npos)) fun _ => 7) ab = .ok w' ∧
    w'.lists.main = [0xc3, 0xa9, 98] ∧
    (ab.lists.step (.edit (.replace 0 1 (.std acute 0 npos)) fun _ => 7)).main = [0xe9, 98] := by
  have hcodes : ((step (fun n => n * 13 / 10) (.edit (.replace 0 1 (.std acute 0 npos)) fun _ => 7)
      ab).toOption.map fun w' => w'.lists.main) = some [0xc3, 0xa9, 98] := by decide +kernel
  cases hstep : step (fun n => n * 13 / 10)
      (.edit (.replace 0 1 (.std acute 0 npos)) fun _ => 7) ab with
  | error e =>
    rw [hstep] at hcodes
    exact nomatch hcodes
  | ok w' =>
    rw [hstep] at hcodes
    exact ⟨w', inv_ab, rfl, Option.some.inj hcodes, by decide +kernel⟩

end World

end UdtKernel.CText
