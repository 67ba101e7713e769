import Mathlib.Algebra.Order.BigOperators.Group.Finset
import Mathlib.Data.Fintype.BigOperators
import UdtKernel.Lib.Run

set_option autoImplicit false

/-! `CSafeData`: a lock for many readers or one writer, made of a mutex and two condition
variables. -/

namespace UdtKernel.SafeData
open UdtKernel.Lib

/-- What a thread waits for in `MLock`, and whether it sleeps at the condition variable. -/
inductive Wish where
  | nothing
  | reading (asleep : Bool)
  | writing (asleep : Bool)
  deriving DecidableEq

/-- The `RAccess` and the `WAccess` objects that a thread has, and what it waits for. -/
@[ext] structure Thread where
  reads : ℕ
  writes : ℕ
  wish : Wish
  deriving DecidableEq

def Thread.idle : Thread := ⟨0, 0, .nothing⟩

/-- `safe_data_t` with its users, and who has locked `FMutex`. -/
structure State (ι : Type) where
  threads : ι → Thread
  writers : ℕ
  readers : ℕ
  writersLock : ℕ
  mutex : Option ι

inductive Check where
  | lockedForWriting
  | notLocked
  | noWriters
  | noReaders
  deriving DecidableEq

variable {ι : Type}

def start : State ι := ⟨fun _ => .idle, 0, 0, 0, none⟩

namespace State

section
variable [DecidableEq ι] (s : State ι)

def setThread (i : ι) (t : Thread) : State ι := { s with threads := Function.update s.threads i t }

/-- The loop of `WAccess::MLock`. -/
def awaitReaders (i : ι) : Except Check (State ι) :=
  let t := s.threads i
  if s.readers ≠ 0 then .ok (s.setThread i { t with wish := .writing true })
  else if s.writersLock ≠ 0 then .error .lockedForWriting
  else .ok { s.setThread i { t with wish := .nothing, writes := t.writes + 1 } with
    writersLock := s.writersLock + 1
    mutex := some i }

/-- The loop of `RAccess::MLock`. -/
def awaitWriters (i : ι) : State ι :=
  let t := s.threads i
  if s.writers ≠ 0 then s.setThread i { t with wish := .reading true }
  else { s.setThread i { t with wish := .nothing, reads := t.reads + 1 } with
    readers := s.readers + 1 }

def lockWrite (i : ι) : Except Check (State ι) :=
  State.awaitReaders { s.setThread i { s.threads i with wish := .writing false } with
    writers := s.writers + 1 } i

def lockRead (i : ι) : State ι :=
  State.awaitWriters (s.setThread i { s.threads i with wish := .reading false }) i

def signalWriter (woken : Option ι) : State ι :=
  match woken with
  | none => s
  | some j => s.setThread j { s.threads j with wish := .writing false }

end

def broadcastReaders (s : State ι) : State ι :=
  { s with threads := fun i =>
    if (s.threads i).wish = .reading true then { s.threads i with wish := .reading false }
    else s.threads i }

section
variable [DecidableEq ι] (s : State ι)

def copyWrite (i : ι) : State ι :=
  { s.setThread i { s.threads i with writes := (s.threads i).writes + 1 } with
    writersLock := s.writersLock + 1 }

def unlockWrite (i : ι) (woken : Option ι) : Except Check (State ι) :=
  if s.writers = 0 then .error .noWriters
  else if s.writersLock = 0 then .error .notLocked
  else
    let s := { s.setThread i { s.threads i with writes := (s.threads i).writes - 1 } with
      writersLock := s.writersLock - 1 }
    if s.writersLock = 0 then
      let s := { s with writers := s.writers - 1 }
      let s := if s.writers ≠ 0 then s.signalWriter woken else s.broadcastReaders
      .ok { s with mutex := none }
    else .ok s

def copyRead (i : ι) : Except Check (State ι) :=
  if s.readers = 0 then .error .noReaders else .ok (s.lockRead i)

def unlockRead (i : ι) (woken : Option ι) : Except Check (State ι) :=
  if s.readers = 0 then .error .noReaders
  else
    let s := { s.setThread i { s.threads i with reads := (s.threads i).reads - 1 } with
      readers := s.readers - 1 }
    .ok (if s.readers = 0 ∧ s.writers ≠ 0 then s.signalWriter woken else s)

def wakeUp (i : ι) : State ι :=
  match (s.threads i).wish with
  | .reading _ => s.setThread i { s.threads i with wish := .reading false }
  | .writing _ => s.setThread i { s.threads i with wish := .writing false }
  | .nothing => s

def resume (i : ι) : Except Check (State ι) :=
  match (s.threads i).wish with
  | .reading _ => .ok (s.awaitWriters i)
  | .writing _ => s.awaitReaders i
  | .nothing => .ok s

end

end State

/-- What the threads do; `woken` is who is woken by `MSignal`. -/
inductive Op (ι : Type) where
  | lockWrite (i : ι)
  | copyWrite (i : ι)
  | unlockWrite (i : ι) (woken : Option ι)
  | lockRead (i : ι)
  | copyRead (i : ι)
  | unlockRead (i : ι) (woken : Option ι)
  | wakeUp (i : ι)
  | resume (i : ι)

def step [DecidableEq ι] : Op ι → State ι → Except Check (State ι)
  | .lockWrite i, s => s.lockWrite i
  | .copyWrite i, s => .ok (s.copyWrite i)
  | .unlockWrite i woken, s => s.unlockWrite i woken
  | .lockRead i, s => .ok (s.lockRead i)
  | .copyRead i, s => s.copyRead i
  | .unlockRead i woken, s => s.unlockRead i woken
  | .wakeUp i, s => .ok (s.wakeUp i)
  | .resume i, s => s.resume i

def Wakes (s : State ι) : Option ι → Prop
  | some j => (s.threads j).wish = .writing true
  | none => ∀ j, (s.threads j).wish ≠ .writing true

/-- Who needs the mutex has to wait until it is free; a thread that waits does nothing else, and
only who has an access copies or destroys it. -/
def Enabled (s : State ι) : Op ι → Prop
  | .lockWrite i | .lockRead i => s.mutex = none ∧ (s.threads i).wish = .nothing
  | .copyWrite i => 0 < (s.threads i).writes
  | .unlockWrite i woken => 0 < (s.threads i).writes ∧ Wakes s woken
  | .copyRead i => s.mutex = none ∧ (s.threads i).wish = .nothing ∧ 0 < (s.threads i).reads
  | .unlockRead i woken => s.mutex = none ∧ (s.threads i).wish = .nothing ∧
      0 < (s.threads i).reads ∧ Wakes s woken
  | .wakeUp i => (s.threads i).wish = .reading true ∨ (s.threads i).wish = .writing true
  | .resume i => s.mutex = none ∧
      ((s.threads i).wish = .reading false ∨ (s.threads i).wish = .writing false)

instance [Fintype ι] (s : State ι) : (woken : Option ι) → Decidable (Wakes s woken)
  | some j => inferInstanceAs (Decidable ((s.threads j).wish = .writing true))
  | none => inferInstanceAs (Decidable (∀ j, (s.threads j).wish ≠ .writing true))

instance [Fintype ι] [DecidableEq ι] (s : State ι) : (op : Op ι) → Decidable (Enabled s op)
  | .lockWrite i | .lockRead i =>
    inferInstanceAs (Decidable (s.mutex = none ∧ (s.threads i).wish = .nothing))
  | .copyWrite i => inferInstanceAs (Decidable (0 < (s.threads i).writes))
  | .unlockWrite i woken => inferInstanceAs (Decidable (0 < (s.threads i).writes ∧ Wakes s woken))
  | .copyRead i => inferInstanceAs (Decidable (s.mutex = none ∧ (s.threads i).wish = .nothing ∧
      0 < (s.threads i).reads))
  | .unlockRead i woken => inferInstanceAs (Decidable (s.mutex = none ∧
      (s.threads i).wish = .nothing ∧ 0 < (s.threads i).reads ∧ Wakes s woken))
  | .wakeUp i => inferInstanceAs (Decidable ((s.threads i).wish = .reading true ∨
      (s.threads i).wish = .writing true))
  | .resume i => inferInstanceAs (Decidable (s.mutex = none ∧
      ((s.threads i).wish = .reading false ∨ (s.threads i).wish = .writing false)))

/-- The thread has an access for writing, or is counted for it. -/
def Thread.writing (t : Thread) : ℕ :=
  if 0 < t.writes then 1
  else match t.wish with
    | .writing _ => 1
    | _ => 0

section
variable [Fintype ι]

structure Counts (s : State ι) : Prop where
  readers : s.readers = ∑ i, (s.threads i).reads
  writers : s.writers = ∑ i, (s.threads i).writing
  writersLock : s.writersLock = ∑ i, (s.threads i).writes
  mutex : ∀ i, 0 < (s.threads i).writes ↔ s.mutex = some i
  awake : ∀ i, 0 < (s.threads i).writes → (s.threads i).wish = .nothing
  alone : s.mutex ≠ none → s.readers = 0

/-- Nobody sleeps in vain. -/
structure Roused (s : State ι) : Prop where
  readers : ∀ i, (s.threads i).wish = .reading true → 0 < s.writers
  writers : s.mutex = none → s.readers = 0 → 0 < s.writers →
    ∃ i, (s.threads i).wish = .writing false

structure Inv (s : State ι) : Prop where
  counts : Counts s
  roused : Roused s

/-- Threads of the second state may be awake that sleep in the first one. -/
structure Wakened (s s' : State ι) : Prop where
  thread : ∀ i, s'.threads i = s.threads i ∨
    (s.threads i).wish = .reading true ∧
        s'.threads i = { s.threads i with wish := .reading false } ∨
    (s.threads i).wish = .writing true ∧ s'.threads i = { s.threads i with wish := .writing false }
  writers : s'.writers = s.writers
  readers : s'.readers = s.readers
  writersLock : s'.writersLock = s.writersLock
  mutex : s'.mutex = s.mutex

end

namespace Wakened

variable {s s' : State ι} (h : Wakened s s') (i : ι)
include h

theorem reads : (s'.threads i).reads = (s.threads i).reads := by
  rcases h.thread i with heq | ⟨-, heq⟩ | ⟨-, heq⟩
  · rw [heq]
  · rw [heq]
  · rw [heq]

theorem writes : (s'.threads i).writes = (s.threads i).writes := by
  rcases h.thread i with heq | ⟨-, heq⟩ | ⟨-, heq⟩
  · rw [heq]
  · rw [heq]
  · rw [heq]

theorem writing : (s'.threads i).writing = (s.threads i).writing := by
  unfold Thread.writing
  rcases h.thread i with heq | ⟨hwish, heq⟩ | ⟨hwish, heq⟩
  · rw [heq]
  · rw [heq, hwish]
  · rw [heq, hwish]

theorem wish_eq_nothing : (s'.threads i).wish = .nothing ↔ (s.threads i).wish = .nothing := by
  rcases h.thread i with heq | ⟨hwish, heq⟩ | ⟨hwish, heq⟩
  · rw [heq]
  · simp [heq, hwish]
  · simp [heq, hwish]

theorem of_reading (hwish : (s'.threads i).wish = .reading true) :
    (s.threads i).wish = .reading true := by
  rcases h.thread i with heq | ⟨-, heq⟩ | ⟨-, heq⟩
  · rw [← heq]
    exact hwish
  · rw [heq] at hwish
    cases hwish
  · rw [heq] at hwish
    cases hwish

theorem of_writing (hwish : (s.threads i).wish = .writing false) :
    (s'.threads i).wish = .writing false := by
  rcases h.thread i with heq | ⟨hother, -⟩ | ⟨-, heq⟩
  · rw [heq]
    exact hwish
  · rw [hwish] at hother
    cases hother
  · rw [heq]

omit i

theorem counts [Fintype ι] (hs : Counts s) : Counts s' where
  readers := by
    rw [h.readers, hs.readers]
    exact Finset.sum_congr rfl fun i _ => (h.reads i).symm
  writers := by
    rw [h.writers, hs.writers]
    exact Finset.sum_congr rfl fun i _ => (h.writing i).symm
  writersLock := by
    rw [h.writersLock, hs.writersLock]
    exact Finset.sum_congr rfl fun i _ => (h.writes i).symm
  mutex := fun i => by
    rw [h.writes, h.mutex]
    exact hs.mutex i
  awake := fun i hi => by
    rw [h.writes] at hi
    exact (h.wish_eq_nothing i).2 (hs.awake i hi)
  alone := fun hi => by
    rw [h.mutex] at hi
    rw [h.readers]
    exact hs.alone hi

theorem roused [Fintype ι] (hs : Roused s) : Roused s' where
  readers := fun i hi => by
    rw [h.writers]
    exact hs.readers i (h.of_reading i hi)
  writers := fun hfree hnone hsome => by
    rw [h.mutex] at hfree
    rw [h.readers] at hnone
    rw [h.writers] at hsome
    obtain ⟨i, hi⟩ := hs.writers hfree hnone hsome
    exact ⟨i, h.of_writing i hi⟩

end Wakened

theorem Wakes.congr {s s' : State ι} {woken : Option ι} (h : Wakes s woken)
    (hsame : ∀ j, (s'.threads j).wish = (s.threads j).wish) : Wakes s' woken := by
  cases woken with
  | some k => exact (hsame k).trans h
  | none =>
    intro j
    rw [hsame]
    exact h j

theorem threads_setThread [DecidableEq ι] (s : State ι) (i : ι) (t : Thread) (j : ι) :
    (s.setThread i t).threads j = if j = i then t else s.threads j :=
  Function.update_apply s.threads i t j

theorem wakened_broadcastReaders (s : State ι) : Wakened s s.broadcastReaders := by
  refine ⟨fun j => ?_, rfl, rfl, rfl, rfl⟩
  unfold State.broadcastReaders
  dsimp only
  split_ifs with hwish
  · exact Or.inr (Or.inl ⟨hwish, rfl⟩)
  · exact Or.inl rfl

section
variable [Fintype ι] {s : State ι} {i : ι}

theorem le_sum (f : Thread → ℕ) (s : State ι) (i : ι) :
    f (s.threads i) ≤ ∑ j, f (s.threads j) :=
  Finset.single_le_sum (f := fun j => f (s.threads j)) (fun _ _ => Nat.zero_le _)
    (Finset.mem_univ i)

theorem Counts.no_writes (h : Counts s) (hfree : s.mutex = none) (i : ι) :
    (s.threads i).writes = 0 := by
  by_contra hne
  have hmutex := (h.mutex i).1 (Nat.pos_of_ne_zero hne)
  rw [hfree] at hmutex
  cases hmutex

theorem Counts.writersLock_free (h : Counts s) (hfree : s.mutex = none) : s.writersLock = 0 := by
  rw [h.writersLock]
  exact Finset.sum_eq_zero fun i _ => h.no_writes hfree i

theorem Counts.writersLock_of_writes (h : Counts s) (hwrites : 0 < (s.threads i).writes) :
    s.writersLock = (s.threads i).writes := by
  rw [h.writersLock]
  refine Finset.sum_eq_single_of_mem i (Finset.mem_univ i) fun j _ hj => ?_
  by_contra hne
  have hmutex := (h.mutex j).1 (Nat.pos_of_ne_zero hne)
  rw [(h.mutex i).1 hwrites] at hmutex
  exact hj (Option.some.inj hmutex).symm

theorem inv_start : Inv (start : State ι) where
  counts := by
    refine ⟨?_, ?_, ?_, fun i => ?_, fun i hi => rfl, fun hno => absurd rfl hno⟩
    · exact (Finset.sum_eq_zero fun _ _ => rfl).symm
    · exact (Finset.sum_eq_zero fun _ _ => rfl).symm
    · exact (Finset.sum_eq_zero fun _ _ => rfl).symm
    · exact iff_of_false (Nat.lt_irrefl 0) (by simp [start])
  roused := ⟨fun i hi => (by cases hi), fun _ _ hpos => (by cases hpos)⟩

/-- One thread has access for writing, or any number for reading; the counters count them. -/
structure Exclusive (s : State ι) : Prop where
  one : ∀ i j, 0 < (s.threads i).writes → 0 < (s.threads j).writes → i = j
  apart : ∀ i j, 0 < (s.threads i).writes → (s.threads j).reads = 0
  readers : s.readers = ∑ i, (s.threads i).reads
  writers : s.writers = ∑ i, (s.threads i).writing
  writersLock : s.writersLock = ∑ i, (s.threads i).writes

theorem Inv.exclusive (h : Inv s) : Exclusive s := by
  refine ⟨fun i j hi hj => ?_, fun i j hi => ?_, h.counts.readers, h.counts.writers,
    h.counts.writersLock⟩
  · have hsome := (h.counts.mutex i).1 hi
    rw [(h.counts.mutex j).1 hj] at hsome
    exact (Option.some.inj hsome).symm
  · have hnone := h.counts.alone (by rw [(h.counts.mutex i).1 hi]; simp)
    rw [h.counts.readers] at hnone
    exact Finset.sum_eq_zero_iff.1 hnone j (Finset.mem_univ j)

end

section
variable [DecidableEq ι] {s : State ι} {i : ι}

/-- A thread that does not begin to sleep is not among those that do. -/
theorem wish_setThread {t : Thread} {j : ι} {w : Wish}
    (h : ((s.setThread i t).threads j).wish = w) (ht : t.wish ≠ w) : (s.threads j).wish = w := by
  rw [threads_setThread] at h
  split_ifs at h
  · exact absurd h ht
  · exact h

theorem wish_setThread_of_ne {t : Thread} {j : ι} {w : Wish} (h : (s.threads j).wish = w)
    (hi : (s.threads i).wish ≠ w) : ((s.setThread i t).threads j).wish = w := by
  rw [threads_setThread, if_neg]
  · exact h
  · rintro rfl
    exact hi h

theorem wish_setThread_same (t : Thread) (h : t.wish = (s.threads i).wish) (j : ι) :
    ((s.setThread i t).threads j).wish = (s.threads j).wish := by
  rw [threads_setThread]
  split_ifs with hj
  · rw [hj, h]
  · rfl

theorem wakened_signalWriter (s : State ι) {woken : Option ι} (h : Wakes s woken) :
    Wakened s (s.signalWriter woken) := by
  refine ⟨fun j => ?_, ?_, ?_, ?_, ?_⟩
  · cases woken with
    | none => exact Or.inl rfl
    | some k =>
      rcases eq_or_ne j k with rfl | hj
      · exact Or.inr (Or.inr ⟨h, (threads_setThread _ _ _ _).trans (if_pos rfl)⟩)
      · exact Or.inl ((threads_setThread _ _ _ _).trans (if_neg hj))
  · cases woken <;> rfl
  · cases woken <;> rfl
  · cases woken <;> rfl
  · cases woken <;> rfl

theorem wakened_wakeUp
    (h : (s.threads i).wish = .reading true ∨ (s.threads i).wish = .writing true) :
    Wakened s (s.wakeUp i) := by
  unfold State.wakeUp
  rcases h with hwish | hwish
  · rw [hwish]
    refine ⟨fun j => ?_, rfl, rfl, rfl, rfl⟩
    rw [threads_setThread]
    split_ifs with hj
    · rw [hj]
      exact Or.inr (Or.inl ⟨hwish, rfl⟩)
    · exact Or.inl rfl
  · rw [hwish]
    refine ⟨fun j => ?_, rfl, rfl, rfl, rfl⟩
    rw [threads_setThread]
    split_ifs with hj
    · rw [hj]
      exact Or.inr (Or.inr ⟨hwish, rfl⟩)
    · exact Or.inl rfl

/-- The last access of a thread for writing is gone. -/
def afterWrite (s : State ι) (i : ι) : State ι :=
  { s.setThread i { s.threads i with writes := 0 } with
    writersLock := 0
    writers := s.writers - 1
    mutex := none }

theorem unlockWrite_last (s : State ι) (hwriters : 1 ≤ s.writers) (hlock : s.writersLock = 1)
    (hwrites : (s.threads i).writes = 1) (woken : Option ι) : s.unlockWrite i woken =
      .ok (if s.writers - 1 = 0 then (afterWrite s i).broadcastReaders
        else (afterWrite s i).signalWriter woken) := by
  unfold State.unlockWrite
  rw [if_neg (by omega), if_neg (by omega)]
  simp only [State.setThread, hlock, hwrites, Nat.sub_self, if_true]
  by_cases hmore : s.writers - 1 = 0
  · rw [if_neg (not_not.2 hmore), if_pos hmore]
    rfl
  · rw [if_pos hmore, if_neg hmore]
    cases woken with
    | none => rfl
    | some k => rfl

end

section
variable [Fintype ι] [DecidableEq ι] {s s' : State ι} {i : ι}

/-- How a sum over all threads changes with one of them. -/
theorem sum_setThread (f : Thread → ℕ) (s : State ι) (i : ι) (t : Thread) :
    ∑ j, f ((s.setThread i t).threads j) + f (s.threads i) = ∑ j, f (s.threads j) + f t := by
  have hself : (s.setThread i t).threads i = t := (threads_setThread s i t i).trans (if_pos rfl)
  have hrest : ∑ j ∈ Finset.univ.erase i, f ((s.setThread i t).threads j) =
      ∑ j ∈ Finset.univ.erase i, f (s.threads j) := by
    refine Finset.sum_congr rfl fun j hj => ?_
    rw [threads_setThread, if_neg (Finset.ne_of_mem_erase hj)]
  rw [← Finset.add_sum_erase Finset.univ _ (Finset.mem_univ i),
    ← Finset.add_sum_erase Finset.univ (fun j => f (s.threads j)) (Finset.mem_univ i), hself, hrest]
  omega

/-- One thread changes as the counters and the mutex do. -/
theorem Counts.setThread (h : Counts s) (i : ι) (t : Thread)
    (hthreads : s'.threads = (s.setThread i t).threads)
    (hreaders : s'.readers + (s.threads i).reads = s.readers + t.reads)
    (hwriters : s'.writers + (s.threads i).writing = s.writers + t.writing)
    (hlock : s'.writersLock + (s.threads i).writes = s.writersLock + t.writes)
    (hself : 0 < t.writes ↔ s'.mutex = some i)
    (hother : ∀ j, j ≠ i → (s'.mutex = some j ↔ s.mutex = some j))
    (hwish : 0 < t.writes → t.wish = .nothing) (halone : s'.mutex ≠ none → s'.readers = 0) :
    Counts s' where
  readers := by
    have hsum := sum_setThread Thread.reads s i t
    rw [← hthreads, ← h.readers] at hsum
    omega
  writers := by
    have hsum := sum_setThread Thread.writing s i t
    rw [← hthreads, ← h.writers] at hsum
    omega
  writersLock := by
    have hsum := sum_setThread Thread.writes s i t
    rw [← hthreads, ← h.writersLock] at hsum
    omega
  mutex := fun j => by
    rw [hthreads, threads_setThread]
    split_ifs with hj
    · rw [hj]
      exact hself
    · rw [hother j hj]
      exact h.mutex j
  awake := fun j hj => by
    rw [hthreads, threads_setThread] at hj ⊢
    split_ifs at hj ⊢ with heq
    · exact hwish hj
    · exact h.awake j hj
  alone := halone

/-- The same while nobody has locked the mutex. -/
theorem Counts.setThread_free (h : Counts s) (hfree : s.mutex = none) (i : ι) (t : Thread)
    (hthreads : s'.threads = (s.setThread i t).threads) (hmutex : s'.mutex = s.mutex)
    (hreaders : s'.readers + (s.threads i).reads = s.readers + t.reads)
    (hwriters : s'.writers + (s.threads i).writing = s.writers + t.writing)
    (hlock : s'.writersLock = s.writersLock) (hwrites : t.writes = (s.threads i).writes) :
    Counts s' := by
  have hnone := h.no_writes hfree i
  rw [hfree] at hmutex
  refine h.setThread i t hthreads hreaders hwriters (by omega) ?_ (fun j _ => ?_) (fun hpos => ?_)
    fun hsome => absurd hmutex hsome
  · rw [hwrites, hnone, hmutex]
    exact iff_of_false (Nat.lt_irrefl 0) (by simp)
  · rw [hmutex, hfree]
  · omega

/-- A thread is in the loop of `MLock`, and counted as one that wants to write. -/
theorem Inv.wantsToWrite (h : Inv s) (hfree : s.mutex = none)
    (hwish : (s.threads i).wish = .nothing) :
    Inv { s.setThread i { s.threads i with wish := .writing false } with
      writers := s.writers + 1 } := by
  have hnone := h.counts.no_writes hfree i
  refine ⟨h.counts.setThread_free hfree i { s.threads i with wish := .writing false } rfl rfl rfl ?_
    rfl rfl, fun _ _ => Nat.succ_pos _, fun _ _ _ => ⟨i, ?_⟩⟩
  · simp [Thread.writing, hnone, hwish]
  · rw [threads_setThread, if_pos rfl]

theorem Inv.wantsToRead (h : Inv s) (hfree : s.mutex = none)
    (hwish : (s.threads i).wish = .nothing) :
    Inv (s.setThread i { s.threads i with wish := .reading false }) := by
  have hnone := h.counts.no_writes hfree i
  refine ⟨h.counts.setThread_free hfree i { s.threads i with wish := .reading false } rfl rfl rfl ?_
    rfl rfl, fun j hj => h.roused.readers j (wish_setThread hj (by simp)),
    fun _ hreaders hwriters => ?_⟩
  · simp [Thread.writing, hnone, hwish]
    rfl
  · obtain ⟨j, hj⟩ := h.roused.writers hfree hreaders hwriters
    exact ⟨j, wish_setThread_of_ne hj (by simp [hwish])⟩

/-- Who sleeps because somebody reads will be woken by the last one that does. -/
theorem Inv.awaitReaders (h : Inv s) (hfree : s.mutex = none)
    (hwish : (s.threads i).wish = .writing false) :
    ∃ s', s.awaitReaders i = .ok s' ∧ Inv s' := by
  have hnone := h.counts.no_writes hfree i
  have hbefore : (s.threads i).writing = 1 := by simp [Thread.writing, hwish]
  unfold State.awaitReaders
  by_cases hreaders : s.readers = 0
  · refine ⟨_, (if_neg (not_not.2 hreaders)).trans
      (if_neg (not_not.2 (h.counts.writersLock_free hfree))), ?_, fun j hj => ?_, fun hno => ?_⟩
    · refine h.counts.setThread i
        { s.threads i with wish := .nothing, writes := (s.threads i).writes + 1 } rfl rfl ?_ ?_ ?_
        (fun j hj => ?_) (fun _ => rfl) fun _ => hreaders
      · rw [hbefore]
        rfl
      · dsimp only
        omega
      · exact iff_of_true (Nat.succ_pos _) rfl
      · rw [hfree]
        exact iff_of_false (fun heq => hj (Option.some.inj heq).symm) (by simp)
    · exact h.roused.readers j (wish_setThread hj (by simp))
    · cases hno
  · refine ⟨_, if_pos hreaders, h.counts.setThread_free hfree i
      { s.threads i with wish := .writing true } rfl rfl rfl ?_ rfl rfl,
      fun j hj => h.roused.readers j (wish_setThread hj (by simp)),
      fun _ hno => absurd hno hreaders⟩
    rw [hbefore]
    simp [Thread.writing, hnone]
    rfl

/-- Who sleeps because somebody writes or wants to will be woken by the last one that does. -/
theorem Inv.awaitWriters (h : Inv s) (hfree : s.mutex = none)
    (hwish : (s.threads i).wish = .reading false) : Inv (s.awaitWriters i) := by
  have hnone := h.counts.no_writes hfree i
  have hbefore : (s.threads i).writing = 0 := by simp [Thread.writing, hwish, hnone]
  unfold State.awaitWriters
  dsimp only
  split_ifs with hwriters
  · refine ⟨h.counts.setThread_free hfree i { s.threads i with wish := .reading true } rfl rfl rfl
      ?_ rfl rfl, fun j hj => Nat.pos_of_ne_zero hwriters, fun _ hreaders hpos => ?_⟩
    · rw [hbefore]
      simp [Thread.writing, hnone]
      rfl
    · obtain ⟨j, hj⟩ := h.roused.writers hfree hreaders hpos
      exact ⟨j, wish_setThread_of_ne hj (by simp [hwish])⟩
  · have hzero : s.writers = 0 := not_not.1 hwriters
    refine ⟨h.counts.setThread_free hfree i
      { s.threads i with wish := .nothing, reads := (s.threads i).reads + 1 } rfl rfl ?_ ?_ rfl rfl,
      fun j hj => h.roused.readers j (wish_setThread hj (by simp)), fun _ _ hpos => ?_⟩
    · dsimp only
      omega
    · rw [hbefore]
      simp [Thread.writing, hnone]
      rfl
    · exact absurd hzero (Nat.pos_iff_ne_zero.1 hpos)

theorem Inv.copyWrite (h : Inv s) (hwrites : 0 < (s.threads i).writes) : Inv (s.copyWrite i) := by
  have hmutex := (h.counts.mutex i).1 hwrites
  have hwish := h.counts.awake i hwrites
  refine ⟨h.counts.setThread i { s.threads i with writes := (s.threads i).writes + 1 } rfl rfl ?_ ?_
    (iff_of_true (Nat.succ_pos _) hmutex) (fun _ _ => Iff.rfl) (fun _ => hwish) h.counts.alone,
    fun j hj => h.roused.readers j (wish_setThread hj (by simp [hwish])), fun hno => ?_⟩
  · have hbefore : (s.threads i).writing = 1 := if_pos hwrites
    rw [hbefore]
    rfl
  · change s.writersLock + 1 + _ = s.writersLock + ((s.threads i).writes + 1)
    omega
  · change s.mutex = none at hno
    rw [hmutex] at hno
    cases hno

/-- Somebody wants to write, and it is signalled: nobody who could go on is left asleep. -/
theorem Counts.signalWriter (h : Counts s) (hfree : s.mutex = none) (hwriters : s.writers ≠ 0)
    {woken : Option ι} (hwoken : Wakes s woken) : Inv (s.signalWriter woken) := by
  have hwakened := wakened_signalWriter s hwoken
  have hpos := Nat.pos_of_ne_zero hwriters
  refine ⟨hwakened.counts h, fun j _ => by rw [hwakened.writers]; exact hpos, fun _ _ _ => ?_⟩
  cases woken with
  | some k =>
    refine ⟨k, ?_⟩
    change ((s.setThread k _).threads k).wish = _
    rw [threads_setThread, if_pos rfl]
  | none =>
    have hsum : ∑ j, (s.threads j).writing ≠ 0 := by
      rw [← h.writers]
      exact hwriters
    obtain ⟨j, -, hj⟩ := Finset.exists_ne_zero_of_sum_ne_zero hsum
    refine ⟨j, ?_⟩
    have hnone := h.no_writes hfree j
    have hawake := hwoken j
    change (s.threads j).wish = _
    unfold Thread.writing at hj
    rw [if_neg (by omega)] at hj
    cases hwish : (s.threads j).wish with
    | nothing =>
      rw [hwish] at hj
      exact absurd rfl hj
    | reading b =>
      rw [hwish] at hj
      exact absurd rfl hj
    | writing b =>
      cases b with
      | false => rfl
      | true => exact absurd hwish hawake

theorem Inv.unlockWrite (h : Inv s) (hwrites : 0 < (s.threads i).writes) {woken : Option ι}
    (hwoken : Wakes s woken) : ∃ s', s.unlockWrite i woken = .ok s' ∧ Inv s' := by
  have hmutex := (h.counts.mutex i).1 hwrites
  have hwish := h.counts.awake i hwrites
  have hlock := h.counts.writersLock_of_writes hwrites
  have hbefore : (s.threads i).writing = 1 := if_pos hwrites
  have hwriters : 1 ≤ s.writers := by
    rw [h.counts.writers, ← hbefore]
    exact le_sum Thread.writing s i
  by_cases hlast : (s.threads i).writes = 1
  · have hcounts : Counts (afterWrite s i) := by
      refine h.counts.setThread i { s.threads i with writes := 0 } rfl rfl ?_ ?_
        (iff_of_false (Nat.lt_irrefl 0) (by simp [afterWrite])) (fun j hj => ?_) (fun _ => hwish)
        fun hno => absurd rfl hno
      · have hafter : Thread.writing { s.threads i with writes := 0 } = 0 := by
          simp [Thread.writing, hwish]
        rw [hbefore, hafter]
        change s.writers - 1 + 1 = s.writers
        omega
      · change 0 + _ = s.writersLock + 0
        omega
      · rw [hmutex]
        exact iff_of_false (by simp [afterWrite]) fun heq => hj (Option.some.inj heq).symm
    have hsame (j : ι) : ((afterWrite s i).threads j).wish = (s.threads j).wish :=
      wish_setThread_same { s.threads i with writes := 0 } rfl j
    refine ⟨_, unlockWrite_last s hwriters (hlock.trans hlast) hlast woken, ?_⟩
    split_ifs with hmore
    · refine ⟨(wakened_broadcastReaders _).counts hcounts, fun j hj => ?_, fun _ _ hpos => ?_⟩
      · unfold State.broadcastReaders at hj
        dsimp only at hj
        by_cases hsleeps : ((afterWrite s i).threads j).wish = .reading true
        · rw [if_pos hsleeps] at hj
          cases hj
        · rw [if_neg hsleeps] at hj
          exact absurd hj hsleeps
      · exact absurd hmore (Nat.pos_iff_ne_zero.1 hpos)
    · exact hcounts.signalWriter rfl hmore (hwoken.congr hsame)
  · let t : Thread := { s.threads i with writes := (s.threads i).writes - 1 }
    have hstill : 0 < t.writes := by
      change 0 < (s.threads i).writes - 1
      omega
    unfold State.unlockWrite
    rw [if_neg (by omega), if_neg (by omega)]
    dsimp only
    rw [if_neg (by omega)]
    refine ⟨_, rfl, ?_, fun j hj => h.roused.readers j (wish_setThread hj (by simp [hwish])),
      fun hno => ?_⟩
    · refine h.counts.setThread i t rfl rfl ?_ ?_ (iff_of_true hstill hmutex) (fun _ _ => Iff.rfl)
        (fun _ => hwish) h.counts.alone
      · rw [hbefore]
        exact congrArg (s.writers + ·) (if_pos hstill).symm
      · change s.writersLock - 1 + _ = s.writersLock + ((s.threads i).writes - 1)
        omega
    · change s.mutex = none at hno
      rw [hmutex] at hno
      cases hno

theorem Inv.unlockRead (h : Inv s) (hfree : s.mutex = none) (hreads : 0 < (s.threads i).reads)
    {woken : Option ι} (hwoken : Wakes s woken) :
    ∃ s', s.unlockRead i woken = .ok s' ∧ Inv s' := by
  have hle : (s.threads i).reads ≤ s.readers := by
    rw [h.counts.readers]
    exact le_sum Thread.reads s i
  let t : Thread := { s.threads i with reads := (s.threads i).reads - 1 }
  let s₁ : State ι := { s.setThread i t with readers := s.readers - 1 }
  have hcounts : Counts s₁ := by
    refine h.counts.setThread_free hfree i t rfl rfl ?_ rfl rfl rfl
    change s.readers - 1 + _ = s.readers + ((s.threads i).reads - 1)
    omega
  have hsame (j : ι) : (s₁.threads j).wish = (s.threads j).wish := wish_setThread_same t rfl j
  unfold State.unlockRead
  rw [if_neg (by omega)]
  refine ⟨_, rfl, ?_⟩
  change Inv (if s₁.readers = 0 ∧ s₁.writers ≠ 0 then s₁.signalWriter woken else s₁)
  split_ifs with hlast
  · exact hcounts.signalWriter hfree hlast.2 (hwoken.congr hsame)
  · refine ⟨hcounts, fun j hj => h.roused.readers j ((hsame j).symm.trans hj),
      fun _ hnone hpos => ?_⟩
    exact absurd ⟨hnone, Nat.pos_iff_ne_zero.1 hpos⟩ hlast

/-- Every step ends well and keeps the invariant. -/
theorem step_inv (h : Inv s) {op : Op ι} (hop : Enabled s op) :
    ∃ s', step op s = .ok s' ∧ Inv s' := by
  cases op with
  | lockWrite i =>
    exact (h.wantsToWrite hop.1 hop.2).awaitReaders hop.1 (by rw [threads_setThread, if_pos rfl])
  | copyWrite i => exact ⟨_, rfl, h.copyWrite hop⟩
  | unlockWrite i woken => exact h.unlockWrite hop.1 hop.2
  | lockRead i =>
    refine ⟨_, rfl, (h.wantsToRead hop.1 hop.2).awaitWriters hop.1 ?_⟩
    rw [threads_setThread, if_pos rfl]
  | copyRead i =>
    obtain ⟨hfree, hwish, hreads⟩ := hop
    have hle : (s.threads i).reads ≤ s.readers := by
      rw [h.counts.readers]
      exact le_sum Thread.reads s i
    refine ⟨_, if_neg (by omega), (h.wantsToRead hfree hwish).awaitWriters hfree ?_⟩
    rw [threads_setThread, if_pos rfl]
  | unlockRead i woken => exact h.unlockRead hop.1 hop.2.2.1 hop.2.2.2
  | wakeUp i =>
    exact ⟨_, rfl, (wakened_wakeUp hop).counts h.counts, (wakened_wakeUp hop).roused h.roused⟩
  | resume i =>
    obtain ⟨hfree, hwish | hwish⟩ := hop
    · refine ⟨s.awaitWriters i, ?_, h.awaitWriters hfree hwish⟩
      change s.resume i = _
      unfold State.resume
      rw [hwish]
    · obtain ⟨s', hs', hinv⟩ := h.awaitReaders hfree hwish
      refine ⟨s', ?_, hinv⟩
      change s.resume i = _
      unfold State.resume
      rw [hwish]
      exact hs'

/-- In every run no check of the lock fails, and nobody reads or writes while another one writes. -/
theorem run_locked (ops : List (Op ι)) (h : EveryStep step Enabled ops start) :
    ∃ s, runAll step ops start = .ok s ∧ Exclusive s := by
  obtain ⟨s, hrun, hinv⟩ := runAll_of_step (I := Inv) (fun s op hs hop => step_inv hs hop)
    inv_start h
  exact ⟨s, hrun, hinv.exclusive⟩

end

/-- A thread reads while another one wants to write, and a third one then wants to read. -/
def threeThreads : List (Op (Fin 3)) :=
  [.lockRead 0, .lockWrite 1, .lockRead 2, .unlockRead 0 (some 1), .resume 1, .copyWrite 1,
    .unlockWrite 1 none]

theorem run_locked_threads :
    EveryStep step Enabled threeThreads start ∧
      ∃ s, runAll step threeThreads start = .ok s ∧ Exclusive s :=
  ⟨by decide, run_locked threeThreads (by decide)⟩

/-- One access for writing is left, and the last thread still sleeps. -/
example : (runAll step threeThreads start).toOption.map (fun s =>
    (s.threads 1, s.threads 2, s.writers, s.mutex)) =
      some (⟨0, 1, .nothing⟩, ⟨0, 0, .reading true⟩, 1, some 1) := by
  decide

/-- A thread has access for reading and waits for another one, while somebody wants to write. -/
def Stuck (s : State ι) : Prop :=
  0 < s.writers ∧ ∃ i, (s.threads i).wish ≠ .nothing ∧ 0 < (s.threads i).reads

/-- All accesses are gone, and nobody waits. -/
def Finished (s : State ι) : Prop := ∀ i, s.threads i = .idle

def Op.IsRelease : Op ι → Prop
  | .unlockWrite _ _ | .unlockRead _ _ | .resume _ => True
  | _ => False

/-- The threads can go on until all of them are ready, without new accesses. -/
def CanFinish [DecidableEq ι] (s : State ι) : Prop :=
  ∃ ops, (∀ op ∈ ops, op.IsRelease) ∧ EveryStep step Enabled ops s ∧
    ∃ s', runAll step ops s = .ok s' ∧ Finished s'

/-- How much a thread has to do at most until it is ready. -/
def Thread.weight (t : Thread) : ℕ :=
  2 * t.reads + 2 * t.writes + match t.wish with
    | .nothing => 0
    | .reading asleep | .writing asleep => if asleep then 4 else 3

theorem exists_wakes (s : State ι) : ∃ woken, Wakes s woken := by
  by_cases h : ∃ j, (s.threads j).wish = .writing true
  · obtain ⟨j, hj⟩ := h
    exact ⟨some j, hj⟩
  · exact ⟨none, fun j hj => h ⟨j, hj⟩⟩

theorem Wakened.weight {s s' : State ι} (h : Wakened s s') (i : ι) :
    (s'.threads i).weight ≤ (s.threads i).weight := by
  rcases h.thread i with heq | ⟨hwish, heq⟩ | ⟨hwish, heq⟩
  · rw [heq]
  · rw [heq]
    unfold Thread.weight
    rw [hwish]
    simp
  · rw [heq]
    unfold Thread.weight
    rw [hwish]
    simp

theorem Wakened.stuck_iff {s s' : State ι} (h : Wakened s s') : Stuck s' ↔ Stuck s := by
  unfold Stuck
  simp only [h.writers, ne_eq, h.wish_eq_nothing, h.reads]

section
variable [DecidableEq ι] {s s' : State ι}

theorem Stuck.setThread (h : Stuck s) (j : ι) (t : Thread)
    (hthreads : s'.threads = (s.setThread j t).threads) (hwriters : 0 < s'.writers)
    (hj : (s.threads j).wish ≠ .nothing → 0 < (s.threads j).reads →
      t.wish ≠ .nothing ∧ 0 < t.reads) : Stuck s' := by
  obtain ⟨-, i, hwish, hreads⟩ := h
  refine ⟨hwriters, i, ?_⟩
  rw [hthreads, threads_setThread]
  split_ifs with heq
  · rw [heq] at hwish hreads
    exact hj hwish hreads
  · exact ⟨hwish, hreads⟩

theorem Stuck.lockWrite (h : Stuck s) (hreaders : s.readers ≠ 0) (j : ι) :
    ∃ s', s.lockWrite j = .ok s' ∧ Stuck s' := by
  have hwants : Stuck { s.setThread j { s.threads j with wish := .writing false } with
      writers := s.writers + 1 } :=
    h.setThread j _ rfl (Nat.succ_pos _) fun _ hreads => ⟨by simp, hreads⟩
  refine ⟨_, if_pos hreaders, hwants.setThread j _ rfl (Nat.succ_pos _) fun _ hreads => ?_⟩
  exact ⟨by simp, hreads⟩

theorem Stuck.awaitWriters (h : Stuck s) (j : ι) : Stuck (s.awaitWriters j) := by
  unfold State.awaitWriters
  dsimp only
  rw [if_pos (Nat.pos_iff_ne_zero.1 h.1)]
  exact h.setThread j _ rfl h.1 fun _ hreads => ⟨by simp, hreads⟩

theorem Stuck.lockRead (h : Stuck s) (j : ι) : Stuck (s.lockRead j) :=
  have hwants : Stuck (s.setThread j { s.threads j with wish := .reading false }) :=
    h.setThread j _ rfl h.1 fun _ hreads => ⟨by simp, hreads⟩
  hwants.awaitWriters j

end

section
variable [Fintype ι] {s s' : State ι} {i : ι}

def total (s : State ι) : ℕ := ∑ i, (s.threads i).weight

theorem Wakened.total (h : Wakened s s') : total s' ≤ total s :=
  Finset.sum_le_sum fun i _ => h.weight i

theorem Inv.not_stuck_of_no_readers (h : Inv s) (hnone : s.readers = 0) : ¬Stuck s := by
  rintro ⟨-, i, -, hreads⟩
  rw [h.counts.readers] at hnone
  rw [Finset.sum_eq_zero_iff.1 hnone i (Finset.mem_univ i)] at hreads
  cases hreads

variable [DecidableEq ι]

theorem total_setThread {t : Thread} (hthreads : s'.threads = (s.setThread i t).threads)
    (hless : t.weight < (s.threads i).weight) : total s' < total s := by
  have hsum := sum_setThread Thread.weight s i t
  rw [← hthreads] at hsum
  unfold total
  omega

/-- Nothing that can be done helps who is stuck. -/
theorem Stuck.step (h : Stuck s) (hinv : Inv s) {op : Op ι} (hop : Enabled s op)
    (hs : SafeData.step op s = .ok s') : Stuck s' := by
  have hreaders : s.readers ≠ 0 := fun hnone => hinv.not_stuck_of_no_readers hnone h
  have hfree : s.mutex = none := by
    by_contra hno
    exact hreaders (hinv.counts.alone hno)
  cases op with
  | lockWrite j =>
    obtain ⟨s₁, hs₁, hstuck⟩ := h.lockWrite hreaders j
    obtain rfl := Except.ok.inj (hs₁.symm.trans hs)
    exact hstuck
  | copyWrite j => exact absurd (hinv.counts.no_writes hfree j) (Nat.pos_iff_ne_zero.1 hop)
  | unlockWrite j woken =>
    exact absurd (hinv.counts.no_writes hfree j) (Nat.pos_iff_ne_zero.1 hop.1)
  | lockRead j =>
    obtain rfl := Except.ok.inj hs
    exact h.lockRead j
  | copyRead j =>
    obtain rfl := Except.ok.inj ((if_neg hreaders).symm.trans hs)
    exact h.lockRead j
  | unlockRead j woken =>
    obtain ⟨-, hwish, -, hwoken⟩ := hop
    obtain rfl := Except.ok.inj ((if_neg hreaders).symm.trans hs)
    have hless : Stuck { s.setThread j { s.threads j with reads := (s.threads j).reads - 1 } with
        readers := s.readers - 1 } :=
      h.setThread j _ rfl h.1 fun hno => absurd hwish hno
    dsimp only
    split_ifs
    · refine (wakened_signalWriter _ (hwoken.congr fun k => ?_)).stuck_iff.2 hless
      exact wish_setThread_same { s.threads j with reads := (s.threads j).reads - 1 } rfl k
    · exact hless
  | wakeUp j =>
    obtain rfl := Except.ok.inj hs
    exact (wakened_wakeUp hop).stuck_iff.2 h
  | resume j =>
    change s.resume j = _ at hs
    unfold State.resume at hs
    obtain ⟨-, hwish | hwish⟩ := hop
    · rw [hwish] at hs
      obtain rfl := Except.ok.inj hs
      exact h.awaitWriters j
    · rw [hwish] at hs
      obtain rfl := Except.ok.inj ((if_pos hreaders).symm.trans hs)
      exact h.setThread j _ rfl h.1 fun _ hreads => ⟨by simp, hreads⟩

end

section
variable [Fintype ι] [DecidableEq ι] {s s' : State ι} {i : ι}

theorem Inv.unlockWrite_less (h : Inv s) (hwrites : 0 < (s.threads i).writes) {woken : Option ι}
    (hwoken : Wakes s woken) (hs : s.unlockWrite i woken = .ok s') :
    s'.readers = s.readers ∧ total s' < total s := by
  have hlock := h.counts.writersLock_of_writes hwrites
  have hwriters : 1 ≤ s.writers := by
    rw [h.counts.writers, ← show (s.threads i).writing = 1 from if_pos hwrites]
    exact le_sum Thread.writing s i
  by_cases hlast : (s.threads i).writes = 1
  · have hless : total (afterWrite s i) < total s := by
      refine total_setThread (i := i) (t := { s.threads i with writes := 0 }) rfl ?_
      unfold Thread.weight
      dsimp only
      omega
    rw [unlockWrite_last s hwriters (hlock.trans hlast) hlast woken] at hs
    obtain rfl := Except.ok.inj hs
    split_ifs
    · have hwakened := wakened_broadcastReaders (afterWrite s i)
      exact ⟨hwakened.readers, hwakened.total.trans_lt hless⟩
    · have hwakes : Wakes (afterWrite s i) woken :=
        hwoken.congr fun j => wish_setThread_same { s.threads i with writes := 0 } rfl j
      have hwakened := wakened_signalWriter (afterWrite s i) hwakes
      exact ⟨hwakened.readers, hwakened.total.trans_lt hless⟩
  · unfold State.unlockWrite at hs
    rw [if_neg (by omega), if_neg (by omega)] at hs
    dsimp only at hs
    rw [if_neg (by omega)] at hs
    obtain rfl := Except.ok.inj hs
    refine ⟨rfl, total_setThread (i := i)
      (t := { s.threads i with writes := (s.threads i).writes - 1 }) rfl ?_⟩
    unfold Thread.weight
    dsimp only
    omega

/-- A step that can be done brings the threads nearer to their end. -/
def Advances (s : State ι) : Prop :=
  ∃ op s', op.IsRelease ∧ Enabled s op ∧ step op s = .ok s' ∧ Inv s' ∧ ¬Stuck s' ∧
    total s' < total s

theorem Inv.advances_of_writes (h : Inv s) (hwrites : 0 < (s.threads i).writes) : Advances s := by
  obtain ⟨woken, hwoken⟩ := exists_wakes s
  obtain ⟨s', hs', hinv⟩ := h.unlockWrite hwrites hwoken
  obtain ⟨hreaders, hless⟩ := h.unlockWrite_less hwrites hwoken hs'
  have hnone := h.counts.alone (by rw [(h.counts.mutex i).1 hwrites]; simp)
  exact ⟨.unlockWrite i woken, s', trivial, ⟨hwrites, hwoken⟩, hs', hinv,
    hinv.not_stuck_of_no_readers (hreaders.trans hnone), hless⟩

theorem Inv.advances_of_reads (h : Inv s) (hstuck : ¬Stuck s) (hfree : s.mutex = none)
    (hwish : (s.threads i).wish = .nothing) (hreads : 0 < (s.threads i).reads) : Advances s := by
  obtain ⟨woken, hwoken⟩ := exists_wakes s
  obtain ⟨s', hs', hinv⟩ := h.unlockRead hfree hreads hwoken
  refine ⟨.unlockRead i woken, s', trivial, ⟨hfree, hwish, hreads, hwoken⟩, hs', hinv, ?_⟩
  have hle : (s.threads i).reads ≤ s.readers := by
    rw [h.counts.readers]
    exact le_sum Thread.reads s i
  let t : Thread := { s.threads i with reads := (s.threads i).reads - 1 }
  let s₁ : State ι := { s.setThread i t with readers := s.readers - 1 }
  have hwakened : Wakened s₁ s' := by
    unfold State.unlockRead at hs'
    rw [if_neg (by omega)] at hs'
    obtain rfl := Except.ok.inj hs'
    change Wakened s₁ (if s₁.readers = 0 ∧ s₁.writers ≠ 0 then s₁.signalWriter woken else s₁)
    split_ifs
    · exact wakened_signalWriter s₁ (hwoken.congr (wish_setThread_same t rfl))
    · exact ⟨fun _ => Or.inl rfl, rfl, rfl, rfl, rfl⟩
  refine ⟨fun hno => hstuck ?_, hwakened.total.trans_lt (total_setThread (t := t) rfl ?_)⟩
  · obtain ⟨hwriters, k, hk, hkreads⟩ := hwakened.stuck_iff.1 hno
    refine ⟨hwriters, k, ?_⟩
    change ((s.setThread i t).threads k).wish ≠ _ at hk
    change 0 < ((s.setThread i t).threads k).reads at hkreads
    rw [threads_setThread] at hk hkreads
    split_ifs at hk hkreads
    · exact absurd hwish hk
    · exact ⟨hk, hkreads⟩
  · change Thread.weight { s.threads i with reads := (s.threads i).reads - 1 } < _
    unfold Thread.weight
    dsimp only
    omega

/-- With nobody who writes or wants to, who waits gets its access for reading. -/
theorem Inv.advances_of_wish (h : Inv s) (hfree : s.mutex = none) (hwriters : s.writers = 0)
    (hwish : (s.threads i).wish ≠ .nothing) : Advances s := by
  have hnone := h.counts.no_writes hfree i
  have hreading : (s.threads i).wish = .reading false := by
    cases hw : (s.threads i).wish with
    | nothing => exact absurd hw hwish
    | reading asleep =>
      cases asleep with
      | false => rfl
      | true => exact absurd hwriters (Nat.pos_iff_ne_zero.1 (h.roused.readers i hw))
    | writing asleep =>
      have hone : (s.threads i).writing = 1 := by simp [Thread.writing, hw]
      have hle := le_sum Thread.writing s i
      rw [← h.counts.writers, hone, hwriters] at hle
      cases hle
  have hs' : step (.resume i) s = .ok (s.awaitWriters i) := by
    change s.resume i = _
    unfold State.resume
    rw [hreading]
  have heq : s.awaitWriters i = { s.setThread i
      { s.threads i with wish := .nothing, reads := (s.threads i).reads + 1 } with
      readers := s.readers + 1 } := if_neg (not_not.2 hwriters)
  refine ⟨.resume i, _, trivial, ⟨hfree, Or.inl hreading⟩, hs', h.awaitWriters hfree hreading,
    ?_, ?_⟩
  · rintro ⟨hpos, -⟩
    rw [heq] at hpos
    exact absurd hwriters (Nat.pos_iff_ne_zero.1 hpos)
  · rw [heq]
    refine total_setThread (i := i)
      (t := { s.threads i with wish := .nothing, reads := (s.threads i).reads + 1 }) rfl ?_
    unfold Thread.weight
    rw [hreading]
    dsimp only
    simp
    omega

/-- With nobody who reads, one of those who want to write gets its access. -/
theorem Inv.advances_of_writers (h : Inv s) (hfree : s.mutex = none) (hreaders : s.readers = 0)
    (hwriters : 0 < s.writers) : Advances s := by
  obtain ⟨i, hwish⟩ := h.roused.writers hfree hreaders hwriters
  obtain ⟨s', hs', hinv⟩ := h.awaitReaders hfree hwish
  have hstep : step (.resume i) s = .ok s' := by
    change s.resume i = _
    unfold State.resume
    rw [hwish]
    exact hs'
  unfold State.awaitReaders at hs'
  obtain rfl := Except.ok.inj (((if_neg (not_not.2 hreaders)).trans
    (if_neg (not_not.2 (h.counts.writersLock_free hfree)))).symm.trans hs')
  refine ⟨.resume i, _, trivial, ⟨hfree, Or.inr hwish⟩, hstep, hinv,
    hinv.not_stuck_of_no_readers hreaders, total_setThread (i := i)
      (t := { s.threads i with wish := .nothing, writes := (s.threads i).writes + 1 }) rfl ?_⟩
  unfold Thread.weight
  rw [hwish]
  dsimp only
  simp
  omega

theorem Inv.advances (h : Inv s) (hstuck : ¬Stuck s) (hmore : ¬Finished s) : Advances s := by
  cases hmutex : s.mutex with
  | some i => exact h.advances_of_writes ((h.counts.mutex i).2 hmutex)
  | none =>
    by_cases hreaders : s.readers = 0
    · rcases Nat.eq_zero_or_pos s.writers with hwriters | hwriters
      · obtain ⟨i, hi⟩ := not_forall.1 hmore
        refine h.advances_of_wish (i := i) hmutex hwriters fun hwish => hi ?_
        have hreads : (s.threads i).reads = 0 := by
          rw [h.counts.readers] at hreaders
          exact Finset.sum_eq_zero_iff.1 hreaders i (Finset.mem_univ i)
        have hwrites := h.counts.no_writes hmutex i
        exact Thread.ext hreads hwrites hwish
      · exact h.advances_of_writers hmutex hreaders hwriters
    · rw [h.counts.readers] at hreaders
      obtain ⟨i, -, hi⟩ := Finset.exists_ne_zero_of_sum_ne_zero hreaders
      by_cases hwish : (s.threads i).wish = .nothing
      · exact h.advances_of_reads hstuck hmutex hwish (Nat.pos_of_ne_zero hi)
      · rcases Nat.eq_zero_or_pos s.writers with hwriters | hwriters
        · exact h.advances_of_wish hmutex hwriters hwish
        · exact absurd ⟨hwriters, i, hwish, Nat.pos_of_ne_zero hi⟩ hstuck

theorem Inv.canFinish (h : Inv s) (hstuck : ¬Stuck s) : CanFinish s := by
  induction hn : total s using Nat.strong_induction_on generalizing s with
  | _ n ih =>
    by_cases hmore : Finished s
    · exact ⟨[], fun op hop => (by cases hop), trivial, s, rfl, hmore⟩
    · obtain ⟨op, s', hrelease, hop, hs', hinv, hstuck', hless⟩ := h.advances hstuck hmore
      obtain ⟨ops, hops, hevery, t, hrun, hfinished⟩ :=
        ih (total s') (hn ▸ hless) hinv hstuck' rfl
      refine ⟨op :: ops, fun o ho => ?_, ⟨hop, fun u hu => ?_⟩, t, ?_, hfinished⟩
      · rcases List.mem_cons.1 ho with rfl | ho
        · exact hrelease
        · exact hops o ho
      · rw [hs'] at hu
        obtain rfl := Option.some.inj hu
        exact hevery
      · rw [runAll_cons_of_ok hs']
        exact hrun

theorem Stuck.runAll (h : Stuck s) (hinv : Inv s) {ops : List (Op ι)}
    (hops : EveryStep SafeData.step Enabled ops s) (hrun : runAll SafeData.step ops s = .ok s') :
    Stuck s' := by
  induction ops generalizing s with
  | nil =>
    cases hrun
    exact h
  | cons op ops ih =>
    obtain ⟨hop, hrest⟩ := hops
    obtain ⟨s₁, hs₁, hinv₁⟩ := step_inv hinv hop
    rw [runAll_cons_of_ok hs₁] at hrun
    exact ih (h.step hinv hop hs₁) hinv₁ (hrest s₁ (by rw [hs₁]; rfl)) hrun

/-- In every state that is reached, all threads can end just when nobody who has access for reading
waits for another one while somebody wants to write; and else that is so for ever. -/
theorem run_canFinish_iff (ops : List (Op ι)) (h : EveryStep step Enabled ops start) :
    ∃ s, runAll step ops start = .ok s ∧ (CanFinish s ↔ ¬Stuck s) ∧
      (Stuck s → ∀ ops' s', EveryStep step Enabled ops' s → runAll step ops' s = .ok s' →
        Stuck s') := by
  obtain ⟨s, hrun, hinv⟩ := runAll_of_step (I := Inv) (fun s op hs hop => step_inv hs hop)
    inv_start h
  refine ⟨s, hrun, ⟨fun hcan hstuck => ?_, hinv.canFinish⟩,
    fun hstuck ops' s' hops hrun' => hstuck.runAll hinv hops hrun'⟩
  obtain ⟨ops', -, hops, s', hrun', hfinished⟩ := hcan
  obtain ⟨-, i, hwish, -⟩ := hstuck.runAll hinv hops hrun'
  rw [hfinished i] at hwish
  exact hwish rfl

end

def copiedAccess : List (Op Bool) := [.lockRead false, .lockWrite true, .copyRead false]

theorem run_canFinish_iff_copied :
    EveryStep step Enabled copiedAccess start ∧
      ∃ s, runAll step copiedAccess start = .ok s ∧ (CanFinish s ↔ ¬Stuck s) ∧
        (Stuck s → ∀ ops' s', EveryStep step Enabled ops' s → runAll step ops' s = .ok s' →
          Stuck s') :=
  ⟨by decide, run_canFinish_iff copiedAccess (by decide)⟩

/-- Both threads sleep, and the first one still has its access. -/
example : (runAll step copiedAccess start).toOption.map (fun s =>
    (s.threads false, s.threads true, s.readers, s.writers)) =
      some (⟨1, 0, .reading true⟩, ⟨0, 0, .writing true⟩, 1, 1) := by
  decide

end UdtKernel.SafeData
