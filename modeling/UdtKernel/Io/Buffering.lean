import UdtKernel.Types
import UdtKernel.Lib.Run
import Mathlib.Algebra.BigOperators.Group.Finset.Basic
import Mathlib.Algebra.Order.BigOperators.Group.List
import Mathlib.Algebra.Order.Group.Nat

set_option autoImplicit false

/-! The packets that wait for a channel: `CBuffering`. -/

namespace UdtKernel
open UdtKernel.Lib

/-- A `user_data_t`; its data may be in shared memory, with an allocator that is not the default
    one. -/
structure Packet where
  data : UserData
  inSm : Bool
  deriving DecidableEq

namespace Packet

def size (p : Packet) : ℕ := p.data.data.length

/-- `deep_copy` into a buffer of the default allocator. -/
def deepCopy (p : Packet) : Packet := { p with inSm := false }

def bytes (l : List Packet) : ℕ := (l.map size).sum

def smBytes (l : List Packet) : ℕ := bytes (l.filter inSm)

@[simp] theorem bytes_nil : bytes [] = 0 := rfl

@[simp] theorem bytes_cons (p : Packet) (l : List Packet) : bytes (p :: l) = p.size + bytes l := rfl

@[simp] theorem bytes_append (l l' : List Packet) : bytes (l ++ l') = bytes l + bytes l' := by
  unfold bytes
  rw [List.map_append, List.sum_append]

@[simp] theorem smBytes_nil : smBytes [] = 0 := rfl

@[simp] theorem smBytes_append (l l' : List Packet) :
    smBytes (l ++ l') = smBytes l + smBytes l' := by
  unfold smBytes
  rw [List.filter_append, bytes_append]

theorem smBytes_cons (p : Packet) (l : List Packet) :
    smBytes (p :: l) = (if p.inSm then p.size else 0) + smBytes l := by
  unfold smBytes
  rw [List.filter_cons]
  split_ifs <;> simp

theorem smBytes_le (l : List Packet) : smBytes l ≤ bytes l := by
  induction l with
  | nil => exact Nat.le_refl 0
  | cons p l ih =>
    rw [smBytes_cons, bytes_cons]
    split_ifs <;> omega

theorem bytes_le_of_subperm {l l' : List Packet} (h : l.Subperm l') : bytes l ≤ bytes l' := by
  obtain ⟨l'', hperm, hsub⟩ := h
  calc bytes l = bytes l'' := (hperm.map size).sum_eq.symm
    _ ≤ bytes l' := (hsub.map size).sum_le_sum fun _ _ => Nat.zero_le _

@[simp] theorem size_deepCopy (p : Packet) : p.deepCopy.size = p.size := rfl

end Packet

/-- `CBuffering`, without its diagnostics. -/
structure Buffering where
  data : List Packet
  maxBufferSizeForChannel : ℕ
  maxSmBufferSize : ℕ
  buffer : ℕ
  smBuffer : ℕ
  handlingBuffer : ℕ
  doingThread : ℕ

namespace Buffering

/-- `CBuffering(aMaxBufferSizeForChannel, aMaxSMBufferSize)`. -/
def init (aMaxBufferSizeForChannel aMaxSMBufferSize : ℕ) : Buffering where
  data := []
  maxBufferSizeForChannel := aMaxBufferSizeForChannel
  maxSmBufferSize := aMaxSMBufferSize
  buffer := 0
  smBuffer := 0
  handlingBuffer := 0
  doingThread := 0

def isEmpty (b : Buffering) : Bool := b.data.isEmpty

/-- The shared memory is limited, and more strictly than the channel. -/
def limitsSm (b : Buffering) : Bool :=
  decide (b.maxSmBufferSize ≠ 0 ∧
    (b.maxSmBufferSize < b.maxBufferSizeForChannel ∨ b.maxBufferSizeForChannel = 0))

/-- What `MPut` does with a packet that fits: the counter of the shared memory and the buffer
    afterwards. -/
def accept (currentSm : ℕ) (b : Buffering) (p : Packet) : ℕ × Buffering :=
  let b := if b.maxBufferSizeForChannel ≠ 0 then { b with buffer := b.buffer + p.size } else b
  if b.limitsSm && p.inSm then
    if currentSm + p.size < b.maxSmBufferSize then
      (currentSm + p.size, { b with smBuffer := b.smBuffer + p.size, data := b.data ++ [p] })
    else (currentSm, { b with data := b.data ++ [p.deepCopy] })
  else (currentSm, { b with data := b.data ++ [p] })

/-- The loop of `MPut`, with the packets that are left. -/
def putAll (currentSm : ℕ) (b : Buffering) : List Packet → (ℕ × Buffering) × List Packet
  | [] => ((currentSm, b), [])
  | p :: l =>
    if b.maxBufferSizeForChannel ≠ 0 ∧ b.maxBufferSizeForChannel < b.buffer + p.size then
      ((currentSm, b), p :: l)
    else
      let r := b.accept currentSm p
      r.2.putAll r.1 l

def put (currentSm : ℕ) (b : Buffering) (aData : List Packet) : (ℕ × Buffering) × List Packet :=
  if 0 < b.maxBufferSizeForChannel ∨ 0 < b.maxSmBufferSize then b.putAll currentSm aData
  else ((currentSm, { b with data := b.data ++ aData }), [])

/-- `MTry`, with the packets to be sent; none when it returns false. -/
def try_ (thread currentSm : ℕ) (b : Buffering) :
    Except Abort (Option ((ℕ × Buffering) × List Packet)) :=
  if b.isEmpty then .ok none
  else if b.doingThread ≠ 0 then .error .bufferIsHandled
  else .ok (some ((currentSm - b.smBuffer,
    { b with data := [], handlingBuffer := b.buffer, smBuffer := 0, doingThread := thread }),
    b.data))

/-- `MFinish`, as to the packets and their size. -/
def takeBack (aNoSent : List Packet) (aTryAgain : Bool) (b : Buffering) : Buffering :=
  match aNoSent with
  | [] => { b with buffer := b.buffer - b.handlingBuffer }
  | _ :: _ => { b with
      buffer := b.buffer + Packet.bytes aNoSent
      data := if aTryAgain then aNoSent ++ b.data else b.data }

def finish (thread : ℕ) (aNoSent : List Packet) (aTryAgain : Bool) (b : Buffering) :
    Except Abort Buffering :=
  if b.doingThread ≠ thread then .error .bufferIsNotHandled
  else .ok { b.takeBack aNoSent aTryAgain with doingThread := 0, handlingBuffer := 0 }

/-- `MClearImidiatle`, with the packets that it gives back. -/
def clearImidiatle (b : Buffering) : Buffering × List Packet := ({ b with data := [] }, b.data)

end Buffering

/-- Buffers that share the counter `FCurrentSMBuffer`, and the packets that are being sent from
    each of them. -/
structure Bufferings (ι : Type) where
  currentSm : ℕ
  buffering : ι → Buffering
  sending : ι → List Packet

namespace Bufferings

inductive Op (ι : Type) where
  | put (i : ι) (aData : List Packet)
  | try_ (i : ι) (thread : ℕ)
  | finish (i : ι) (thread : ℕ) (aNoSent : List Packet) (aTryAgain : Bool)
  | clearImidiatle (i : ι)

variable {ι : Type} [DecidableEq ι]

def start (limits : ι → ℕ × ℕ) : Bufferings ι where
  currentSm := 0
  buffering := fun i => .init (limits i).1 (limits i).2
  sending := fun _ => []

def step : Op ι → Bufferings ι → Except Abort (Bufferings ι)
  | .put i aData, s =>
    let r := (s.buffering i).put s.currentSm aData
    .ok { s with currentSm := r.1.1, buffering := Function.update s.buffering i r.1.2 }
  | .try_ i thread, s => do
    match ← (s.buffering i).try_ thread s.currentSm with
    | none => return s
    | some r => return {
        currentSm := r.1.1
        buffering := Function.update s.buffering i r.1.2
        sending := Function.update s.sending i r.2 }
  | .finish i thread aNoSent aTryAgain, s => do
    let b ← (s.buffering i).finish thread aNoSent aTryAgain
    return { s with
      buffering := Function.update s.buffering i b
      sending := Function.update s.sending i [] }
  | .clearImidiatle i, s =>
    .ok { s with
      buffering := Function.update s.buffering i (s.buffering i).clearImidiatle.1 }

/-- How the callers pair the calls: what is tried is finished by the same thread before it is tried
    again, and what could not be sent is of what was tried. -/
def Paired (s : Bufferings ι) : Op ι → Prop
  | .put _ _ => True
  | .try_ i thread => (s.buffering i).doingThread = 0 ∧ thread ≠ 0
  | .finish i thread aNoSent _ =>
    (s.buffering i).doingThread = thread ∧ thread ≠ 0 ∧ aNoSent.Subperm (s.sending i)
  | .clearImidiatle _ => True

end Bufferings

end UdtKernel
