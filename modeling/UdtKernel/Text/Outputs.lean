import UdtKernel.Text.Stream
import UdtKernel.Text.ToBuf
import UdtKernel.Lib.Run

set_option autoImplicit false

/-! Runs of edits and of outputs of a text. -/

namespace UdtKernel.CText
open Lib Buffer

inductive OutCall where
  /-- An edit through a method. -/
  | edit (env : ℕ → List ℕ) (call : Call) (junk : ℕ → ℕ)
  /-- Other texts come to hold the `impl_t` too, or hold it no more. -/
  | hold (shared : Bool)
  /-- A code point is set through a reference or an iterator from `begin()`. -/
  | poke (i code : ℕ)
  /-- A code point is set through an iterator from `end()`. -/
  | pokeEnd (i code : ℕ)
  /-- A text is written to the stream. -/
  | write (text : List CodePoint) (junk : ℕ → ℕ)
  /-- `c_str` and `data`. -/
  | cStr (junk : ℕ → Byte)
  | toStdString
  | print
  /-- `MPrint` with a converter. -/
  | printWith (junk : ℕ → Byte)
  | toBuf (aBuf : CBuffer) (memory : ℕ → Byte)

/-- A text, its stream, and what the last output gave. -/
structure Writer where
  store : Store
  stream : TextBuf
  given : List Byte

namespace Writer
variable (reserved : ℕ → ℕ)

def step : OutCall → Writer → Except OutFault Writer
  | .edit env call junk, w => do
    let store ← (w.store.edit reserved junk env call).mapError .text
    return { w with store }
  | .hold shared, w => .ok { w with store := { w.store with shared } }
  | .poke i code, w => do
    let store ← (w.store.poke i code).mapError .text
    return { w with store }
  | .pokeEnd i code, w => do
    let store ← (w.store.pokeEnd i code).mapError .text
    return { w with store }
  | .write text junk, w => do
    let (stream, store) ←
      (TextBuf.write reserved junk (utf8Of text) (w.stream, w.store)).mapError .text
    return { w with stream, store }
  | .cStr junk, w => do
    let (store, given) ← (w.store.buildUtf8Buff junk).mapError .text
    return { w with store, given }
  | .toStdString, w | .print, w => do
    let given ← w.store.toStdString.mapError .text
    return { w with given }
  | .printWith junk, w => do
    let (store, given) ← (w.store.printWith junk).mapError .text
    return { w with store, given }
  | .toBuf aBuf memory, w => do
    let aBuf ← w.store.toBuf memory aBuf
    return { w with given := aBuf.bytes }

/-- The outputs are of texts of characters. Bytes that are kept are not met where they are not
    those of the text, a character of four bytes is not written, and a buffer takes the text. -/
def Meets (w : Writer) : OutCall → Prop
  | .edit _ _ _ | .hold _ | .poke _ _ => True
  | .pokeEnd _ _ => w.store.singleDatalen = 0 ∨ w.store.shared = true
  | .write text _ => w.store.Sized ∧ w.store.RoomFor reserved text.length ∧
    ∀ c ∈ text, c.val < 0x10000
  | .cStr _ | .toStdString | .print => w.store.Valid
  | .printWith _ => w.store.Valid ∧ (w.store.singleBufferLen = 0 ∨ w.store.singleDatalen ≠ 0)
  | .toBuf aBuf _ => w.store.Valid ∧ aBuf.Inv ∧ (w.store.codes ≠ [] → TakesText aBuf w.store.codes)

/-- What an output is to give: the bytes of the code points, behind those of the buffer that it
    is given, and none of them is written outside of where it belongs. -/
def Gives (w : Writer) (x : Except OutFault Writer) : OutCall → Prop
  | .edit _ _ _ | .hold _ | .poke _ _ | .pokeEnd _ _ => True
  | .write text _ => ∃ w', x = .ok w' ∧ w'.store.codes = w.store.codes ++ text.map Subtype.val
  | .cStr _ | .toStdString | .print | .printWith _ =>
    ∃ w', x = .ok w' ∧ w'.given = encode w.store.codes ∧ w'.store.codes = w.store.codes
  | .toBuf aBuf _ => ∃ w', x = .ok w' ∧ w'.given = aBuf.bytes ++ encode w.store.codes ∧
    w'.store.codes = w.store.codes

/-- The bytes that are kept are those of the code points, and no character has been begun. -/
structure Inv (w : Writer) : Prop where
  cached : w.store.Cached
  idle : w.stream.Idle

variable {reserved} {w : Writer}

theorem saves_step {x : Except CText.Fault Store} (h : Store.Saves x) (hw : w.Inv) :
    Outcome (fun _ => True) Inv (x.mapError OutFault.text >>= fun store =>
      .ok { w with store }) := by
  cases x with
  | ok s => exact ⟨h, hw.idle⟩
  | error e => trivial

/-- The step lemma of the run. -/
theorem step_gives (hreserved : ∀ n, n ≤ reserved n) (hw : w.Inv) {op : OutCall}
    (hmeets : w.Meets reserved op) :
    Outcome (fun _ => True) Inv (step reserved op w) ∧ w.Gives (step reserved op w) op := by
  cases op with
  | edit env call junk => exact ⟨saves_step (hw.cached.edit env call) hw, trivial⟩
  | hold shared => exact ⟨⟨⟨hw.cached.shape, hw.cached.valid⟩, hw.idle⟩, trivial⟩
  | poke i code => exact ⟨saves_step (hw.cached.poke i code).saves hw, trivial⟩
  | pokeEnd i code => exact ⟨saves_step (hw.cached.pokeEnd hmeets i code).saves hw, trivial⟩
  | write text junk =>
    obtain ⟨hsized, hroom, htext⟩ := hmeets
    obtain ⟨b, s, hwrite, hidle, hcodes, hcached⟩ := TextBuf.write_text junk hreserved
      hsized hw.cached hroom hw.idle htext
    rw [step, hwrite]
    exact ⟨⟨hcached, hidle⟩, _, rfl, hcodes⟩
  | cStr junk =>
    obtain ⟨s, hbuild, hcached, hcodes⟩ := Store.buildUtf8Buff_spec hmeets hw.cached junk
    rw [step, hbuild]
    exact ⟨⟨hcached, hw.idle⟩, _, rfl, rfl, hcodes⟩
  | toStdString | print =>
    rw [step, Store.toStdString_spec hmeets]
    exact ⟨⟨hw.cached, hw.idle⟩, _, rfl, rfl, rfl⟩
  | printWith junk =>
    obtain ⟨s, hprint, hcached, hcodes⟩ :=
      Store.printWith_spec hmeets.1 hw.cached hmeets.2 junk
    rw [step, hprint]
    exact ⟨⟨hcached, hw.idle⟩, _, rfl, rfl, hcodes⟩
  | toBuf aBuf memory =>
    obtain ⟨hvalid, hbuf, htakes⟩ := hmeets
    obtain ⟨b, hto, hbytes⟩ := Store.toBuf_spec hvalid hbuf htakes memory
    rw [step, hto]
    exact ⟨⟨hw.cached, hw.idle⟩, _, rfl, hbytes, rfl⟩

/-- Every output of a run gives the bytes of the code points that the text has then. -/
theorem outputs_encode (hreserved : ∀ n, n ≤ reserved n) (hw : w.Inv) {ops ops' : List OutCall}
    {op : OutCall} (hmeets : EveryStep (step reserved) (Meets reserved) (ops ++ op :: ops') w)
    {w₁ : Writer} (hrun : runAll (step reserved) ops w = .ok w₁) :
    w₁.Gives (step reserved op w₁) op := by
  obtain ⟨hfirst, hop, -⟩ := hmeets.rest hrun
  have hinv := runAll_outcome (E := fun _ => True) (I := Inv)
    (fun w op hI hM => (step_gives hreserved hI hM).1) hw hfirst
  rw [hrun] at hinv
  exact (step_gives hreserved hinv hop).2

/-- A text of two characters, with memory for three, of which nothing has been written. -/
def ab : Writer := ⟨⟨⟨[97, 98, 0], 3, none, 0, 0⟩, false, 2⟩, ⟨[0, 0, 0, 0], 0, 0⟩, []⟩

theorem inv_ab : ab.Inv where
  cached := ⟨⟨rfl, rfl⟩, fun h => absurd rfl h⟩
  idle := ⟨rfl, rfl⟩

theorem outputs_encode_poked :
    ∃ w₁ w', runAll (step fun n => n * 13 / 10) [.poke 0 99] ab = .ok w₁ ∧
      step (fun n => n * 13 / 10) (.cStr fun _ => 7) w₁ = .ok w' ∧ w'.given = [99, 98] := by
  have hmeets : EveryStep (step fun n => n * 13 / 10) (Meets fun n => n * 13 / 10)
      ([.poke 0 99] ++ .cStr (fun _ => 7) :: []) ab := by
    refine ⟨trivial, fun w' hw' => ⟨?_, fun _ _ => trivial⟩⟩
    obtain rfl := Option.some.inj hw'
    exact ⟨⟨rfl, by decide⟩, by decide⟩
  obtain ⟨w', hstep, hgiven, -⟩ := outputs_encode (fun n => by omega) inv_ab hmeets rfl
  exact ⟨_, w', rfl, hstep, hgiven⟩

/-- `MPrint` with a converter gives the bytes that were kept before an edit. -/
theorem printWith_stale : ∃ w₁ w', ab.Inv ∧
    runAll (step fun n => n * 13 / 10) [.cStr fun _ => 7, .poke 0 99] ab = .ok w₁ ∧
    step (fun n => n * 13 / 10) (.printWith fun _ => 7) w₁ = .ok w' ∧
    w'.given = [97, 98] ∧ encode w₁.store.codes = [99, 98] :=
  ⟨_, _, inv_ab, rfl, rfl, rfl, rfl⟩

end Writer

end UdtKernel.CText
