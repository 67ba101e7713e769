import UdtKernel.Types
import UdtKernel.Lib.Digits

set_option autoImplicit false

/-! The fields of a `head_t` that stands at the beginning of some bytes, read on a machine, and the
parts of `CText` and `CCodeUTF8` that bring a text into a datagram and back. A text that is read is
a list of codes, which need not be characters. -/

namespace UdtKernel
open UdtKernel.Lib

/-- `_remaind` in the turns of `sMakeCRCTable` of `crc8_t` and `crc16_t`. -/
def crcRemaind (msbit polynom : ℕ) : ℕ → ℕ
  | 0 => msbit
  | n + 1 =>
    let remaind := crcRemaind msbit polynom n
    (remaind <<< 1) ^^^ (if remaind &&& msbit ≠ 0 then polynom else 0)

/-- An entry of the table after some turns of `sMakeCRCTable`, each of which fills in as many
    entries as there are. -/
def crcEntry (msbit polynom : ℕ) : ℕ → ℕ → ℕ
  | 0, _ => 0
  | n + 1, k =>
    if 2 ^ n ≤ k then
      (crcEntry msbit polynom n (k - 2 ^ n) ^^^ crcRemaind msbit polynom (n + 1)) % (2 * msbit)
    else crcEntry msbit polynom n k

/-- `sMCalcNextCRC` of `udt_protocol_header_crc_t`. -/
def crc8Next (crc : ℕ) (b : Byte) : ℕ := crcEntry 0x80 0x97 8 (crc ^^^ b.val)

def headerCrc (l : List Byte) : ℕ := l.foldl crc8Next 0x01

def checkingConstant : ℕ := crc8Next 0x01 1

/-- `sMCalcNextCRC` of `udt_protocol_data_crc_t`. -/
def crc16Next (crc : ℕ) (b : Byte) : ℕ :=
  (crc <<< 8) % 2 ^ 16 ^^^ crcEntry 0x8000 0xC005 8 (((crc >>> 8) ^^^ b.val) &&& 0xff)

def dataCrcOf (l : List Byte) : ℕ := l.foldl crc16Next 0

def Endian.code : Endian → Byte
  | .little => 0
  | .big => 1

def Endian.value : Endian → List Byte → ℕ
  | .little, l => ofDigits l
  | .big, l => ofDigits l.reverse

/-- The bytes with which a machine writes a number of `n` bytes. -/
def Endian.bytes : Endian → ℕ → ℕ → List Byte
  | .little, n, v => toDigits 256 n v
  | .big, n, v => (toDigits 256 n v).reverse

/-- A machine reads what it has written. -/
theorem Endian.value_bytes (me : Endian) {n v : ℕ} (hv : v < 256 ^ n) :
    me.value (me.bytes n v) = v := by
  have hdigits : ofDigits (toDigits 256 n v) = v := ofDigits_toDigits_of_lt hv
  cases me with
  | little => exact hdigits
  | big => rw [Endian.value, Endian.bytes, List.reverse_reverse, hdigits]

/-- `E_HEAD_SIZE`. -/
def sizeofHead : ℕ := 8 * 4

def field (l : List Byte) (offset n : ℕ) : List Byte := (l.drop offset).take n

def byteAt (l : List Byte) (offset : ℕ) : ℕ := (l.getD offset 0).val

namespace Head
variable (me : Endian) (l : List Byte)

def headSize : ℕ := byteAt l 0

def isValidEndian : Bool := byteAt l 1 = me.code.val

def endianCorrectValue (field : List Byte) : ℕ :=
  me.value (if isValidEndian me l then field else field.reverse)

def major : ℕ := byteAt l 4
def minor : ℕ := byteAt l 5
def dataSize : ℕ := endianCorrectValue me l (field l 8 4)
def time : ℕ := endianCorrectValue me l (field l 12 4)
def fromUuid : ℕ := endianCorrectValue me l (field l 16 8)
def dataCrc : ℕ := endianCorrectValue me l (field l 24 2)
def msgType : ℕ := byteAt l 26

def isValidProtocol : Bool :=
  sizeofHead ≤ l.length && headerCrc (l.take sizeofHead) == checkingConstant

def sizeKd : ℕ := headSize l + dataSize me l

end Head

/-- `MCharLen` of `CCodeUTF8`. -/
def charLen (code : ℕ) : ℕ :=
  if code < 0x80 then 1 else if code < 0x0800 then 2 else if code < 0x10000 then 3 else 4

/-- `MSeqLen` of `CCodeUTF8`. -/
def seqLen (lead : Byte) : ℕ :=
  if lead.val < 0x80 then 1
  else if lead.val >>> 5 = 0x6 then 2
  else if lead.val >>> 4 = 0xe then 3
  else if lead.val >>> 3 = 0x1e then 4
  else 1

/-- `MLengthOf` of `CCodeUTF8`: the codes before the `\0`, but for the ones after so many. -/
def lengthOf : ℕ → List Byte → Except Abort ℕ
  | _, [] => .error .readOutside
  | max, b :: l =>
    if b = 0 then .ok 0
    else match max with
      | 0 => .ok 0
      | max + 1 => do return (← lengthOf max ((b :: l).drop (seqLen b))) + 1

/-- `MNext` of `CCodeUTF8`, with the bytes of its sequence. -/
def nextCode : List Byte → ℕ
  | [] => 0
  | [b] => b.val
  | [b, c] => ((b.val <<< 6) &&& 0x7ff) + (c.val &&& 0x3f)
  | [b, c, d] => ((b.val <<< 12) &&& 0xffff) + ((c.val <<< 6) &&& 0xfff) + (d.val &&& 0x3f)
  | b :: c :: d :: e :: _ =>
    ((b.val <<< 18) &&& 0x1fffff) + ((c.val <<< 12) &&& 0x3ffff) + ((d.val <<< 6) &&& 0xfff) +
      (e.val &&& 0x3f)

/-- `MToUCS4`; a sequence takes at least a byte. -/
def toUcs4 : ℕ → List Byte → List ℕ
  | 0, _ => []
  | _ + 1, [] => []
  | n + 1, b :: l =>
    nextCode ((b :: l).take (seqLen b)) :: toUcs4 n ((b :: l).drop (seqLen b))

/-- The bytes before the `\0`. -/
def untilNull (l : List Byte) : List Byte := l.takeWhile (· ≠ 0)

/-- `CText::assign(utf8_str, str_num)` where some bytes stand. The codes behind those that are
    converted are what the memory holds. -/
def assignText (l : List Byte) (num : ℕ) : Except Abort (List ℕ) :=
  if num = 0 then .ok []
  else do
    if (← lengthOf num l) < num then .error .textIsShort
    else if l.length = (untilNull l).length then .error .readOutside
    else
      let codes := toUcs4 (untilNull l).length (untilNull l)
      if codes.length < num then .error .readOutside else .ok (codes.take num)

/-- `CText(cstr)`. -/
def textOf (l : List Byte) : Except Abort (List ℕ) := do assignText l (← lengthOf l.length l)

/-- A code as `*_p++ = _text[i]` writes it. -/
def codeByte (c : Char) : Byte := Fin.ofNat 256 c.toNat

def lengthCode (text : Text) : ℕ := (text.map fun c => charLen c.toNat).sum

/-- The first elements of a text; behind the text there is a `\0`. -/
def copyText : ℕ → Text → Except Abort (List Byte)
  | 0, _ => .ok []
  | 1, [] => .ok [0]
  | _ + 2, [] => .error .readOutside
  | n + 1, c :: text => do return codeByte c :: (← copyText n text)

end UdtKernel
