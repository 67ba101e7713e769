import UdtKernel.Text.Store

set_option autoImplicit false

/-! The methods that change a `CText`. -/

namespace UdtKernel.CText

/-- The `CText` whose code points a method is given: the one it changes, or another one. -/
inductive Source where
  | self
  | other (codes : List ℕ)

def clip (num size : ℕ) : ℕ := if num = npos ∨ size < num then size else num

/-- `MLengthOf` of a text with its null. -/
def mLengthOf (str : List Byte) (max : ℕ) : Except Fault ℕ := match lengthOf max (str ++ [0]) with
  | .ok n => .ok n
  | .error _ => .error .outside

namespace Store
variable (reserved junk : ℕ → ℕ)

def sizeOf (s : Store) : Source → ℕ
  | .self => s.length
  | .other codes => codes.length

/-- `memcpy` of a part of a text. -/
def copyFrom (src : Source) (pos strIdx strNum : ℕ) (s : Store) : Except Fault Store :=
  match src with
  | .self =>
    if strNum ≠ 0 ∧ strIdx < pos + strNum ∧ pos < strIdx + strNum then .error .overlap
    else s.move pos strIdx strNum
  | .other codes => do s.put pos (← readAt codes strIdx strNum)

/-- `MToUCS4`; for no length the bytes are those before the null. -/
def mToUcs4 (str : List Byte) (pos destLen srcLen : ℕ) (s : Store) : Except Fault Store :=
  if srcLen = 0 then s.put pos (toUcs4 destLen (untilNull str))
  else if srcLen ≤ str.length + 1 then s.put pos (toUcs4 destLen ((str ++ [0]).take srcLen))
  else .error .outside

/-- What is left of a `std::string` from an index, and how many characters are taken of it. -/
def tailOf (str : List Byte) (strIdx strNum : ℕ) : Except Fault (List Byte × ℕ) := do
  let strNum ← if strNum = npos ∨ subSize str.length strIdx < strNum then
      (mLengthOf str strNum).map fun len => subSize len strIdx
    else .ok strNum
  if strIdx ≤ str.length then .ok (str.drop strIdx, strNum) else .error .outside

/-- The text gets a new size, and what stands in it before its end is set. -/
def grown (newsz : ℕ) (work : Store → Except Fault Store) (s : Store) : Except Fault Store := do
  (← work (← s.grow reserved junk newsz)).setLen newsz

def emptied (s : Store) : Except Fault Store := grown reserved junk 0 pure s.changed

def assignText (src : Source) (strIdx strNum : ℕ) (s : Store) : Except Fault Store :=
  if s.sizeOf src = 0 then s.emptied reserved junk
  else do
    check (strIdx < s.sizeOf src)
    let strNum := clip strNum (s.sizeOf src - strIdx)
    copyFrom src 0 strIdx strNum (← (← s.changed.grow reserved junk strNum).setLen strNum)

def assignUtf8 (str : List Byte) (strNum : ℕ) (s : Store) : Except Fault Store :=
  if strNum = 0 then s.emptied reserved junk
  else do
    check (strNum ≠ npos)
    check (strNum ≤ (← mLengthOf str strNum))
    s.changed.grown reserved junk strNum fun s => s.mToUcs4 str 0 s.bufLen 0

def assignStd (str : List Byte) (strIdx strNum : ℕ) (s : Store) : Except Fault Store :=
  if str = [] then s.emptied reserved junk
  else do
    check (strIdx < str.length)
    let (str, strNum) ← tailOf str strIdx strNum
    s.assignUtf8 reserved junk str strNum

def assignFill (num code : ℕ) (s : Store) : Except Fault Store := do
  check (num ≠ npos)
  if num = 0 then s.emptied reserved junk
  else (← (← s.changed.grow reserved junk num).setLen num).put 0 (List.replicate num code)

def appendWith (num : ℕ) (fill : Store → Except Fault Store) (s : Store) : Except Fault Store :=
  s.changed.grown reserved junk (addSize s.length num) fill

def appendText (src : Source) (strIdx strNum : ℕ) (s : Store) : Except Fault Store :=
  if s.sizeOf src = 0 then .ok s
  else do
    check (strIdx < s.sizeOf src)
    let strNum := clip strNum (s.sizeOf src - strIdx)
    s.appendWith reserved junk strNum (copyFrom src s.length strIdx strNum)

def appendUtf8 (str : List Byte) (len : ℕ) (s : Store) : Except Fault Store :=
  if len = 0 then .ok s
  else do
    check (len ≠ npos)
    check (len ≤ (← mLengthOf str len))
    s.appendWith reserved junk len (mToUcs4 str s.length len 0)

def appendStd (str : List Byte) (strIdx strNum : ℕ) (s : Store) : Except Fault Store :=
  if str = [] then .ok s
  else do
    check (strIdx < str.length)
    let (str, strNum) ← tailOf str strIdx strNum
    s.appendUtf8 reserved junk str strNum

def appendFill (num code : ℕ) (s : Store) : Except Fault Store := do
  check (num ≠ npos)
  s.appendWith reserved junk num (put s.length (List.replicate num code))

/-- So many code points before the one at an index, which is checked in a text that is not
    empty. -/
def insertWith (idx num : ℕ) (fill : Store → Except Fault Store) (s : Store) :
    Except Fault Store := do
  check (s.length ≠ 0 → idx < s.length)
  s.changed.grown reserved junk (addSize s.length num) fun s => do
    fill (← s.move (addSize idx num) idx (subSize s.length idx))

def insertText (idx : ℕ) (src : Source) (strIdx strNum : ℕ) (s : Store) : Except Fault Store :=
  if s.sizeOf src = 0 then .ok s
  else do
    check (strIdx < s.sizeOf src)
    let strNum := clip strNum (s.sizeOf src - strIdx)
    s.insertWith reserved junk idx strNum (copyFrom src idx strIdx strNum)

def insertUtf8 (idx : ℕ) (str : List Byte) (len : ℕ) (s : Store) : Except Fault Store := do
  check (len ≠ npos)
  check (len ≤ (← mLengthOf str len))
  s.insertWith reserved junk idx len (mToUcs4 str idx len 0)

def insertStd (idx : ℕ) (str : List Byte) (strIdx strNum : ℕ) (s : Store) : Except Fault Store :=
  if str = [] then .ok s
  else do
    let (str, strNum) ← tailOf str strIdx strNum
    s.insertUtf8 reserved junk idx str strNum

def insertFill (idx num code : ℕ) (s : Store) : Except Fault Store :=
  if num = 0 ∨ code = 0 then .ok s
  else do
    check (num ≠ npos)
    s.insertWith reserved junk idx num (put idx (List.replicate num code))

def erase (idx len : ℕ) (s : Store) : Except Fault Store :=
  if len = 0 then .ok s
  else do
    check (idx < s.length)
    let len := if len = npos then s.length - idx else len
    let moved ← s.changed.move idx (addSize idx len) (subSize (s.length - idx) len)
    moved.setLen (subSize s.length len)

def resize (num code : ℕ) (s : Store) : Except Fault Store :=
  if num < s.length then s.changed.setLen num
  else s.appendFill reserved junk (num - s.length) code

/-- So many code points in the place of some that stand behind an index. -/
def replaceWith (idx len num : ℕ) (fill : Store → Except Fault Store) (s : Store) :
    Except Fault Store :=
  let len := if s.length < addSize len idx ∨ len = npos then s.length - idx else len
  s.changed.grown reserved junk (subSize (addSize s.length num) len) fun s => do
    fill (← if addSize idx len < s.length then
      s.move (addSize idx num) (addSize len idx) (subSize (s.length - idx) len) else pure s)

/-- How much is taken of a text from an index, as `replace` has it. -/
def clipReplaced (strIdx strNum size : ℕ) : ℕ :=
  if size < addSize strIdx strNum ∨ strNum = npos then size - strIdx else strNum

def replaceText (idx len : ℕ) (src : Source) (strIdx strNum : ℕ) (s : Store) :
    Except Fault Store := do
  check (idx ≤ s.length)
  check (strIdx ≤ s.sizeOf src)
  let strNum := clipReplaced strIdx strNum (s.sizeOf src)
  s.replaceWith reserved junk idx len strNum (copyFrom src idx strIdx strNum)

def replaceStd (idx len : ℕ) (str : List Byte) (strIdx strNum : ℕ) (s : Store) :
    Except Fault Store := do
  check (idx ≤ s.length)
  check (strIdx ≤ str.length)
  let strNum := clipReplaced strIdx strNum str.length
  s.replaceWith reserved junk idx len strNum fun s => do
    s.put idx (← readAt (str.map Fin.val) strIdx strNum)

def replaceUtf8 (idx len : ℕ) (str : List Byte) (strLen : ℕ) (s : Store) : Except Fault Store := do
  check (idx ≤ s.length)
  check (strLen ≠ npos)
  check ((← mLengthOf str len) ≤ len)
  s.replaceWith reserved junk idx len strLen (mToUcs4 str idx strLen strLen)

def replaceFill (idx len num code : ℕ) (s : Store) : Except Fault Store := do
  check (idx ≤ s.length)
  check (len ≠ npos)
  s.replaceWith reserved junk idx len num (put idx (List.replicate num code))

def pushBack (code : ℕ) (s : Store) : Except Fault Store := s.appendFill reserved junk 1 code

def clear (s : Store) : Except Fault Store := if s.length = 0 then .ok s else s.changed.setLen 0

def reserve (num : ℕ) (s : Store) : Except Fault Store :=
  if num = 0 then .ok s.changed.removeBuffer else s.changed.grow reserved junk num

/-- `find_last_not_of` for a code point. -/
def findLastNotOf (code idx : ℕ) (s : Store) : Except Fault (Option ℕ) :=
  if s.length = 0 then .ok none
  else scanBack (· ≠ code) s.codes (if s.length ≤ idx then s.length - 1 else idx)

def trimSpace (s : Store) : Except Fault Store :=
  if s.length = 0 then .ok s
  else do match ← s.findLastNotOf 0x20 npos with
    | none => s.clear
    | some ind => if ind ≠ s.length - 1 then s.erase (ind + 1) npos else .ok s

end Store

end UdtKernel.CText
