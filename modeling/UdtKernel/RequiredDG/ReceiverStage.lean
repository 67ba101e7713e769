import Mathlib.Logic.Function.Basic
import UdtKernel.RequiredDG.Extract
import UdtKernel.RequiredDG.Receivers
import UdtKernel.Routing.SwapEndian

set_option autoImplicit false

/-! How packets of user data get their receivers: `MFillMsgReceivers`, with the splicing between the
lists of packets and the data that is buffered until a message is complete. -/

namespace UdtKernel.ReceiverStage
open UdtKernel.Lib UdtKernel.RequiredDG UdtKernel.Extract
open UdtKernel.SwapEndian (isRaw rawProtocolName)

def eCannotParseBuffer : ErrorType := 2 ^ 14
def eUserErrorBegin : ErrorType := 2 ^ 23

def codeUserError (aError : ℕ) : ErrorType := aError <<< 24 ||| eUserErrorBegin

/-- `MIsMsgExist`: the message is known before the data is parsed. -/
def isMsgExist (i : UserDataInfo) : Bool := i.what.messageHeader ≠ List.replicate 8 0

inductive StageAbort where
  | emptyMessage
  | endsOutside
  | beginsLater
  | noPacketOfMessage
  deriving DecidableEq

/-- What the stage uses of an `IExtParser`. -/
structure Parser where
  parserData : List Byte → Uuid → List ObtainedDg
  dataOffset : RequiredHeader → ℕ

abbrev ParserFactory := Text → Option Parser

/-- Which other packet has the storage of buffered data, the one at a place among those that come
back or one of an earlier call, and how many bytes still fit into the storage. -/
structure Sharing where
  packet : Option ℕ
  room : ℕ

/-- What the stage changes of `CRequiredDG`. Of memory it has what a packet's storage has room for
if `MBufferingDataIfNeed` shares it (it makes a copy for allocators that are not the default one),
and who else has the storages of the buffered data. -/
structure Kernel where
  dg : RequiredDG
  msgId : ℕ
  memory : UserData → Option ℕ
  shared : Uuid → Text → Option Sharing

namespace Kernel

def routing (k : Kernel) (aFrom : Uuid) (aProtocol : Text) : DataRouting :=
  ((k.dg.whatIsSendingBy.find aFrom).bind fun protocols => protocols.find ⟨aProtocol⟩).getD .empty

/-- The buffered data is set, of a list that is created when it does not exist. -/
def setBuffered (k : Kernel) (aFrom : Uuid) (aProtocol : Text) (aData : List Byte) : Kernel :=
  let put (protocols : SortedMap Protocol DataRouting) : SortedMap Protocol DataRouting :=
    protocols.alter ⟨aProtocol⟩ fun r => some { r.getD .empty with bufferedData := aData }
  { k with dg := { k.dg with
    whatIsSendingBy := k.dg.whatIsSendingBy.alter aFrom fun o => some (put (o.getD .empty)) } }

/-- `MGetOrCreateExpectedListFor` may create a list. -/
def touch (k : Kernel) (aFrom : Uuid) (aProtocol : Text) : Kernel :=
  k.setBuffered aFrom aProtocol (k.routing aFrom aProtocol).bufferedData

def setShared (k : Kernel) (aFrom : Uuid) (aProtocol : Text) (s : Option Sharing) : Kernel :=
  { k with
    shared := Function.update k.shared aFrom (Function.update (k.shared aFrom) aProtocol s) }

/-- The packets that have storages of buffered data have come back. -/
def callOver (k : Kernel) : Kernel :=
  { k with shared := fun u t => (k.shared u t).map fun s => { s with packet := none } }

end Kernel

def senderOf (m : UserData) : Uuid := m.dataId.routing.from_.uuid

/-- The lists that packets are moved between: those before the iterator, and those that fail, with
the bytes that some of these have got since. -/
structure Lists where
  sent : List UserData
  to_ : List UserData
  fails : List FailSend
  overwritten : List (ℕ × List Byte)

namespace Lists

/-- The packet at the iterator is moved to the ones that fail. -/
def splice (l : Lists) (data : UserData) : Lists := { l with to_ := l.to_ ++ [data] }

def keep (l : Lists) (data : UserData) : Lists := { l with sent := l.sent ++ [data] }

def report (l : Lists) (f : FailSend) : Lists := { l with fails := l.fails ++ [f] }

def overwrite (l : Lists) (ws : List (ℕ × List Byte)) : Lists :=
  { l with overwritten := l.overwritten ++ ws }

/-- The packets that fail, with the bytes they have in the end. -/
def comingBack (l : Lists) : List UserData :=
  l.overwritten.foldl (fun ms w => ms.modify w.1 fun m => { m with data := w.2 }) l.to_

/-- A packet gets the receivers of its message, or is moved to the ones that fail. -/
def fill (ru : ReceiversOfMsg) (data : UserData) (l : Lists) : Lists :=
  if ru.receivers.entries ≠ [] && 0 < ru.numberOfReal then
    let (is, info, fails) := fillRouteAndDestanationInfo ru data.dataId l.fails
    let l := { l with fails := fails }
    if is then l.keep { data with dataId := info } else l.splice { data with dataId := info }
  else l.splice data

end Lists

def getUuidsOfReceivers (aMap : ExpectingDg) (aMsg : RequiredHeader) : ReceiversOfMsg :=
  (aMap.find aMsg.messageHeader).getD .empty

def fillByRawProtocol (k : Kernel) : List UserData → Lists → Kernel × Lists
  | [], l => (k, l)
  | data :: rest, l =>
    let routing := k.routing (senderOf data) rawProtocolName
    let k := k.touch (senderOf data) rawProtocolName
    if routing.expected.entries = [] then fillByRawProtocol k rest (l.splice data)
    else
      fillByRawProtocol k rest (l.fill (getUuidsOfReceivers routing.expected data.dataId.what) data)

/-- `MParseData`: the messages, what is left of the packet, and the part that is not handled. -/
def parseData (p : Parser) (aFrom : Uuid) (data : List Byte) :
    Except StageAbort (List ObtainedDg × List Byte × List Byte) :=
  let msgs := p.parserData data aFrom
  match msgs.head?, msgs.getLast? with
  | some front, some back =>
    if data.length < back.end_ then .error .endsOutside
    else if front.begin_ ≠ 0 then .error .beginsLater
    else .ok (msgs, data.take back.end_, data.drop back.end_)
  | _, _ => .ok (msgs, data, data)

/-- `MRemoveDataWithUserErrors`: the messages and the packets that are left. -/
def removeDataWithUserErrors : List ObtainedDg → List UserData → Lists →
    Except StageAbort (List ObtainedDg × List UserData × Lists)
  | [], datas, l => .ok ([], datas, l)
  | _ :: _, [], _ => .error .noPacketOfMessage
  | msg :: msgs, data :: datas, l =>
    if msg.errorCode ≠ 0 then
      let f := (FailSend.ofInfo data.dataId).setError eCannotParseBuffer
      removeDataWithUserErrors msgs datas
        ((l.report (f.setError (codeUserError msg.errorCode))).splice data)
    else do
      let (msgs, datas, l) ← removeDataWithUserErrors msgs datas l
      .ok (msg :: msgs, data :: datas, l)

def addReceiversForMessages (aUuids : ExpectingDg) : List ObtainedDg → List UserData → Lists →
    Except StageAbort Lists
  | [], datas, l => .ok { l with sent := l.sent ++ datas }
  | _ :: _, [], _ => .error .noPacketOfMessage
  | msg :: msgs, data :: datas, l =>
    addReceiversForMessages aUuids msgs datas (l.fill (getUuidsOfReceivers aUuids msg.type) data)

/-- `MExtractMessages`, with its check among those of the stage. -/
def extract (p : Parser) (msgId : ℕ) (msgs : List ObtainedDg) (data : UserData) :
    Except StageAbort (ℕ × List UserData) :=
  match extractMessages p.dataOffset msgId msgs data with
  | .ok r => .ok r
  | .error .emptyMessage => .error .emptyMessage

def knownTurn (aUuids : ExpectingDg) (data : UserData) (l : Lists) : Except StageAbort Lists :=
  let data := { data with dataId := { data.dataId with dataOffset := 0 } }
  addReceiversForMessages aUuids [⟨data.dataId.what, 0, 0, data.data.length⟩] [data] l

/-- The packet is replaced by the messages found in it. The flag says that none is left of them. -/
def foundTurn (p : Parser) (aUuids : ExpectingDg) (k : Kernel) (msgs : List ObtainedDg)
    (data : UserData) (l : Lists) : Except StageAbort (Kernel × Lists × Bool) := do
  let (msgId, datas) ← extract p k.msgId msgs data
  let (msgs, datas, l) ← removeDataWithUserErrors msgs datas l
  if msgs = [] then .ok ({ k with msgId := msgId }, l, true)
  else
    let l ← addReceiversForMessages aUuids msgs datas l
    .ok ({ k with msgId := msgId }, l, false)

/-- The storage of the buffered data, when another packet has it and the packet's bytes fit in. -/
def sharingFor (k : Kernel) (data : UserData) : Option Sharing :=
  (k.shared (senderOf data) data.dataId.protocol).filter fun s => data.data.length ≤ s.room

/-- `MAppendBufferedData`: the data that is parsed then. `MInsertImpl` takes the place of the
insertion before `MDetach`: bytes that fit into a shared storage come to the packet that has it, and
the buffered data stays as it was. -/
def appendBufferedData (k : Kernel) (aRouting : DataRouting) (data : UserData) :
    List Byte × List (ℕ × List Byte) :=
  if aRouting.bufferedData = [] then (data.data, [])
  else
    match sharingFor k data with
    | none => (aRouting.bufferedData ++ data.data, [])
    | some s =>
      (aRouting.bufferedData, s.packet.toList.map fun i => (i, aRouting.bufferedData ++ data.data))

/-- The data of the packet is parsed behind what was buffered. If no message is found, all of it is
buffered and not only what is behind the messages. -/
def parsedTurn (p : Parser) (aRouting : DataRouting) (k : Kernel) (data : UserData) (l : Lists) :
    Except StageAbort (Kernel × Lists × Bool) := do
  let (joined, overwritten) := appendBufferedData k aRouting data
  let l := l.overwrite overwritten
  let (msgs, part, tail) ← parseData p (senderOf data) joined
  let k := k.setBuffered (senderOf data) data.dataId.protocol tail
  let rest := { data with data := part }
  if msgs = [] then
    let s := (k.memory data).map (Sharing.mk (some l.to_.length))
    .ok (k.setShared (senderOf data) data.dataId.protocol s, l.splice rest, false)
  else
    foundTurn p aRouting.expected (k.setShared (senderOf data) data.dataId.protocol none) msgs
      rest l

/-- A turn of `MFillByUserProtocol`, with the flag of `foundTurn`. -/
def userTurn (factory : ParserFactory) (k : Kernel) (data : UserData) (l : Lists) :
    Except StageAbort (Kernel × Lists × Bool) :=
  let routing := k.routing (senderOf data) data.dataId.protocol
  let k := k.touch (senderOf data) data.dataId.protocol
  if routing.expected.entries = [] then .ok (k, l.splice data, false)
  else if isMsgExist data.dataId then do
    let l ← knownTurn routing.expected data l
    .ok (k, l, false)
  else
    match factory data.dataId.protocol with
    | none => .ok (k, (l.report (FailSend.ofRouting data.dataId data.dataId.destination
        eParserIsNotExist)).splice data, false)
    | some p => parsedTurn p routing k data l

/-- `MFillByUserProtocol`: behind a packet of which no message is left, the next one is taken for
one without messages. -/
def fillByUserProtocol (factory : ParserFactory) : Bool → Kernel → List UserData → Lists →
    Except StageAbort (Kernel × Lists)
  | _, k, [], l => .ok (k, l)
  | true, k, data :: rest, l => fillByUserProtocol factory false k rest (l.splice data)
  | false, k, data :: rest, l => do
    let (k, l, isNone) ← userTurn factory k data l
    fillByUserProtocol factory isNone k rest l

def handle (factory : ParserFactory) (k : Kernel) (data : UserData) (l : Lists) :
    Except StageAbort (Kernel × Lists) :=
  if isRaw data.dataId then .ok (fillByRawProtocol k [data] l)
  else fillByUserProtocol factory false k [data] l

/-- A turn of `MFillMsgReceivers`, for one packet. -/
def turn (factory : ParserFactory) (k : Kernel) (data : UserData) (l : Lists) :
    Except StageAbort (Kernel × Lists) :=
  if data.data = [] then
    .ok (k, (l.report (FailSend.ofRouting data.dataId data.dataId.destination
      eUnknownError)).splice data)
  else do
    let (k, handled) ← handle factory k data { l with sent := [] }
    .ok (k, { handled with sent := l.sent ++ handled.sent })

/-- The turns over all packets; `sent` is what goes to `aTo`, `to_` what fails. -/
def turns (factory : ParserFactory) (k : Kernel) :
    List UserData → Lists → Except StageAbort (Kernel × Lists)
  | [], l => .ok (k, l)
  | data :: rest, l => do
    let (k, l) ← turn factory k data l
    turns factory k rest l

/-- `MFillMsgReceivers`: what fails is moved back to `aFrom`. -/
def fillMsgReceivers (factory : ParserFactory) (k : Kernel) (aFrom aTo : List UserData)
    (aFail : List FailSend) : Except StageAbort (Kernel × List UserData × List UserData ×
      List FailSend) := do
  let (k, l) ← turns factory k aFrom ⟨aTo, [], aFail, []⟩
  .ok (k.callOver, l.comingBack, l.sent, l.fails)

end UdtKernel.ReceiverStage
