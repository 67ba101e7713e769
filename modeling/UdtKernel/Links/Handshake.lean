import UdtKernel.Info.Net
import UdtKernel.Lib.Run

set_option autoImplicit false

/-! How two kernels connect over a service channel: `CKernelClientLink` and `CKernelServerLink` with
their handlers. The main channel, of which there are several kinds, may answer anything. -/

namespace UdtKernel.Links

/-- `program_id_t`. -/
structure Program where
  id : Uuid
  type : ProgramType
  deriving DecidableEq

inductive MainMessage where
  | param (type : Text)
  | request (type : Text)
  | close (type : Text)
  | error (type : Text) (error : ℕ)

/-- What a link passes on to `CKernelIo`. -/
inductive Payload (α : Type) where
  | kernelInfos (a : α)
  | demandsFor (a : α)
  | failSend (a : α)
  deriving DecidableEq

inductive Message (α : Type) where
  | protocol (type : ProgramType)
  | requestInfo (program : Program)
  | dgInfo (program : Program)
  | main (m : MainMessage)
  | accepted (id : Uuid)
  | payload (p : Payload α)

inductive Failure where
  | noKernelInfo
  | isNotAccepted
  | isNotMe
  | isOtherKernel
  | isUnexpected
  deriving DecidableEq

inductive LinkState where
  | open_
  | error
  deriving DecidableEq

structure Link where
  kernel : Program
  state : LinkState
  hasMain : Bool
  isAccepted : Bool
  deriving DecidableEq

/-- What the main channel and the socket do while a datagram is handled. -/
structure Answer where
  isFactory : Bool
  isOpened : Bool
  opening : List MainMessage
  isHandled : Bool
  handling : List MainMessage
  closing : List MainMessage
  isOpenBefore : Bool
  isOpen : Bool
  isSent : Bool

def eOk : ℕ := 0
def eNoChannel : ℕ := 1
def eNotOpened : ℕ := 2
def eUnknown : ℕ := 5

variable {α : Type}

/-- A link at work, with what goes out over the service channel. -/
structure Work (α : Type) where
  link : Link
  out : List (Message α)

namespace Work

variable (w : Work α)

def say (l : List MainMessage) : Work α := { w with out := w.out ++ l.map .main }

def changeState (state : LinkState) : Work α := { w with link := { w.link with state := state } }

def setMain (hasMain : Bool) : Work α := { w with link := { w.link with hasMain := hasMain } }

def mSendMainChannelError (a : Answer) (type : Text) (error : ℕ) : Work α :=
  if a.isSent then w.say [.error type error] else w

def mCloseMain (a : Answer) : Work α :=
  if w.link.hasMain then (w.say a.closing).setMain false else w

def mSendOpenedIfNeed (a : Answer) : Work α :=
  if !w.link.isAccepted && w.link.hasMain && a.isOpen && a.isSent then
    ⟨{ w.link with isAccepted := true }, w.out ++ [.accepted w.link.kernel.id]⟩
  else w

/-- `MHandleServiceDG` of the main channel. -/
def mHandleServiceDG (a : Answer) : Work α := w.say a.handling

def fail (a : Answer) : Work α := (w.mCloseMain a).changeState .error

/-- `MCreateMainChannel` of the server. -/
def mCreateMainChannel (a : Answer) : Work α × Bool :=
  if a.isFactory then
    if a.isOpened then ((w.say a.opening).setMain true, true) else (w.say a.opening, false)
  else (w, false)

/-- `MOpenMainChannel` of the client. -/
def mOpenMainChannel (a : Answer) : Work α × ℕ :=
  if a.isFactory then
    if a.isOpened then ((w.say a.opening).setMain true, eOk) else (w.say a.opening, eNotOpened)
  else (w, eNoChannel)

def serverMain (a : Answer) : MainMessage → Work α
  | .param type =>
    if w.link.hasMain then
      let w := w.mHandleServiceDG a
      let w := if a.isHandled then w else (w.changeState .error).mCloseMain a
      w.mSendOpenedIfNeed a
    else (w.changeState .error).mSendMainChannelError a type eNoChannel
  | .request type =>
    if w.link.hasMain then
      let w := w.mHandleServiceDG a
      let w := if a.isHandled then w
        else ((w.changeState .error).mCloseMain a).mSendMainChannelError a type eUnknown
      w.mSendOpenedIfNeed a
    else w.mSendMainChannelError a type eNoChannel
  | .close type =>
    if w.link.hasMain then (w.mHandleServiceDG a).mCloseMain a
    else w.mSendMainChannelError a type eNoChannel
  | .error type error =>
    let isError := 0 < error ∨ w.link.hasMain ∧ !a.isHandled
    let w := if w.link.hasMain then (w.mHandleServiceDG a).mSendOpenedIfNeed a
      else w.mSendMainChannelError a type eNoChannel
    if isError then w.fail a else w

def clientMain (a : Answer) : MainMessage → Work α
  | .param type =>
    let w := if w.link.hasMain then w
      else
        let (w, error) := w.mOpenMainChannel a
        let w := if error = eOk then w else w.mSendMainChannelError a type error
        w.mSendOpenedIfNeed a
    if w.link.hasMain then
      let w := w.mHandleServiceDG a
      if a.isHandled then w else w.fail a
    else w
  | .request type =>
    if w.link.hasMain then
      if a.isOpenBefore then
        let w := (w.mHandleServiceDG a).mSendOpenedIfNeed a
        if a.isHandled then w else w.fail a
      else (w.mSendOpenedIfNeed a).fail a
    else (w.mSendMainChannelError a type eNoChannel).fail a
  | .close _ => if w.link.hasMain then (w.mHandleServiceDG a).mCloseMain a else w
  | .error type error =>
    if w.link.hasMain then
      let w := (w.mHandleServiceDG a).mSendOpenedIfNeed a
      if error = eOk ∧ a.isHandled then w else w.fail a
    else (w.mSendMainChannelError a type eNoChannel).fail a

end Work

/-- How far a side is: its handler waits for the other side, or there is a link. -/
inductive Stage where
  | new
  | handler
  | linked (l : Link)
  deriving DecidableEq

/-- What `FBuf` of a parser holds: nothing, a part of the next datagram, or bytes that are not the
beginning of one. -/
inductive Held where
  | nothing
  | part
  | astray
  deriving DecidableEq

namespace Held

/-- `FBuf` after bytes that reach the end of a datagram or not, and end inside of one or not. -/
def after (h : Held) (isWhole isPart : Bool) : Held :=
  match h, isPart with
  | .nothing, true => .part
  -- `erase` of what was parsed keeps the size of `FBuf`: foreign bytes follow the part
  | .part, true => if isWhole then .astray else .part
  | .nothing, false | .part, false => .nothing
  | .astray, _ => .astray

/-- A link has a parser of its own: what the one of the handler holds goes with it. -/
def handedOn : Held → Held
  | .nothing => .nothing
  | .part | .astray => .astray

end Held

/-- One side, with the datagrams that are on their way to the other one. -/
structure Side (α : Type) where
  me : Uuid
  stage : Stage
  isClosed : Bool
  held : Held
  out : List (Message α)
  /-- The calls of `CDescriptors::MOpen`. -/
  opened : List Program
  /-- What `CKernelIo` got, and what it sent. -/
  taken : List (Payload α)
  sent : List (Payload α)

namespace Side

variable (s : Side α)

def start (me : Uuid) : Side α := ⟨me, .new, false, .nothing, [], [], [], []⟩

/-- `get_my_id`. -/
def program : Program := ⟨s.me, .kernel⟩

def close : Side α := { s with isClosed := true }

def send (m : Message α) : Side α := { s with out := s.out ++ [m] }

def worked (w : Work α) : Side α := { s with stage := .linked w.link, out := w.out }

/-- `MReceivedData` of a link with what is passed on. -/
def mReceivedData (l : Link) (p : Payload α) : Except Failure (Side α) :=
  match l.state with
  | .error => .ok s
  | .open_ =>
    match p with
    | .kernelInfos _ =>
      if l.isAccepted then .ok { s with taken := s.taken ++ [p] } else .error .isNotAccepted
    | .demandsFor _ | .failSend _ => .ok { s with taken := s.taken ++ [p] }

/-- `MProcess` of `accept_info_t`. -/
def mAccepted (l : Link) (id : Uuid) : Except Failure (Side α) :=
  if id = s.me then .ok { s with opened := s.opened ++ [l.kernel] } else .error .isNotMe

/-- `MProcess` of the server. -/
def serverProcess (l : Link) (a : Answer) : Message α → Except Failure (Side α)
  | .protocol _ | .requestInfo _ => .ok s
  | .dgInfo program => if l.kernel = program then .ok s else .error .isOtherKernel
  | .main m => .ok (s.worked ((⟨l, s.out⟩ : Work α).serverMain a m))
  | .accepted id => s.mAccepted l id
  | .payload p => s.mReceivedData l p

/-- `MProcess` of the client. -/
def clientProcess (l : Link) (a : Answer) : Message α → Except Failure (Side α)
  | .protocol _ | .requestInfo _ => .ok s
  | .dgInfo _ => .error .isUnexpected
  | .main m => .ok (s.worked ((⟨l, s.out⟩ : Work α).clientMain a m))
  | .accepted id => s.mAccepted l id
  | .payload p => s.mReceivedData l p

def process (f : Side α → Link → Answer → Message α → Except Failure (Side α)) :
    List (Message α × Answer) → Side α → Except Failure (Side α)
  | [], s => .ok s
  | (m, a) :: rest, s =>
    match s.stage with
    | .linked l => do
      let s ← f s l a m
      process f rest s
    | .new | .handler => .ok s

def closeIfError : Side α :=
  match s.stage with
  | .linked l => if l.state = .error then s.close else s
  | .new | .handler => s

def toldBy (f : Message α → Option Program) (l : List (Message α)) : Option Program :=
  ((l.filterMap f).filter fun p => p.type = .kernel).getLast?

def ofDgInfo : Message α → Option Program
  | .dgInfo program => some program
  | _ => none

def ofRequestInfo : Message α → Option Program
  | .requestInfo program => some program
  | _ => none

def isProtocol : Message α → Bool
  | .protocol _ => true
  | _ => false

/-- A datagram that makes `CNewConnection` choose the handler of the server. -/
def choosesServer : Message α → Bool
  | .protocol type => type = .kernel
  | _ => false

def serverHandle (a : Answer) (l : List (Message α)) : Side α :=
  match toldBy ofDgInfo l with
  | some kernel =>
    let (w, is) := (⟨⟨kernel, .open_, false, false⟩, s.out⟩ : Work α).mCreateMainChannel a
    if is then s.worked w else (s.worked (w.changeState .error)).close
  | none =>
    let s := { s with stage := .handler }
    if a.isSent then s.send (.requestInfo s.program) else s

def clientHandle (a : Answer) (l : List (Message α)) : Except Failure (Side α) :=
  if l.any isProtocol then .error .isUnexpected
  else match toldBy ofRequestInfo l with
    | none => .error .noKernelInfo
    | some kernel =>
      if a.isSent then
        .ok { s.send (.dgInfo s.program) with stage := .linked ⟨kernel, .open_, false, false⟩ }
      else .ok s.close

def serverReceive (a : Answer) (l : List (Message α × Answer)) : Except Failure (Side α) :=
  if s.isClosed then .ok s
  else match s.stage with
    | .new =>
      if (l.map Prod.fst).any choosesServer then .ok (s.serverHandle a (l.map Prod.fst))
      else .ok s.close
    | .handler => .ok (s.serverHandle a (l.map Prod.fst))
    | .linked link =>
      if link.state = .open_ then (s.process serverProcess l).map closeIfError else .ok s

/-- Of the next datagram there may come a part, with its whole head or not. -/
def clientReceive (a : Answer) (l : List (Message α × Answer)) (part : Option Bool) :
    Except Failure (Side α) :=
  if s.isClosed then .ok s
  else match s.stage with
    | .new => .ok s
    | .handler =>
      -- `sMIsValidProtocol` wants a head
      if l = [] ∧ part ≠ some true then .ok s.close else s.clientHandle a (l.map Prod.fst)
    | .linked link =>
      if link.state = .open_ then (s.process clientProcess l).map closeIfError else .ok s

def isLinked : Bool :=
  match s.stage with
  | .linked _ => true
  | .new | .handler => false

/-- The side `s'` that `s` has become, with what the parser holds then. -/
def holding (s' : Side α) (isWhole isPart : Bool) : Side α :=
  if s.isClosed then s'
  else
    let held := s.held.after isWhole isPart
    { s' with held := if s'.isLinked && !s.isLinked then held.handedOn else held }

/-- `MConnect` of the client. -/
def mConnect (isSent : Bool) : Side α :=
  match s.stage with
  | .new =>
    if isSent then { s with stage := .handler }.send (.protocol .kernel) else s.close
  | .handler | .linked _ => s

/-- `MSend` of a link with what `CKernelIo` sends. -/
def mSend (isSent : Bool) (p : Payload α) : Side α :=
  match s.stage with
  | .linked _ =>
    if isSent && !s.isClosed then { s.send (.payload p) with sent := s.sent ++ [p] } else s
  | .new | .handler => s

end Side

structure Connection (α : Type) where
  client : Side α
  server : Side α

inductive Who where
  | client
  | server
  deriving DecidableEq

def Who.other : Who → Who
  | .client => .server
  | .server => .client

namespace Connection

def start (client server : Uuid) : Connection α := ⟨.start client, .start server⟩

def side (c : Connection α) : Who → Side α
  | .client => c.client
  | .server => c.server

/-- What is on its way to a side. -/
def coming (c : Connection α) (who : Who) : List (Message α) := (c.side who.other).out

def setSide (c : Connection α) : Who → Side α → Connection α
  | .client, s => { c with client := s }
  | .server, s => { c with server := s }

end Connection

/-- What comes at once of the datagrams that are on their way: the first ones, each with what is
answered while it is handled, and a part of the next one, with its whole head or not. What a parser
finds that holds other bytes is `found`. -/
structure Received (α : Type) where
  answers : List Answer
  part : Option Bool
  found : List (Message α × Answer)

namespace Received

variable (r : Received α) (q : List (Message α))

def whole : List (Message α × Answer) := q.zip r.answers

def more : List (Message α) := q.drop (r.whole q).length

def partOf : Option Bool := if r.more q = [] then none else r.part

def parsed (h : Held) : List (Message α × Answer) :=
  if h = .astray then r.found else r.whole q

end Received

inductive Step (α : Type) where
  | connect (isSent : Bool)
  /-- A side receives, with what the handler is answered. -/
  | receive (who : Who) (a : Answer) (r : Received α)
  | send (who : Who) (isSent : Bool) (p : Payload α)
  | close (who : Who)

def step : Step α → Connection α → Except Failure (Connection α)
  | .connect isSent, c => .ok { c with client := c.client.mConnect isSent }
  | .receive .client a r, c => do
    let q := c.coming .client
    let part := r.partOf q
    if r.whole q = [] ∧ part = none then return c
    else
      let s ← c.client.clientReceive a (r.parsed q c.client.held) part
      return ⟨c.client.holding s (r.whole q ≠ []) part.isSome, { c.server with out := r.more q }⟩
  | .receive .server a r, c => do
    let q := c.coming .server
    let part := r.partOf q
    if r.whole q = [] ∧ part = none then return c
    else
      let s ← c.server.serverReceive a (r.parsed q c.server.held)
      return ⟨{ c.client with out := r.more q }, c.server.holding s (r.whole q ≠ []) part.isSome⟩
  | .send who isSent p, c => .ok (c.setSide who ((c.side who).mSend isSent p))
  | .close who, c => .ok (c.setSide who (c.side who).close)

/-- `CKernelIo` sends over a descriptor that is open. The handler of the client does not get a part
of a datagram with the whole head and no more, and what begins inside of a datagram and reaches its
end does not end inside of another one. -/
def Usual (c : Connection α) : Step α → Prop
  | .send who _ _ => (c.side who).opened ≠ []
  | .receive who _ r => (c.side who).isClosed = false →
      (who = .client → c.client.stage = .handler → r.whole (c.coming who) = [] →
        r.partOf (c.coming who) ≠ some true) ∧
      ((c.side who).held = .part → r.whole (c.coming who) ≠ [] → r.partOf (c.coming who) = none)
  | .connect _ | .close _ => True

instance (c : Connection α) : (op : Step α) → Decidable (Usual c op)
  | .send who _ _ => inferInstanceAs (Decidable ((c.side who).opened ≠ []))
  | .receive who _ r => inferInstanceAs (Decidable ((c.side who).isClosed = false →
      (who = .client → c.client.stage = .handler → r.whole (c.coming who) = [] →
        r.partOf (c.coming who) ≠ some true) ∧
      ((c.side who).held = .part → r.whole (c.coming who) ≠ [] →
        r.partOf (c.coming who) = none)))
  | .connect _ | .close _ => isTrue trivial

end UdtKernel.Links
