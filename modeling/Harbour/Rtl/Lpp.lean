import Harbour.Library.Bytes
import Harbour.Library.Loops

/-!
The length-prefixed protocol: what `hb_lppSend` and `hb_lppRecv` do between two operations on the
socket, and a connection of two sides over a reliable stream of bytes.
-/

namespace Harbour.Rtl.Lpp

open Library.Bytes Library.Transitions

structure Platform where
  bigEndian : Bool
  longMax : Nat
  longMax_ge : 2 ^ 31 - 1 ≤ longMax

def Platform.lp64 : Platform := ⟨false, 2 ^ 63 - 1, by decide⟩

structure HbLpp where
  pSendBuffer : Option Bytes
  nSendLen : Nat
  nSendPos : Nat
  /-- The bytes of the block that have been written. -/
  pRecvBuffer : Option Bytes
  nRecvLen : Nat
  nRecvSize : Nat
  nLimit : Nat
  fRecvHasSize : Bool
  iError : Nat
  deriving DecidableEq, Repr

/-- What `hb_lppRecv` returns: the data or `HB_FALSE`, with the error that it leaves. -/
structure Result where
  data : Option Bytes
  iError : Nat
  deriving DecidableEq, Repr

def errTimeout : Nat := 2

def errTooLarge : Nat := 1001

def putLeUint32 (n : Nat) : Bytes := leBytes 4 n

def Platform.getUint32 (platform : Platform) (p : Bytes) : Nat :=
  leValue (if platform.bigEndian then p.reverse else p)

def frame (data : Bytes) : Bytes := putLeUint32 data.length ++ data

namespace HbLpp

def create : HbLpp := ⟨none, 0, 0, none, 0, 0, 1024, false, 0⟩

variable (platform : Platform) (pSocket : HbLpp)

def setLimit (nLimit : Nat) : HbLpp := { pSocket with nLimit := nLimit }

def sendStart (data : Bytes) : HbLpp :=
  match pSocket.pSendBuffer with
  | none =>
    { pSocket with
      pSendBuffer := some (frame data)
      nSendLen := data.length + 4
      nSendPos := 0 }
  | some _ => pSocket

/-- How many bytes `hb_socketSend` is asked to take. -/
def sendAsk : Nat :=
  if pSocket.nSendLen - pSocket.nSendPos < platform.longMax then pSocket.nSendLen - pSocket.nSendPos
  else platform.longMax

def unsent : Bytes := (pSocket.pSendBuffer.getD []).drop pSocket.nSendPos

/-- `hb_lppSend` after `hb_socketSend` has taken `lSend` bytes, with what it returns if it does. -/
def sendAfter (lSend : Nat) (expired : Bool) : HbLpp × Option Bool :=
  let pSocket := { pSocket with nSendPos := pSocket.nSendPos + lSend }
  if pSocket.nSendPos = pSocket.nSendLen then
    ({ pSocket with pSendBuffer := none, iError := 0 }, some true)
  else if expired then ({ pSocket with iError := errTimeout }, some false)
  else (pSocket, none)

def recvStart : HbLpp :=
  match pSocket.pRecvBuffer with
  | none => { pSocket with pRecvBuffer := some [], nRecvLen := 0, fRecvHasSize := false }
  | some _ => pSocket

def recvAsk : Nat :=
  if pSocket.fRecvHasSize = false then 4 - pSocket.nRecvLen
  else if pSocket.nRecvSize - pSocket.nRecvLen < platform.longMax then
    pSocket.nRecvSize - pSocket.nRecvLen
  else platform.longMax

def store (bytes : Bytes) : HbLpp :=
  { pSocket with
    pRecvBuffer := pSocket.pRecvBuffer.map fun buffer => buffer.take pSocket.nRecvLen ++ bytes
    nRecvLen := pSocket.nRecvLen + bytes.length }

def resize : HbLpp :=
  if pSocket.nRecvSize = 4 then pSocket
  else if pSocket.nRecvSize = 0 then { pSocket with pRecvBuffer := none }
  else { pSocket with pRecvBuffer := pSocket.pRecvBuffer.map (List.take pSocket.nRecvSize) }

def fail (iError : Nat) : HbLpp × Option Result :=
  ({ pSocket with iError := iError }, some ⟨none, iError⟩)

def recvSized : HbLpp × Option Result :=
  let pSocket := { pSocket with nRecvSize := platform.getUint32 (pSocket.pRecvBuffer.getD []) }
  if pSocket.nLimit ≠ 0 ∧ pSocket.nRecvSize > pSocket.nLimit then
    { pSocket with pRecvBuffer := none }.fail errTooLarge
  else (resize { pSocket with nRecvLen := 0, fRecvHasSize := true }, none)

/-- `hb_lppRecv` after `hb_socketRecv` has returned bytes of the size. -/
def recvSize (bytes : Bytes) : HbLpp × Option Result :=
  if bytes = [] then pSocket.fail 0
  else if (pSocket.store bytes).nRecvLen < 4 then (pSocket.store bytes).fail errTimeout
  else (pSocket.store bytes).recvSized platform

/-- `hb_lppRecv` after `hb_socketRecv` has returned bytes of the message. -/
def recvData (bytes : Bytes) (expired : Bool) : HbLpp × Option Result :=
  if bytes = [] then pSocket.fail 0
  else
    let pSocket := pSocket.store bytes
    if pSocket.nRecvSize = pSocket.nRecvLen then
      ({ pSocket with pRecvBuffer := none, iError := 0 }, some ⟨pSocket.pRecvBuffer, 0⟩)
    else if expired then pSocket.fail errTimeout
    else (pSocket, none)

def recvAfter (bytes : Bytes) (expired : Bool) : HbLpp × Option Result :=
  if pSocket.fRecvHasSize then pSocket.recvData bytes expired else pSocket.recvSize platform bytes

end HbLpp

structure Connection where
  sender : HbLpp
  receiver : HbLpp
  sending : Bool
  receiving : Bool
  /-- The messages given to `hb_lppSend`. -/
  sent : List Bytes
  inFlight : Bytes
  /-- The bytes that wait to be received. -/
  arrived : Bytes
  /-- How many bytes have arrived since the connection was made. -/
  nArrived : Nat
  /-- What the calls of `hb_lppRecv` have returned. -/
  results : List Result
  deriving DecidableEq, Repr

inductive Event where
  | callSend (data : Bytes)
  | socketSend (lSend : Nat) (expired : Bool)
  | sendTimeout
  | transfer (n : Nat)
  | callRecv
  | socketRecv (expired : Bool)
  | recvTimeout

namespace Connection

def create (nLimit : Nat) : Connection :=
  ⟨.create, HbLpp.create.setLimit nLimit, false, false, [], [], [], 0, []⟩

def received (s : Connection) : List Bytes := s.results.filterMap Result.data

variable (sender receiver : Platform) (s : Connection)

/-- A message is given to `hb_lppSend`, or the same one again when it has not been sent. -/
def callSend (data : Bytes) : Option Connection :=
  if s.sending then none
  else if s.sender.pSendBuffer = none then
    some { s with sender := s.sender.sendStart data, sending := true, sent := s.sent ++ [data] }
  else if s.sent.getLast? = some data then
    some { s with sender := s.sender.sendStart data, sending := true }
  else none

def socketSend (lSend : Nat) (expired : Bool) : Option Connection :=
  if s.sending ∧ 0 < lSend ∧ lSend ≤ s.sender.sendAsk sender then
    let after := s.sender.sendAfter lSend expired
    some { s with
      sender := after.1
      sending := after.2.isNone
      inFlight := s.inFlight ++ s.sender.unsent.take lSend }
  else none

def sendTimeout : Option Connection :=
  if s.sending then
    some { s with sender := { s.sender with iError := errTimeout }, sending := false }
  else none

def transfer (n : Nat) : Option Connection :=
  if n ≤ s.inFlight.length then
    some { s with
      inFlight := s.inFlight.drop n
      arrived := s.arrived ++ s.inFlight.take n
      nArrived := s.nArrived + n }
  else none

def callRecv : Option Connection :=
  if s.receiving then none else some { s with receiver := s.receiver.recvStart, receiving := true }

def recvEnd (after : HbLpp × Option Result) : Connection :=
  { s with
    receiver := after.1
    receiving := after.2.isNone
    results := s.results ++ after.2.toList }

/-- `hb_socketRecv` returns what has arrived, up to the bytes it is asked for. It waits until
something has. -/
def socketRecv (expired : Bool) : Option Connection :=
  let ask := s.receiver.recvAsk receiver
  if s.receiving ∧ (s.arrived ≠ [] ∨ ask = 0) then
    some ({ s with arrived := s.arrived.drop ask }.recvEnd
      (s.receiver.recvAfter receiver (s.arrived.take ask) expired))
  else none

def recvTimeout : Option Connection :=
  if s.receiving ∧ s.arrived = [] then some (s.recvEnd (s.receiver.fail errTimeout)) else none

def next : Event → Option Connection
  | .callSend data => s.callSend data
  | .socketSend lSend expired => s.socketSend sender lSend expired
  | .sendTimeout => s.sendTimeout
  | .transfer n => s.transfer n
  | .callRecv => s.callRecv
  | .socketRecv expired => s.socketRecv receiver expired
  | .recvTimeout => s.recvTimeout

def run : Connection → List Event → Option Connection
  | s, [] => some s
  | s, event :: events => (s.next sender receiver event).bind fun s => run s events

end Connection

/-- The connections on which messages are sent that `Allowed` admits. -/
def connections (sender receiver : Platform) (nLimit : Nat) (Allowed : Bytes → Prop) :
    System Connection where
  init s := s = .create nLimit
  step s s' := ∃ event, (∀ data, event = .callSend data → Allowed data) ∧
    s.next sender receiver event = some s'

end Harbour.Rtl.Lpp
