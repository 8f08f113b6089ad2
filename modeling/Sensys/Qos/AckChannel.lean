import Sensys.Lib.Run
import Sensys.Qos.MsgRooms
/-!
# The ack channel (`orte/mca/qos/ack/qos_ack_component.c`)

One `orte_qos_ack_channel_t` serves the sending or the receiving side of a channel.

| here | there |
| --- | --- |
| `AckChannel`, `channelCons` | `orte_qos_ack_channel_t` (`qos_ack.h:49-77`), `channel_cons` (`:689-702`) with the window set by `ack_create` |
| `sendAck` | `:251-311` |
| `completeLoop` | the loop that completes the messages in the hotel (`:366-393`) |
| `processOutOfOrderMsg`, `ackRecv` | `:313-443` |
| `processMsg` | `orte_rml_base_process_msg` (`rml_base_msg_handlers.c:226-254`) |
| `windowTimeoutCallback` | `:673-683` |
| `recvMsgTimeoutCallback` | the eviction of a held message and `orte_qos_ack_recv_msg_timeout_callback` (`:531-556`) |
| `ackSend`, `processAck` | `:210-249`, `:558-658` |
| `msgAckTimeoutCallback` | the eviction of an unacknowledged message and `orte_qos_ack_msg_ack_timeout_callback` (`:511-529`) |

`none` is undefined behaviour, with nothing said about what follows: a checkout reads a stray
pointer at `rooms[-1]` (`stray`); the message an earlier turn left in `occupant`, already released
or back in the hotel, is taken for the one of this turn; `process_ack` unpacks more numbers than
its array of `window` holds.

Sequence numbers are natural numbers; the wrap of the `uint32_t` counters, and of the `int32_t`
ones of `process_out_of_order_msg`, is left out. `assert` is compiled out. Left out as well:
channel numbers, attributes, the channel's `state` (written, never read) and the length of the
timeouts.
-/
namespace Sensys.Qos
open Run

variable {β : Type}

structure AckChannel (β : Type) extends MsgRooms β where
  window            : Nat
  /-- Of the first message in the active window (sender). -/
  windowFirstSeqNum : Nat
  /-- Of the last outgoing message (sender). -/
  outMsgSeqNum      : Nat
  /-- Of the last incoming message (receiver). -/
  inMsgSeqNum       : Nat
  /-- Of the last message acked (receiver). -/
  ackMsgSeqNum      : Nat
  /-- `msg_ack_timer_event` is pending (receiver). -/
  timerPending      : Bool

def channelCons (β : Type) (window : Nat) : AckChannel β where
  toMsgRooms := .empty β
  window := window
  windowFirstSeqNum := 1
  outMsgSeqNum := 0
  inMsgSeqNum := 0
  ackMsgSeqNum := 0
  timerPending := false

inductive AckType where
  | windowComplete | timeout | outOfOrder | recvMissedMsg
deriving DecidableEq, Repr

structure Ack where
  type    : AckType
  seqNums : List Nat
deriving DecidableEq, Repr

/-! ## The receiver -/

inductive RecvRc where
  | success | errDuplicateMsg | errOutOfOrderMsg
  /-- What `send_ack` returned. -/
  | errSendAck
deriving DecidableEq, Repr

/-- What a call on the receiving side leaves behind: the channel, its return code, the ack handed
to the RML and the messages completed to it. -/
structure Received (β : Type) where
  chan      : AckChannel β
  rc        : RecvRc
  ack       : Option Ack
  completed : List (Msg β)

/-- `ack_seq_num_array`: the numbers after the last acked one, the last of them overwritten. -/
def ackSeqNumArray (ch : AckChannel β) (lastMsgSeqNum : Nat) : List Nat :=
  let numMsgsToAck := ch.inMsgSeqNum - ch.ackMsgSeqNum + 1
  (List.range' (ch.ackMsgSeqNum + 1) numMsgsToAck).set (numMsgsToAck - 1) lastMsgSeqNum

/-- `accepts`: the array could be allocated and `send_buffer_nb` returned success. -/
def sendAck (ch : AckChannel β) (ackType : AckType) (lastMsgSeqNum : Nat) (accepts : Bool) :
    AckChannel β × Option Ack :=
  if accepts then
    ({ ch with ackMsgSeqNum := lastMsgSeqNum }, some ⟨ackType, ackSeqNumArray ch lastMsgSeqNum⟩)
  else (ch, none)

/-- `for (i = 0; room_num != -1; i++)` from the number `k`; `fuel` bounds the turns, and
`completeLoop_fuel` says that 201 are enough. `stale`: an earlier turn left a message in
`occupant`, which it completed. -/
def completeLoop (stray : Bool) :
    Nat → Nat → AckChannel β → Bool → Option (AckChannel β × List (Msg β))
  | 0, _, ch, _ => some (ch, [])
  | fuel + 1, k, ch, stale =>
    match ch.clearMsg k stray with
    | none => none
    | some (rooms, out) =>
      match ch.getMsgRoom k, out with
      | none, _ => some ({ ch with toMsgRooms := rooms }, [])
      | some _, some m =>
        (completeLoop stray fuel (k + 1) { ch with toMsgRooms := rooms, inMsgSeqNum := m.seqNum } true).map
          fun (ch', completed) => (ch', m :: completed)
      | some _, none =>
        if stale then none
        else completeLoop stray fuel (k + 1) { ch with toMsgRooms := rooms } false

/-- The message is checked in (`:332-336`). The last argument of `checkinMsg` stands for the
uninitialised `room_num`; by `MsgRooms.Fits.exists_free_room` there is a room whenever the entry
is free. -/
def AckChannel.hold (ch : AckChannel β) (msg : Msg β) : AckChannel β :=
  { ch with toMsgRooms := ch.checkinMsg msg.seqNum msg none }

def processOutOfOrderMsg (ch : AckChannel β) (msg : Msg β) (accepts stray : Bool) :
    Option (Received β) :=
  if ch.getMsgRoom msg.seqNum ≠ none then some ⟨ch, .errDuplicateMsg, none, []⟩
  else
    let ch := ch.hold msg
    if ch.ackMsgSeqNum ≤ ch.inMsgSeqNum then
      let (ch, ack) := sendAck ch .outOfOrder msg.seqNum accepts
      some ⟨{ ch with timerPending := false }, .errOutOfOrderMsg, ack, []⟩
    else if ch.ackMsgSeqNum > msg.seqNum then
      let firstLostMsgSeqNum := ch.inMsgSeqNum + 1
      let numLostMsgs := ch.ackMsgSeqNum - ch.inMsgSeqNum
      if ∀ i < numLostMsgs, ch.getMsgRoom (firstLostMsgSeqNum + i) ≠ none then
        let ch := { ch with ackMsgSeqNum := firstLostMsgSeqNum - 1 }
        (completeLoop stray (maxOutstandingMsgs + 1) firstLostMsgSeqNum ch false).map
          fun (ch, completed) =>
          let (ch, ack) := sendAck ch .recvMissedMsg ch.inMsgSeqNum accepts
          ⟨ch, .errOutOfOrderMsg, ack, completed⟩
      else some ⟨ch, .errOutOfOrderMsg, none, []⟩
    else some ⟨ch, .errOutOfOrderMsg, none, []⟩

/-- "Check if this is the next expected msg" (`:421`). -/
def Expected (ch : AckChannel β) (msg : Msg β) : Prop :=
  ch.inMsgSeqNum + 1 = msg.seqNum ∧ ch.ackMsgSeqNum < msg.seqNum
deriving Decidable

def ackRecv (ch : AckChannel β) (msg : Msg β) (accepts stray : Bool) : Option (Received β) :=
  if Expected ch msg then
    if ch.window = msg.seqNum - ch.ackMsgSeqNum then
      let (ch, ack) := sendAck { ch with timerPending := false } .windowComplete msg.seqNum accepts
      some ⟨{ ch with inMsgSeqNum := msg.seqNum },
        if ack.isSome then .success else .errSendAck, ack, []⟩
    else
      some ⟨{ ch with
          timerPending := ch.timerPending || ch.inMsgSeqNum == ch.ackMsgSeqNum
          inMsgSeqNum := msg.seqNum }, .success, none, []⟩
  else processOutOfOrderMsg ch msg accepts stray

/-- The RML completes the message itself when `ack_recv` returned success. -/
def processMsg (ch : AckChannel β) (msg : Msg β) (accepts stray : Bool) : Option (Received β) :=
  (ackRecv ch msg accepts stray).map fun r =>
    if r.rc = .success then { r with completed := r.completed ++ [msg] } else r

/-- The timer fires once and is then no longer pending. -/
def windowTimeoutCallback (ch : AckChannel β) (accepts : Bool) : AckChannel β × Option Ack :=
  sendAck { ch with timerPending := false } .timeout ch.inMsgSeqNum accepts

/-- The room is emptied; the callback itself only asserts, and the table keeps its entry. -/
def recvMsgTimeoutCallback (ch : AckChannel β) (room : Room) : AckChannel β :=
  { ch with outstandingMsgs := ch.outstandingMsgs.checkout room }

inductive RecvAct (β : Type) where
  | arrive (msg : Msg β) (accepts stray : Bool)
  | windowTimeout (accepts : Bool)
  | evict (room : Room)
deriving DecidableEq

/-- What happens on the receiving side; `none` also when the timer is not pending or the room is
empty. -/
def receive (ch : AckChannel β) : RecvAct β → Option (Received β)
  | .arrive msg accepts stray => processMsg ch msg accepts stray
  | .windowTimeout accepts =>
    if ch.timerPending then
      let (ch, ack) := windowTimeoutCallback ch accepts
      some ⟨ch, .success, ack, []⟩
    else none
  | .evict room =>
    if (ch.outstandingMsgs.rooms room).isSome then
      some ⟨recvMsgTimeoutCallback ch room, .success, none, []⟩
    else none

def recvStep (ch : AckChannel β) (act : RecvAct β) : Option (AckChannel β) :=
  (receive ch act).map (·.chan)

/-- Nothing undefined is done. -/
def Defined (ch : AckChannel β) : RecvAct β → Prop
  | .arrive msg accepts stray => (processMsg ch msg accepts stray).isSome
  | .windowTimeout _ | .evict _ => True

/-- The messages completed to the RML by one step. -/
def completedBy (ch : AckChannel β) (act : RecvAct β) : List (Msg β) :=
  ((receive ch act).map (·.completed)).getD []

/-! ## The sender -/

/-- The message that goes on the wire, and whether it was checked in. With the hotel full
(`ORTE_ERR_QOS_ACK_WINDOW_FULL`) the number is used up all the same, and `rml_oob_send.c:207-210`
sends the message without looking at the return code. -/
def ackSend (ch : AckChannel β) (body : β) : AckChannel β × Msg β × Bool :=
  let out :=
    if ch.outMsgSeqNum = ch.windowFirstSeqNum - 1 then ch.windowFirstSeqNum else ch.outMsgSeqNum + 1
  let first := if out - ch.windowFirstSeqNum + 1 = ch.window then out + 1 else ch.windowFirstSeqNum
  let ch := { ch with outMsgSeqNum := out, windowFirstSeqNum := first }
  let msg : Msg β := ⟨out, body⟩
  match ch.outstandingMsgs.checkin msg with
  | some (hotel, r) =>
    ({ ch with toMsgRooms := { ch.toMsgRooms with outstandingMsgs := hotel }.setMsgRoom out (some r) }, msg, true)
  | none => (ch, msg, false)

/-- The loop over the numbers of an ack that is not out of order (`:591-611`): the completed
messages. `stale`: an earlier turn left a message in `occupant`, which it released. -/
def completeAcked (stray : Bool) : List Nat → MsgRooms β → Bool → Option (MsgRooms β × List (Msg β))
  | [], t, _ => some (t, [])
  | k :: ks, t, stale =>
    match t.clearMsg k stray with
    | none => none
    | some (t', some m) => (completeAcked stray ks t' true).map fun (t'', completed) =>
      (t'', m :: completed)
    | some (t', none) =>
      if stale ∧ t.getMsgRoom k ≠ none then none else completeAcked stray ks t' stale

/-- The loop over the missed messages (`:632-645`), `n` of them from `missed` on. Without a
message in the room the one before, which is in the hotel, would be checked in a second time. -/
def resendMissed (stray : Bool) : Nat → Nat → MsgRooms β → Option (MsgRooms β × List (Msg β))
  | 0, _, t => some (t, [])
  | n + 1, missed, t =>
    match t.checkoutMsg missed stray with
    | some (t', some m) =>
      (resendMissed stray n (missed + 1) (t'.checkinMsg missed m (t.getMsgRoom missed))).map
        fun (t'', resent) => (t'', m :: resent)
    | _ => none

/-- What `process_ack` leaves behind. -/
structure Acked (β : Type) where
  rooms     : MsgRooms β
  /-- Completed with status `ORTE_SUCCESS`. -/
  completed : List (Msg β)
  /-- Given to `ORTE_OOB_SEND` again. -/
  resent    : List (Msg β)

/-- The loop over the numbers of an out-of-order ack (`:613-654`). `prev` is the number before;
what `occupant` holds from an earlier turn (`stale`) is used whatever the room is. -/
def completeOutOfOrder (stray : Bool) : Option Nat → List Nat → MsgRooms β → Bool → Option (Acked β)
  | _, [], t, _ => some ⟨t, [], []⟩
  | prev, k :: ks, t, stale =>
    match t.clearMsg k stray with
    | none => none
    | some (t', none) => if stale then none else completeOutOfOrder stray (some k) ks t' false
    | some (t', some m) =>
      if prev.all (fun p => k = p + 1) then
        (completeOutOfOrder stray (some k) ks t' true).map fun r =>
          { r with completed := m :: r.completed }
      else
        let first := prev.getD 0 + 1
        match resendMissed stray (k - first) first (t'.checkinMsg k m (t.getMsgRoom k)) with
        | none => none
        | some (t'', resent) =>
          (completeOutOfOrder stray (some k) ks t'' true).map fun r =>
            { r with resent := resent ++ r.resent }

/-- `seq_num_array` has room for `window` numbers; how many the ack lists is not looked at. -/
def processAck (ch : AckChannel β) (ack : Ack) (stray : Bool) : Option (Acked β) :=
  if ch.window < ack.seqNums.length then none
  else if ack.type ≠ .outOfOrder then
    (completeAcked stray ack.seqNums ch.toMsgRooms false).map fun (t, completed) =>
      ⟨t, completed, []⟩
  else completeOutOfOrder stray none ack.seqNums ch.toMsgRooms false

/-- The message that timed out is completed with status `ORTE_ERR_ACK_TIMEOUT_SENDER`. -/
def msgAckTimeoutCallback (ch : AckChannel β) (room : Room) (msg : Msg β) : AckChannel β :=
  { ch with toMsgRooms :=
      { ch.toMsgRooms with outstandingMsgs := ch.outstandingMsgs.checkout room }.setMsgRoom msg.seqNum none }

end Sensys.Qos
