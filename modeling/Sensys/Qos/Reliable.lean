import Sensys.Qos.Order
import Sensys.Qos.Sender
/-!
# An ack channel between a sender and a receiver

`Link` is both ends of a channel, the data messages on the wire, in any order, and the acks, in
order. Sent messages may be dropped, and a message that is sent again may arrive although the
first copy was only late. `stray` in an action says that the memory before the rooms of the hotel
concerned is not `NULL` (`Opal/Hotel`).

The acks on the wire, read in order, take the sender's acknowledged number to the receiver's
(`AckChain`). When nothing is unacknowledged, `send_ack` lists only the late message, and
`process_ack` takes a first entry for the next one in order (`first_loss_not_resent`).
-/
namespace Sensys.Qos
open Run List

variable {β : Type} {ch : AckChannel β}

structure Link (β : Type) where
  sender    : AckChannel β
  receiver  : AckChannel β
  net       : List (Msg β)
  acks      : List Ack
  /-- History: the messages given to `ack_send`, those the receiver completed to the RML and those
  the sender completed with status `ORTE_SUCCESS`. -/
  sent      : List (Msg β)
  delivered : List (Msg β)
  confirmed : List (Msg β)

namespace Link

def init (β : Type) (w : Nat) : Link β := ⟨channelCons β w, channelCons β w, [], [], [], [], []⟩

inductive Act (β : Type) where
  | send (body : β)
  | deliver (msg : Msg β) (accepts stray : Bool)
  | drop (msg : Msg β)
  | windowTimeout (accepts : Bool)
  | processAck (stray : Bool)
  | evictSent (room : Room)
  | evictHeld (room : Room)
deriving DecidableEq

/-- The receiving side did `r`. -/
def received (link : Link β) (net : List (Msg β)) (r : Received β) : Link β :=
  { link with
    receiver := r.chan
    net := net
    acks := link.acks ++ r.ack.toList
    delivered := link.delivered ++ r.completed }

/-- The sender did `r` with an ack; `rest` is behind it. -/
def answered (link : Link β) (rest : List Ack) (r : Acked β) : Link β :=
  { link with
    sender := { link.sender with toMsgRooms := r.rooms }
    net := link.net ++ r.resent
    acks := rest
    confirmed := link.confirmed ++ r.completed }

/-- `none`: not possible, or undefined. -/
def step [DecidableEq β] (link : Link β) : Act β → Option (Link β)
  | .send body =>
    let (sender, msg, _) := ackSend link.sender body
    some { link with sender := sender, net := link.net ++ [msg], sent := link.sent ++ [msg] }
  | .deliver msg accepts stray =>
    if msg ∈ link.net then
      (receive link.receiver (.arrive msg accepts stray)).map (link.received (link.net.erase msg))
    else none
  | .drop msg => if msg ∈ link.net then some { link with net := link.net.erase msg } else none
  | .windowTimeout accepts =>
    (receive link.receiver (.windowTimeout accepts)).map (link.received link.net)
  | .processAck stray =>
    match link.acks with
    | [] => none
    | a :: rest => (Qos.processAck link.sender a stray).map (link.answered rest)
  | .evictSent room =>
    (link.sender.outstandingMsgs.rooms room).map fun msg =>
      { link with sender := msgAckTimeoutCallback link.sender room msg }
  | .evictHeld room => (receive link.receiver (.evict room)).map (link.received link.net)

/-- Completed by the receiver or held in its hotel. -/
def ReceiverHas (link : Link β) (m : Msg β) : Prop :=
  m ∈ link.delivered ∨ ∃ i, link.receiver.contents i = some m

instance [DecidableEq β] (link : Link β) (m : Msg β) : Decidable (link.ReceiverHas m) :=
  inferInstanceAs (Decidable (_ ∨ ∃ _, _))

/-- Nothing undefined is done: not in the completing loop of the receiver, and not with the ack at
the sender. -/
def Defined (link : Link β) : Act β → Prop
  | .deliver msg accepts stray =>
    msg ∈ link.net → (processMsg link.receiver msg accepts stray).isSome
  | .processAck stray => ∀ a ∈ link.acks.head?, (Qos.processAck link.sender a stray).isSome
  | .send _ | .drop _ | .windowTimeout _ | .evictSent _ | .evictHeld _ => True

/-- The conditions of the run: the sender's hotel is not full when a message is sent; an arriving
message was not completed before, and when it is taken in order no copy is held and the ack that
closes the window is accepted; a message out of order arrives only while some received message is
unacknowledged or a gap is open; when it fills the gap, one of the next `window` messages is
missing still; nothing is evicted, and `rooms[-1]` is `NULL` where it is read. -/
def Calm (link : Link β) : Act β → Prop
  | .send _ => link.sender.outstandingMsgs.unoccupied ≠ []
  | .deliver msg accepts stray =>
    let ch := link.receiver
    ch.inMsgSeqNum < msg.seqNum ∧
      (Expected ch msg → ch.getMsgRoom msg.seqNum = none ∧
        (ch.window = msg.seqNum - ch.ackMsgSeqNum → accepts = true)) ∧
      (¬Expected ch msg → ch.getMsgRoom msg.seqNum = none → ch.ackMsgSeqNum ≠ ch.inMsgSeqNum) ∧
      (FillsGap ch msg →
        stray = false ∧ ∃ k < ch.window, (ch.hold msg).getMsgRoom (ch.inMsgSeqNum + 1 + k) = none)
  | .processAck stray => stray = false
  | .drop _ | .windowTimeout _ => True
  | .evictSent _ | .evictHeld _ => False

instance (link : Link β) : ∀ act, Decidable (Calm link act)
  | .send _ => inferInstanceAs (Decidable (_ ≠ _))
  | .deliver _ _ _ =>
    inferInstanceAs (Decidable (_ ∧ (_ → _ ∧ (_ → _)) ∧ (¬_ → _ → _ ≠ _) ∧ (_ → _ ∧ ∃ _, _ ∧ _)))
  | .processAck _ => inferInstanceAs (Decidable (_ = _))
  | .drop _ | .windowTimeout _ => isTrue trivial
  | .evictSent _ | .evictHeld _ => isFalse id

end Link

/-! ## The acks on the wire -/

/-- Read in order, the acks take the acknowledged number from `p` to `q`. -/
def AckChain (n : Nat) : Nat → List Ack → Nat → Prop
  | p, [], q => p = q
  | p, a :: as, q => ∃ r, Covers n a p r ∧ AckChain n r as q

namespace AckChain

theorem append {n q r : Nat} {as bs : List Ack} :
    ∀ {p : Nat}, AckChain n p as q → AckChain n q bs r →
    AckChain n p (as ++ bs) r := by
  induction as with
  | nil => rintro p rfl hbs; exact hbs
  | cons a as ih =>
    rintro p ⟨s, ha, has⟩ hbs
    exact ⟨s, ha, ih has hbs⟩

theorem mono {n n' q : Nat} {as : List Ack} (hn : n ≤ n') :
    ∀ {p : Nat}, AckChain n p as q → AckChain n' p as q := by
  induction as with
  | nil => exact id
  | cons a as ih =>
    rintro p ⟨s, ha, has⟩
    exact ⟨s, ha.mono hn, ih has⟩

theorem le {n q : Nat} {as : List Ack} : ∀ {p : Nat}, AckChain n p as q → p ≤ q := by
  induction as with
  | nil => rintro p rfl; exact le_rfl
  | cons a as ih =>
    rintro p ⟨s, ha, has⟩
    exact ha.lt.le.trans (ih has)

theorem single {n p q : Nat} {a : Ack} (h : Covers n a p q) : AckChain n p [a] q := ⟨q, h, rfl⟩

end AckChain

/-- The number up to which the receiver has sent acks for everything. While a gap is open,
`ack_msg_seq_num` is a number beyond it. -/
def ackedUpTo (ch : AckChannel β) : Nat := min ch.ackMsgSeqNum ch.inMsgSeqNum

theorem ackSeqNumArray_eq (ch : AckChannel β) (last : Nat) :
    ackSeqNumArray ch last =
      List.range' (ch.ackMsgSeqNum + 1) (ch.inMsgSeqNum - ch.ackMsgSeqNum) ++ [last] := by
  simp only [ackSeqNumArray, Nat.add_sub_cancel, range'_1_concat]
  simp

theorem length_ackSeqNumArray (ch : AckChannel β) (last : Nat) :
    (ackSeqNumArray ch last).length = ch.inMsgSeqNum - ch.ackMsgSeqNum + 1 := by
  rw [ackSeqNumArray_eq, length_append, length_range', length_singleton]

/-- An ack that repeats the last incoming number, or is not accepted. -/
theorem ackChain_sendAck {n : Nat} {type : AckType} (htype : type ≠ .outOfOrder)
    (hlt : ch.ackMsgSeqNum < ch.inMsgSeqNum) (hn : ch.inMsgSeqNum ≤ n) (accepts : Bool) :
    AckChain n ch.ackMsgSeqNum (sendAck ch type ch.inMsgSeqNum accepts).2.toList
      (ackedUpTo (sendAck ch type ch.inMsgSeqNum accepts).1) := by
  cases accepts with
  | false => exact (min_eq_left hlt.le).symm
  | true =>
    have hq : ackedUpTo (sendAck ch type ch.inMsgSeqNum true).1 = ch.inMsgSeqNum := min_self _
    rw [hq]
    show AckChain n _ [⟨type, ackSeqNumArray ch ch.inMsgSeqNum⟩] _
    rw [ackSeqNumArray_eq]
    exact .single (.repeatsLast htype hlt hn)

/-! ## The receiver's part -/

/-- The receiver has completed the numbers up to the last incoming one, and what it completed or
holds was sent. -/
structure Receiving (ch : AckChannel β) (sent delivered : List (Msg β)) : Prop where
  ahead : Ahead ch
  held_sent : ∀ {i m}, ch.contents i = some m → m ∈ sent
  delivered_sent : ∀ m ∈ delivered, m ∈ sent
  delivered_eq : delivered.map Msg.seqNum = List.range' 1 ch.inMsgSeqNum
  timer : ch.timerPending = true → ch.ackMsgSeqNum < ch.inMsgSeqNum
  /-- An ack for what is not acknowledged fits into the sender's array. -/
  unacked : ch.inMsgSeqNum < ch.ackMsgSeqNum + ch.window

section
variable {ch : AckChannel β} {msg : Msg β} {accepts stray : Bool} {r : Received β}
  {sent delivered : List (Msg β)}

theorem Receiving.in_le (h : Receiving ch sent delivered) (hnum : Numbered sent) : ch.inMsgSeqNum ≤ sent.length := by
  rcases Nat.eq_zero_or_pos ch.inMsgSeqNum with hz | hpos
  · omega
  · have hmem : ch.inMsgSeqNum ∈ delivered.map Msg.seqNum := by
      rw [h.delivered_eq, mem_range'_1]
      omega
    obtain ⟨m, hm, hseq⟩ := mem_map.1 hmem
    have := (hnum.bounds (h.delivered_sent m hm)).2
    omega

/-- A sent message up to the last incoming number was completed. -/
theorem Receiving.mem_delivered (h : Receiving ch sent delivered) (hnum : Numbered sent) {m : Msg β}
    (hm : m ∈ sent) (hle : m.seqNum ≤ ch.inMsgSeqNum) : m ∈ delivered := by
  have hmem : m.seqNum ∈ delivered.map Msg.seqNum := by
    rw [h.delivered_eq, mem_range'_1]
    have := (hnum.bounds hm).1
    omega
  obtain ⟨m', hm', hseq⟩ := mem_map.1 hmem
  rwa [← hnum.eq_of_seqNum (h.delivered_sent m' hm') hm hseq]

/-- What is completed or held after an arrival was held before, or is the message that arrived. -/
theorem Ahead.origin (h : Ahead ch) (hreg : Regular ch (.arrive msg accepts stray))
    (harr : Arrival ch msg accepts stray r) :
    (∀ m ∈ r.completed, m = msg ∨ ∃ i, ch.contents i = some m) ∧
      ∀ {i m}, r.chan.contents i = some m → m = msg ∨ ∃ i, ch.contents i = some m := by
  obtain ⟨hlo, hhi, -, hgap⟩ := hreg
  have hh : ch.getMsgRoom msg.seqNum = none → ∀ {i m}, (ch.hold msg).contents i = some m →
      m = msg ∨ ∃ i, ch.contents i = some m := by
    intro hroom i m hi
    rcases h.held_hold hroom hi with ⟨-, hm⟩ | hi
    · exact Or.inl hm
    · exact Or.inr ⟨i, hi⟩
  cases harr with
  | closesWindow hnext hw hacc | windowAckFails hnext hw hacc | next hnext hw | duplicate hnext hroom =>
    exact ⟨by simp, fun hi => Or.inr ⟨_, hi⟩⟩
  | opensGap hnext hroom hack =>
    refine ⟨by simp, fun hi => ?_⟩
    rw [sendAck_rooms] at hi
    exact hh hroom hi
  | held hnext hroom hack => exact ⟨by simp, fun hi => hh hroom hi⟩
  | fillsGap hfill hloop =>
    have hdr := h.drained_hold hfill.2.1 hlo hhi (hgap hfill ▸ hloop)
    refine ⟨fun m hm => ?_, fun hi => ?_⟩
    · obtain ⟨i, hi⟩ := hdr.completed_held m hm
      exact hh hfill.2.1 hi
    · rw [sendAck_rooms] at hi
      exact hh hfill.2.1 (hdr.left_held hi)

section
variable (h : Receiving ch sent delivered) (hreg : Regular ch (.arrive msg accepts stray))
include h hreg

/-- The timer runs only while something is unacknowledged and no gap is open. -/
theorem Receiving.timer_arrive (harr : Arrival ch msg accepts stray r)
    (ht : r.chan.timerPending = true) :
    r.chan.ackMsgSeqNum < r.chan.inMsgSeqNum := by
  obtain ⟨hlo, hhi, -, hgap⟩ := hreg
  cases harr with
  | closesWindow hnext hw hacc | windowAckFails hnext hw hacc | opensGap hnext hroom hack =>
    cases ht
  | next hnext hw => exact hnext.2
  | duplicate hnext hroom => exact h.timer ht
  | held hnext hroom hack =>
    have := h.timer ht
    exact absurd this hack.not_gt
  | @fillsGap ch' completed hfill hloop =>
    have hdr := h.ahead.drained_hold hfill.2.1 hlo hhi (hgap hfill ▸ hloop)
    have ht' : ch'.timerPending = true := by cases accepts <;> exact ht
    exact absurd (h.timer (hdr.timer_eq.symm.trans ht')) hfill.2.2.1.not_gt

/-- An ack never lists more than `window` numbers, and fewer than `window` messages stay
unacknowledged. -/
theorem Receiving.window_arrive (hmissing : FillsGap ch msg →
      ∃ k < ch.window, (ch.hold msg).getMsgRoom (ch.inMsgSeqNum + 1 + k) = none)
    (harr : Arrival ch msg accepts stray r) :
    (∀ a ∈ r.ack, a.seqNums.length ≤ ch.window) ∧ r.chan.window = ch.window ∧
      r.chan.inMsgSeqNum < r.chan.ackMsgSeqNum + ch.window := by
  obtain ⟨hlo, hhi, hexp, hgap⟩ := hreg
  have hun := h.unacked
  cases harr with
  | closesWindow hnext hw hacc =>
    obtain ⟨hseq, hlt⟩ := hnext
    refine ⟨?_, rfl, Nat.lt_add_of_pos_right (by omega)⟩
    simp only [Option.mem_some_iff, forall_eq', length_ackSeqNumArray]
    omega
  | windowAckFails hnext hw hacc =>
    rw [(hexp hnext).2 hw] at hacc
    cases hacc
  | next hnext hw =>
    obtain ⟨hseq, hlt⟩ := hnext
    refine ⟨by simp, rfl, ?_⟩
    show msg.seqNum < ch.ackMsgSeqNum + ch.window
    omega
  | duplicate hnext hroom | held hnext hroom hack => exact ⟨by simp, rfl, hun⟩
  | opensGap hnext hroom hack =>
    have hlen : (ackSeqNumArray (ch.hold msg) msg.seqNum).length ≤ ch.window := by
      rw [length_ackSeqNumArray]
      show ch.inMsgSeqNum - ch.ackMsgSeqNum + 1 ≤ ch.window
      omega
    cases accepts with
    | false => exact ⟨by simp [sendAck], rfl, hun⟩
    | true =>
      refine ⟨by simpa [sendAck] using hlen, rfl, ?_⟩
      show ch.inMsgSeqNum < msg.seqNum + ch.window
      omega
  | @fillsGap ch' completed hfill hloop =>
    have hdr := h.ahead.drained_hold hfill.2.1 hlo hhi (hgap hfill ▸ hloop)
    obtain ⟨k, hk, hroom⟩ := hmissing hfill
    have hh : Ahead { ch.hold msg with ackMsgSeqNum := ch.inMsgSeqNum } :=
      (h.ahead.hold hfill.2.1 hlo hhi).of_eq rfl rfl
    have hle : ch'.inMsgSeqNum ≤ ch.inMsgSeqNum + k := hh.drained_le hroom hdr
    have hack : ch'.ackMsgSeqNum = ch.inMsgSeqNum := hdr.ack_eq
    have hwin : ch'.window = ch.window := hdr.window_eq
    cases accepts with
    | false =>
      refine ⟨by simp [sendAck], hwin, ?_⟩
      show ch'.inMsgSeqNum < ch'.ackMsgSeqNum + ch.window
      omega
    | true =>
      refine ⟨?_, hwin, Nat.lt_add_of_pos_right (by omega)⟩
      simp only [sendAck, if_true, Option.mem_some_iff, forall_eq', length_ackSeqNumArray]
      omega

/-- **The acks follow on one another**: what an arrival sends starts where the acks before it end.
-/
theorem Receiving.ackChain_arrive
    (hopen : ¬Expected ch msg → ch.getMsgRoom msg.seqNum = none → ch.ackMsgSeqNum ≠ ch.inMsgSeqNum)
    (hmsg : msg.seqNum ≤ sent.length) (harr : Arrival ch msg accepts stray r)
    (hin : r.chan.inMsgSeqNum ≤ sent.length) :
    AckChain sent.length (ackedUpTo ch) r.ack.toList (ackedUpTo r.chan) := by
  obtain ⟨hlo, hhi, hexp, hgap'⟩ := hreg
  cases harr with
  | closesWindow hnext hw hacc =>
    obtain ⟨hseq, hlt⟩ := hnext
    have hp : ackedUpTo ch = ch.ackMsgSeqNum := min_eq_left (by omega)
    show AckChain _ _ [⟨.windowComplete, ackSeqNumArray ch msg.seqNum⟩] (min msg.seqNum msg.seqNum)
    rw [hp, min_self]
    -- the number that closes the window is the next one, so nothing is repeated
    have hl : ackSeqNumArray ch msg.seqNum =
        range' (ch.ackMsgSeqNum + 1) (msg.seqNum - ch.ackMsgSeqNum) := by
      have hcount : msg.seqNum - ch.ackMsgSeqNum = ch.inMsgSeqNum - ch.ackMsgSeqNum + 1 := by omega
      have hlast : ch.ackMsgSeqNum + 1 + (ch.inMsgSeqNum - ch.ackMsgSeqNum) = msg.seqNum := by omega
      rw [ackSeqNumArray_eq, hcount, range'_1_concat, hlast]
    rw [hl]
    exact .single (.upTo (by decide) hlt hmsg)
  | windowAckFails hnext hw hacc =>
    rw [(hexp hnext).2 hw] at hacc
    cases hacc
  | next hnext hw =>
    obtain ⟨hseq, hlt⟩ := hnext
    show min ch.ackMsgSeqNum ch.inMsgSeqNum = min ch.ackMsgSeqNum msg.seqNum
    omega
  | duplicate hnext hroom | held hnext hroom hack => exact rfl
  | opensGap hnext hroom hack =>
    have hp : ackedUpTo ch = ch.ackMsgSeqNum := min_eq_left hack
    have hlt : ch.ackMsgSeqNum < ch.inMsgSeqNum := lt_of_le_of_ne hack (hopen hnext hroom)
    have hgap : ch.inMsgSeqNum + 2 ≤ msg.seqNum := by
      have : msg.seqNum ≠ ch.inMsgSeqNum + 1 := fun heq => hnext ⟨heq.symm, by omega⟩
      omega
    cases accepts with
    | false => exact rfl
    | true =>
      show AckChain _ _ [⟨.outOfOrder, ackSeqNumArray (ch.hold msg) msg.seqNum⟩]
        (min msg.seqNum ch.inMsgSeqNum)
      rw [hp, min_eq_right hlo.le, ackSeqNumArray_eq]
      exact .single (.beyondGap hlt hgap hmsg)
  | @fillsGap ch' completed hfill hloop =>
    have hdr := h.ahead.drained_hold hfill.2.1 hlo hhi (hgap' hfill ▸ hloop)
    obtain ⟨-, hroom, hack, -, hall⟩ := hfill
    have hh : Ahead { ch.hold msg with ackMsgSeqNum := ch.inMsgSeqNum } :=
      (h.ahead.hold hroom hlo hhi).of_eq rfl rfl
    have hlt : ch.inMsgSeqNum < ch'.inMsgSeqNum := hh.drained_lt (hall 0 (by omega)) hdr hloop
    have hack' : _ = ch.inMsgSeqNum := hdr.ack_eq
    have hp : ackedUpTo ch = ch.inMsgSeqNum := min_eq_right hack.le
    rw [sendAck_in] at hin
    rw [hp, ← hack']
    exact ackChain_sendAck (by decide) (hack' ▸ hlt) hin accepts

theorem Receiving.arrive (hmissing : FillsGap ch msg →
      ∃ k < ch.window, (ch.hold msg).getMsgRoom (ch.inMsgSeqNum + 1 + k) = none)
    (hmsg : msg ∈ sent) (harr : Arrival ch msg accepts stray r) :
    Receiving r.chan sent (delivered ++ r.completed) := by
  have hseq := h.ahead.arrive hreg harr
  obtain ⟨hco, hh⟩ := h.ahead.origin hreg harr
  have hse : ∀ {m}, (m = msg ∨ ∃ i, ch.contents i = some m) → m ∈ sent := by
    rintro m (rfl | ⟨i, hi⟩)
    · exact hmsg
    · exact h.held_sent hi
  obtain ⟨-, hwin, hun⟩ := h.window_arrive hreg hmissing harr
  refine ⟨hseq.ahead, fun hi => hse (hh hi), ?_, ?_, h.timer_arrive hreg harr, hwin ▸ hun⟩
  · exact forall_mem_append.2 ⟨h.delivered_sent, fun m hm => hse (hco m hm)⟩
  · rw [map_append, h.delivered_eq]
    exact hseq.numbers_append

end

theorem Receiving.windowTimeout (h : Receiving ch sent delivered) (hnum : Numbered sent)
    (hr : receive ch (.windowTimeout accepts) = some r) :
    Receiving r.chan sent (delivered ++ r.completed) ∧
      AckChain sent.length (ackedUpTo ch) r.ack.toList (ackedUpTo r.chan) ∧
      (∀ a ∈ r.ack, a.seqNums.length ≤ ch.window) ∧ r.chan.window = ch.window := by
  obtain ⟨ht, rfl⟩ := receive_windowTimeout hr
  have hlt := h.timer ht
  have hun := h.unacked
  refine ⟨⟨h.ahead.of_eq (sendAck_rooms ..) (sendAck_in ..), fun {i m} hi => ?_, ?_, ?_,
    fun ht' => ?_, ?_⟩, ?_, ?_, ?_⟩
  · rw [windowTimeoutCallback, sendAck_rooms] at hi
    exact h.held_sent hi
  · rw [append_nil]
    exact h.delivered_sent
  · rw [append_nil, windowTimeoutCallback, sendAck_in]
    exact h.delivered_eq
  · cases accepts <;> cases ht'
  · cases accepts with
    | false => exact hun
    | true => exact Nat.lt_add_of_pos_right (show 0 < ch.window by omega)
  · have hp : ackedUpTo ch = ch.ackMsgSeqNum := min_eq_left hlt.le
    have hch :=
      @ackChain_sendAck β { ch with timerPending := false } sent.length .timeout (by decide) hlt
      (h.in_le hnum) accepts
    rw [hp]
    exact hch
  · cases accepts with
    | false => simp [windowTimeoutCallback, sendAck]
    | true =>
      simp only [windowTimeoutCallback, sendAck, if_true, Option.mem_some_iff, forall_eq',
        length_ackSeqNumArray]
      omega
  · cases accepts <;> rfl

end

/-- A send with a free room: the next number, checked in. -/
theorem ackSend_spec (hf : 0 < ch.windowFirstSeqNum)
    (hroom : ch.outstandingMsgs.unoccupied ≠ []) (body : β) :
    ch.outstandingMsgs.checkin ⟨ch.outMsgSeqNum + 1, body⟩ ≠ none ∧
      (ackSend ch body).2.1 = ⟨ch.outMsgSeqNum + 1, body⟩ ∧
      (ackSend ch body).1.toMsgRooms =
      ch.checkinMsg (ch.outMsgSeqNum + 1) ⟨ch.outMsgSeqNum + 1, body⟩ none ∧
      (ackSend ch body).1.outMsgSeqNum = ch.outMsgSeqNum + 1 ∧
      0 < (ackSend ch body).1.windowFirstSeqNum ∧
      (ackSend ch body).1.window = ch.window := by
  have hout :
    (if ch.outMsgSeqNum = ch.windowFirstSeqNum - 1 then ch.windowFirstSeqNum
    else ch.outMsgSeqNum + 1) =
      ch.outMsgSeqNum + 1 := by
    split <;> omega
  have hfr : ch.outstandingMsgs.checkin ⟨ch.outMsgSeqNum + 1, body⟩ ≠ none := by
    obtain ⟨r, hr⟩ := exists_mem_of_ne_nil _ hroom
    intro hc
    exact Hotel.checkin_eq_none_iff.1 hc r ((ch.outstandingMsgs.mem_unoccupied r).1 hr)
  obtain ⟨⟨hotel, r⟩, hc⟩ := Option.ne_none_iff_exists'.1 hfr
  refine ⟨hfr, ?_⟩
  unfold ackSend MsgRooms.checkinMsg
  simp only [hout, hc, true_and]
  refine ⟨?_, trivial⟩
  split
  · exact Nat.succ_pos _
  · exact hf

structure LinkOk (link : Link β) : Prop where
  receiving : Receiving link.receiver link.sent link.delivered
  numbered : Numbered link.sent
  out_eq : link.sender.outMsgSeqNum = link.sent.length
  first_pos : 0 < link.sender.windowFirstSeqNum
  net_sent : ∀ m ∈ link.net, m ∈ link.sent
  window_eq : link.receiver.window = link.sender.window
  acks_le : ∀ a ∈ link.acks, a.seqNums.length ≤ link.sender.window
  acked : ∃ p, Outstanding link.sender.toMsgRooms p link.sent ∧
    AckChain link.sent.length p link.acks (ackedUpTo link.receiver) ∧
    ∀ m ∈ link.confirmed, m ∈ link.sent ∧ m.seqNum ≤ p

namespace LinkOk

variable {link link' : Link β}

theorem init {w : Nat} (hw : 0 < w) : LinkOk (Link.init β w) where
  receiving :=
    ⟨.channelCons w, fun hi => (nomatch hi),
    by simp [Link.init], rfl, fun ht => (nomatch ht), by simpa [Link.init, channelCons] using hw⟩
  numbered := rfl
  out_eq := rfl
  first_pos := Nat.one_pos
  net_sent := by simp [Link.init]
  window_eq := rfl
  acks_le := by simp [Link.init]
  acked :=
  ⟨0, ⟨MsgRooms.fits_empty, by simp [Link.init], by simp [Link.init, channelCons]⟩, rfl,
  by simp [Link.init]⟩

/-- The sender's acknowledged number is at most the last incoming one of the receiver. -/
theorem le_in {p : Nat} (hch : AckChain link.sent.length p link.acks (ackedUpTo link.receiver)) :
    p ≤ link.receiver.inMsgSeqNum := hch.le.trans (min_le_right _ _)

/-- A message on the wire is one of the 200 after the last incoming one, or was completed. -/
theorem seqNum_le (h : LinkOk link) {m : Msg β} (hm : m ∈ link.sent) :
    m.seqNum ≤ link.receiver.inMsgSeqNum + 200 := by
  obtain ⟨p, hout, hch, -⟩ := h.acked
  have hle := le_in hch
  have hsp := hout.span
  have := (h.numbered.bounds hm).2
  omega

theorem received (h : LinkOk link) {net : List (Msg β)} {r : Received β}
    (hnet : ∀ m ∈ net, m ∈ link.net)
    (hre : Receiving r.chan link.sent (link.delivered ++ r.completed))
    (hac : AckChain link.sent.length (ackedUpTo link.receiver) r.ack.toList (ackedUpTo r.chan))
    (hlen : ∀ a ∈ r.ack, a.seqNums.length ≤ link.receiver.window)
    (hwin : r.chan.window = link.receiver.window) :
    LinkOk (link.received net r) := by
  obtain ⟨p, hout, hch, hco⟩ := h.acked
  refine ⟨hre, h.numbered, h.out_eq, h.first_pos, fun m hm => h.net_sent m (hnet m hm),
    hwin.trans h.window_eq, ?_, p, hout, hch.append hac, hco⟩
  exact forall_mem_append.2 ⟨h.acks_le, fun a ha => h.window_eq ▸ hlen a (Option.mem_toList.1 ha)⟩

theorem send (h : LinkOk link) (hroom : link.sender.outstandingMsgs.unoccupied ≠ []) (body : β) :
    LinkOk { link with
      sender := (ackSend link.sender body).1
      net := link.net ++ [(ackSend link.sender body).2.1]
      sent := link.sent ++ [(ackSend link.sender body).2.1] } := by
  obtain ⟨p, hout, hch, hco⟩ := h.acked
  obtain ⟨hf, hmsg, hro, hnext, hpos, hwin⟩ := ackSend_spec h.first_pos hroom body
  rw [h.out_eq] at hf hmsg hro hnext
  have hnum : Numbered (link.sent ++ [(ackSend link.sender body).2.1]) :=
    h.numbered.snoc (by rw [hmsg])
  have hg : ∀ {m}, m ∈ link.sent → m ∈ link.sent ++ [(ackSend link.sender body).2.1] :=
    mem_append_left _
  have hp : p ≤ link.sent.length := (le_in hch).trans (h.receiving.in_le h.numbered)
  refine ⟨?_, hnum, ?_, hpos, ?_, h.window_eq.trans hwin.symm,
    fun a ha => hwin ▸ h.acks_le a ha, p, ?_, hch.mono (by simp),
    fun m hm => ⟨hg (hco m hm).1, (hco m hm).2⟩⟩
  · obtain ⟨hah, hh, hdel, heq, hti, hun⟩ := h.receiving
    exact ⟨hah, fun hi => hg (hh hi), fun m hm => hg (hdel m hm), heq, hti, hun⟩
  · rw [length_append, length_singleton]
    exact hnext
  · exact forall_mem_append.2 ⟨fun m hm => hg (h.net_sent m hm), fun m hm => mem_append_right _ hm⟩
  · have hout' := hout.send h.numbered (m := ⟨link.sent.length + 1, body⟩) rfl hp hf
    rwa [← hro, ← hmsg] at hout'

/-- The next ack is processed. -/
theorem exists_answered (h : LinkOk link) {a : Ack} {rest : List Ack}
    (hac : link.acks = a :: rest) :
    ∃ r p q, Qos.processAck link.sender a false = some r ∧
      Outstanding link.sender.toMsgRooms p link.sent ∧
      Covers link.sent.length a p q ∧ AckChain link.sent.length q rest (ackedUpTo link.receiver) ∧
      Answered r a q link.sent ∧ ∀ m ∈ link.confirmed, m ∈ link.sent ∧ m.seqNum ≤ p := by
  obtain ⟨p, hout, hch, hco⟩ := h.acked
  rw [hac] at hch
  obtain ⟨q, hcov, hre⟩ := hch
  obtain ⟨r, hr, hans⟩ := hout.processAck h.numbered hcov (h.acks_le a (by simp [hac]))
  exact ⟨r, p, q, hr, hout, hcov, hre, hans, hco⟩

theorem answered (h : LinkOk link) {a : Ack} {rest : List Ack} (hac : link.acks = a :: rest)
    {r : Acked β} (hr : Qos.processAck link.sender a false = some r) :
    LinkOk (link.answered rest r) := by
  obtain ⟨r', p, q, hr', hout, hcov, hre, hans, hco⟩ := h.exists_answered hac
  obtain rfl := Option.some.inj (hr'.symm.trans hr)
  refine ⟨h.receiving, h.numbered, h.out_eq, h.first_pos, ?_, h.window_eq, ?_, q,
    hans.outstanding, hre, ?_⟩
  · exact forall_mem_append.2 ⟨h.net_sent, hans.resent_sent⟩
  · exact fun b hb => h.acks_le b (by simp [hac, show b ∈ rest from hb])
  · exact forall_mem_append.2 ⟨fun m hm => ⟨(hco m hm).1, (hco m hm).2.trans hcov.lt.le⟩,
      hans.completed⟩

theorem regular (h : LinkOk link) {msg : Msg β} {accepts stray : Bool} (hmem : msg ∈ link.net)
    (hc : link.Calm (.deliver msg accepts stray)) :
    Regular link.receiver (.arrive msg accepts stray) :=
  ⟨hc.1, h.seqNum_le (h.net_sent msg hmem), hc.2.1, fun hf => (hc.2.2.2 hf).1⟩

variable [DecidableEq β]

theorem step (h : LinkOk link) {act : Link.Act β} (hc : link.Calm act)
    (hs : link.step act = some link') :
    LinkOk link' := by
  cases act with
  | send body =>
    obtain rfl := Option.some.inj hs
    exact h.send hc body
  | deliver msg accepts stray =>
    rw [Link.step] at hs
    split at hs
    · rename_i hmem
      obtain ⟨r, hr, rfl⟩ := Option.map_eq_some_iff.1 hs
      have hreg := h.regular hmem hc
      obtain ⟨-, -, hopen, hfill⟩ := hc
      have hmsg := h.net_sent msg hmem
      have harr := processMsg_arrival hr
      have hre := h.receiving.arrive hreg (fun hf => (hfill hf).2) hmsg harr
      obtain ⟨hlen, hwin, -⟩ := h.receiving.window_arrive hreg (fun hf => (hfill hf).2) harr
      exact h.received (fun m hm => mem_of_mem_erase hm) hre
        (h.receiving.ackChain_arrive hreg hopen (h.numbered.bounds hmsg).2 harr
          (hre.in_le h.numbered)) hlen hwin
    · cases hs
  | drop msg =>
    rw [Link.step] at hs
    split at hs
    · obtain rfl := Option.some.inj hs
      exact ⟨h.receiving, h.numbered, h.out_eq, h.first_pos,
        fun m hm => h.net_sent m (mem_of_mem_erase hm), h.window_eq, h.acks_le, h.acked⟩
    · cases hs
  | windowTimeout accepts =>
    obtain ⟨r, hr, rfl⟩ := Option.map_eq_some_iff.1 hs
    obtain ⟨hre, hac, hlen, hwin⟩ := h.receiving.windowTimeout h.numbered hr
    exact h.received (fun m hm => hm) hre hac hlen hwin
  | processAck stray =>
    obtain rfl : stray = false := hc
    rw [Link.step] at hs
    split at hs
    · cases hs
    · rename_i a rest hac
      obtain ⟨r, hr, rfl⟩ := Option.map_eq_some_iff.1 hs
      exact h.answered hac hr
  | evictSent room | evictHeld room => cases hc

omit [DecidableEq β] in
theorem defined (h : LinkOk link) {act : Link.Act β} (hc : link.Calm act) : link.Defined act := by
  cases act with
  | deliver msg accepts stray => exact fun hmem => h.receiving.ahead.defined (h.regular hmem hc)
  | processAck stray =>
    obtain rfl : stray = false := hc
    intro a ha
    obtain ⟨rest, hac⟩ := head?_eq_some_iff.1 ha
    obtain ⟨r, -, -, hr, -⟩ := h.exists_answered hac
    rw [hr]
    rfl
  | send body | drop msg | windowTimeout accepts | evictSent room | evictHeld room => trivial

end LinkOk

/-- **No false success, and no gap left alone.** In every calm run nothing undefined is done;
every message the sender completed with success is one the receiver has; and when the sender is
about to read an out-of-order ack, every sent message below a listed number that the receiver
lacks is among those it sends again. -/
theorem success_and_resend_of_run [DecidableEq β] {w : Nat} (hw : 0 < w) {acts : List (Link.Act β)}
    (hcalm : Along Link.step Link.Calm (Link.init β w) acts) :
    Along Link.step Link.Defined (Link.init β w) acts ∧
      ∀ link, run Link.step (Link.init β w) acts = some link →
        (∀ m ∈ link.confirmed, link.ReceiverHas m) ∧
          ∀ a rest, link.acks = a :: rest → ∃ r, processAck link.sender a false = some r ∧
            (a.type = .outOfOrder → ∀ k ∈ a.seqNums, ∀ m ∈ link.sent, m.seqNum < k →
            ¬link.ReceiverHas m →
              m ∈ r.resent) := by
  refine ⟨along_of_invariant (I := LinkOk)
    (fun _ _ hI hc => ⟨hI.defined hc, fun _ hs => hI.step hc hs⟩) (.init hw) hcalm,
    fun link hrun => ?_⟩
  have h : LinkOk link := run_induction (I := fun _ link => LinkOk link)
    (fun _ _ _ _ hI hc hs => hI.step hc hs) (p := []) (.init hw) hrun hcalm
  refine ⟨fun m hm => ?_, fun a rest hac => ?_⟩
  · obtain ⟨p, hout, hch, hco⟩ := h.acked
    obtain ⟨hse, hle⟩ := hco m hm
    exact Or.inl (h.receiving.mem_delivered h.numbered hse (hle.trans (LinkOk.le_in hch)))
  · obtain ⟨r, p, q, hr, -, hcov, hre, hans, -⟩ := h.exists_answered hac
    refine ⟨r, hr, fun _ k hk m hm hlt hla => ?_⟩
    -- what the receiver lacks is beyond its last incoming number, so beyond `q`
    have hin : link.receiver.inMsgSeqNum < m.seqNum := by
      by_contra hle
      exact hla (Or.inl (h.receiving.mem_delivered h.numbered hm (Nat.le_of_not_lt hle)))
    have hq : q < m.seqNum := lt_of_le_of_lt (hre.le.trans (min_le_right _ _)) hin
    exact hans.resent m hm hq k hk hlt

/-- Message `k`, and its arrival with every ack accepted. -/
def message (k : Nat) : Msg Unit := ⟨k, ()⟩

def delivery (k : Nat) : Link.Act Unit := .deliver (message k) true false

/-- Window 2: 1 and 2 arrive and are acknowledged, 3 arrives, 4 is lost, 5 arrives. -/
def lossRun : List (Link.Act Unit) :=
  List.replicate 5 (.send ()) ++
    [delivery 1, delivery 2, .processAck false, delivery 3, .drop (message 4), delivery 5]

theorem success_and_resend_of_run_loss :
    ∃ link, run Link.step (Link.init Unit 2) lossRun = some link ∧
      Along Link.step Link.Calm (Link.init Unit 2) lossRun ∧
      link.confirmed = [message 1, message 2] ∧ (∀ m ∈ link.confirmed, link.ReceiverHas m) ∧
      link.acks = [⟨.outOfOrder, [3, 5]⟩] ∧ ¬link.ReceiverHas (message 4) ∧
      ∃ r, processAck link.sender ⟨.outOfOrder, [3, 5]⟩ false = some r ∧ message 4 ∈ r.resent := by
  have hca : Along Link.step Link.Calm (Link.init Unit 2) lossRun := by decide +kernel
  obtain ⟨link, hrun, hco, hac, hse, hla⟩ : ∃ link,
    run Link.step (Link.init Unit 2) lossRun = some link ∧
      link.confirmed = [message 1, message 2] ∧ link.acks = [⟨.outOfOrder, [3, 5]⟩] ∧
      message 4 ∈ link.sent ∧
      ¬link.ReceiverHas (message 4) := by decide +kernel
  obtain ⟨hhas, hre⟩ := (success_and_resend_of_run (by decide) hca).2 link hrun
  obtain ⟨r, hr, hmem⟩ := hre _ [] hac
  exact ⟨link, hrun, hca, hco, hhas, hac, hla, r, hr,
    hmem rfl 5 (by simp) (message 4) hse (by decide) hla⟩

/-- The first message is lost and the second arrives. -/
def firstLossRun : List (Link.Act Unit) := [.send (), .send (), .drop (message 1), delivery 2]

/-- Nothing was received before, so the out-of-order ack lists only message 2: the sender
completes it and does not send message 1 again. -/
theorem first_loss_not_resent :
    ∃ link, run Link.step (Link.init Unit 10) firstLossRun = some link ∧
      link.acks = [⟨.outOfOrder, [2]⟩] ∧ message 1 ∈ link.sent ∧ ¬link.ReceiverHas (message 1) ∧
      ∃ r, processAck link.sender ⟨.outOfOrder, [2]⟩ false = some r ∧ r.completed = [message 2] ∧
      r.resent = [] := by
  decide +kernel

end Sensys.Qos
