import Sensys.Qos.Reliable
/-!
# What holds in every run of a link

Whatever is lost, late, repeated, sent again or evicted, with full hotels and acks that are not
accepted: as long as nothing undefined is done, a message on the wire, in one of the hotels,
completed or confirmed was sent, and the `k`-th message sent has the number `k` (`sent_of_run`).
Where nothing is evicted at the receiver and `rooms[-1]` is `NULL`, its hotel and its table agree
and nothing undefined is done (`room_of_run`). The loops only move occupants (`Holding`).
-/
namespace Sensys.Qos
open Run List

section
variable {β : Type} {P : Msg β → Prop} {t t' : MsgRooms β} {ch ch' : AckChannel β} {m : Msg β}
  {stray : Bool}

/-- Every message in the hotel has the property. -/
def MsgRooms.Holding (P : Msg β → Prop) (t : MsgRooms β) : Prop :=
  ∀ r m, t.outstandingMsgs.rooms r = some m → P m

namespace MsgRooms.Holding
variable (h : t.Holding P)
include h

theorem checkout (room : Room) :
    ∀ r m, (t.outstandingMsgs.checkout room).rooms r = some m → P m := by
  intro r m hm
  rw [Hotel.checkout_rooms] at hm
  exact h r m (Maps.update_none_eq_some_iff.1 hm).2

theorem vacated (k : Nat) : (t.vacated k).Holding P := by
  intro r m hm
  simp only [MsgRooms.vacated] at hm
  cases hk : t.getMsgRoom k with
  | none =>
    rw [hk] at hm
    exact h r m hm
  | some room =>
    rw [hk] at hm
    exact h.checkout room r m hm

theorem contents {i : Fin maxOutstandingMsgs} (hm : t.contents i = some m) : P m := by
  obtain ⟨r, -, hr⟩ := Option.bind_eq_some_iff.1 hm
  exact h r m hr

variable {k : Nat} {out : Option (Msg β)}

theorem checkoutMsg (hc : t.checkoutMsg k stray = some (t', out)) :
    t'.Holding P ∧ ∀ m, out = some m → P m := by
  rw [checkoutMsg_eq] at hc
  split at hc
  · cases hc
  · cases hc
    exact ⟨h.vacated k, fun m hm => h.contents hm⟩

theorem clearMsg (hc : t.clearMsg k stray = some (t', out)) :
    t'.Holding P ∧ ∀ m, out = some m → P m := by
  rw [clearMsg_eq] at hc
  split at hc
  · cases hc
  · cases hc
    exact ⟨h.vacated k, fun m hm => h.contents hm⟩

theorem checkin {h' : Hotel (Msg β) maxOutstandingMsgs} {r : Room} (hm : P m)
    (hc : t.outstandingMsgs.checkin m = some (h', r)) : ∀ r m, h'.rooms r = some m → P m := by
  intro r' m' hm'
  rw [(Hotel.checkin_spec hc).2, Maps.update_some_eq_some_iff] at hm'
  rcases hm' with ⟨-, rfl⟩ | ⟨-, hm'⟩
  · exact hm
  · exact h r' m' hm'

theorem checkinMsg (hm : P m) (k : Nat) (room : Option Room) :
    (t.checkinMsg k m room).Holding P := by
  unfold MsgRooms.checkinMsg
  split
  · rename_i hc
    exact h.checkin hm hc
  · exact h

end MsgRooms.Holding

theorem completeLoop_holding {fuel k : Nat} {stale : Bool} {completed : List (Msg β)}
    (h : ch.Holding P) (hloop : completeLoop stray fuel k ch stale = some (ch', completed)) :
    ch'.Holding P ∧ ∀ m ∈ completed, P m := by
  fun_induction completeLoop stray fuel k ch stale generalizing ch' completed with
  | case1 =>
    cases hloop
    exact ⟨h, by simp⟩
  | case2 => cases hloop
  | case3 | case4 | case5 | case6 => grind [MsgRooms.Holding.clearMsg, Option.map_eq_some_iff]

theorem completeAcked_holding {ks : List Nat} {stale : Bool} {completed : List (Msg β)}
    (h : t.Holding P) (hloop : completeAcked stray ks t stale = some (t', completed)) :
    t'.Holding P ∧ ∀ m ∈ completed, P m := by
  fun_induction completeAcked stray ks t stale generalizing t' completed with
  | case1 =>
    cases hloop
    exact ⟨h, by simp⟩
  | case2 => cases hloop
  | case3 | case4 | case5 => grind [MsgRooms.Holding.clearMsg, Option.map_eq_some_iff]

theorem resendMissed_holding {n missed : Nat} {resent : List (Msg β)} (h : t.Holding P)
    (hloop : resendMissed stray n missed t = some (t', resent)) :
    t'.Holding P ∧ ∀ m ∈ resent, P m := by
  fun_induction resendMissed stray n missed t generalizing t' resent with
  | case1 =>
    cases hloop
    exact ⟨h, by simp⟩
  | case2 =>
    grind [MsgRooms.Holding.checkoutMsg, MsgRooms.Holding.checkinMsg, Option.map_eq_some_iff]
  | case3 => cases hloop

theorem completeOutOfOrder_holding {prev : Option Nat} {ks : List Nat} {stale : Bool} {r : Acked β}
    (h : t.Holding P) (hloop : completeOutOfOrder stray prev ks t stale = some r) :
    r.rooms.Holding P ∧ (∀ m ∈ r.completed, P m) ∧ ∀ m ∈ r.resent, P m := by
  fun_induction completeOutOfOrder stray prev ks t stale generalizing r with
  | case1 =>
    cases hloop
    exact ⟨h, by simp⟩
  | case2 | case3 => cases hloop
  | case4 | case5 | case6 => grind [MsgRooms.Holding.clearMsg, Option.map_eq_some_iff]
  | case7 =>
    rename_i k ks t stale t' m hc hne first t'' resent hre ih
    obtain ⟨hho, hm⟩ := h.clearMsg hc
    obtain ⟨hho', hresent⟩ := resendMissed_holding (hho.checkinMsg (hm m rfl) k _) hre
    obtain ⟨r', hr', rfl⟩ := Option.map_eq_some_iff.1 hloop
    obtain ⟨hrooms, hco, hre'⟩ := ih hho' hr'
    exact ⟨hrooms, hco, forall_mem_append.2 ⟨hresent, hre'⟩⟩

theorem processAck_holding {a : Ack} {r : Acked β} (h : ch.Holding P)
    (hr : processAck ch a stray = some r) :
    r.rooms.Holding P ∧ (∀ m ∈ r.completed, P m) ∧ ∀ m ∈ r.resent, P m := by
  unfold processAck at hr
  split at hr
  · cases hr
  · split at hr
    · obtain ⟨⟨t, completed⟩, hloop, rfl⟩ := Option.map_eq_some_iff.1 hr
      obtain ⟨hho, hco⟩ := completeAcked_holding h hloop
      exact ⟨hho, hco, by simp⟩
    · exact completeOutOfOrder_holding h hr

theorem receive_holding {act : RecvAct β} {r : Received β} (h : ch.Holding P)
    (hmsg : ∀ msg accepts stray, act = .arrive msg accepts stray → P msg)
    (hr : receive ch act = some r) :
    r.chan.Holding P ∧ ∀ m ∈ r.completed, P m := by
  cases act with
  | arrive msg accepts stray =>
    have hP := hmsg msg accepts stray rfl
    have hho : (ch.hold msg).Holding P := h.checkinMsg hP msg.seqNum none
    have harr := processMsg_arrival hr
    cases harr with
    | closesWindow | next => exact ⟨h, by simpa using hP⟩
    | windowAckFails | duplicate => exact ⟨h, by simp⟩
    | opensGap => exact ⟨by simpa using hho, by simp⟩
    | fillsGap _ hloop =>
      have hco := completeLoop_holding
        (show ({ ch.hold msg with ackMsgSeqNum := ch.inMsgSeqNum } : AckChannel β).Holding
          P from hho) hloop
      exact ⟨by simpa using hco.1, hco.2⟩
    | held => exact ⟨hho, by simp⟩
  | windowTimeout accepts =>
    rw [(receive_windowTimeout hr).2]
    exact ⟨by simpa [windowTimeoutCallback] using h, by simp⟩
  | evict room =>
    rw [receive] at hr
    split at hr
    · obtain rfl := Option.some.inj hr
      exact ⟨h.checkout room, by simp⟩
    · cases hr

/-- The next number, with or without a room. -/
theorem ackSend_holding (hf : 0 < ch.windowFirstSeqNum) (body : β) (h : ch.Holding P)
    (hm : P ⟨ch.outMsgSeqNum + 1, body⟩) :
    (ackSend ch body).2.1 = ⟨ch.outMsgSeqNum + 1, body⟩ ∧
      (ackSend ch body).1.outMsgSeqNum = ch.outMsgSeqNum + 1 ∧
      0 < (ackSend ch body).1.windowFirstSeqNum ∧ (ackSend ch body).1.Holding P := by
  have hout :
    (if ch.outMsgSeqNum = ch.windowFirstSeqNum - 1 then ch.windowFirstSeqNum
    else ch.outMsgSeqNum + 1) =
      ch.outMsgSeqNum + 1 := by
    split <;> omega
  have hfi : 0 <
      if ch.outMsgSeqNum + 1 - ch.windowFirstSeqNum + 1 = ch.window then ch.outMsgSeqNum + 1 + 1
      else ch.windowFirstSeqNum := by
    split <;> omega
  unfold ackSend
  simp only [hout]
  split
  · rename_i hc
    exact ⟨rfl, rfl, hfi, h.checkin hm hc⟩
  · exact ⟨rfl, rfl, hfi, h⟩

end

variable {β : Type} {link link' : Link β}

structure Origin (link : Link β) : Prop where
  numbered : Numbered link.sent
  out_eq : link.sender.outMsgSeqNum = link.sent.length
  first_pos : 0 < link.sender.windowFirstSeqNum
  net : ∀ m ∈ link.net, m ∈ link.sent
  delivered : ∀ m ∈ link.delivered, m ∈ link.sent
  confirmed : ∀ m ∈ link.confirmed, m ∈ link.sent
  outstanding : link.sender.Holding (· ∈ link.sent)
  held : link.receiver.Holding (· ∈ link.sent)

namespace Origin
variable (h : Origin link)
include h

theorem received {net : List (Msg β)} {act : RecvAct β} {r : Received β}
    (hnet : ∀ m ∈ net, m ∈ link.net)
    (hmsg : ∀ msg accepts stray, act = .arrive msg accepts stray → msg ∈ link.sent)
    (hr : receive link.receiver act = some r) :
    Origin (link.received net r) := by
  obtain ⟨hho, hco⟩ := receive_holding h.held hmsg hr
  exact { h with net := fun m hm => h.net m (hnet m hm), delivered := forall_mem_append.2 ⟨h.delivered, hco⟩, held := hho }

theorem send (body : β) :
    Origin { link with
      sender := (ackSend link.sender body).1
      net := link.net ++ [(ackSend link.sender body).2.1]
      sent := link.sent ++ [(ackSend link.sender body).2.1] } := by
  have hg : ∀ {m m'}, m ∈ link.sent → m ∈ link.sent ++ [m'] := fun {m m'} => mem_append_left [m']
  obtain ⟨hmsg, hout, hpos, hho⟩ :=
    ackSend_holding h.first_pos body
    (P := (· ∈ link.sent ++ [⟨link.sender.outMsgSeqNum + 1, body⟩]))
    (fun r m hm => hg (h.outstanding r m hm)) (by simp)
  rw [hmsg]
  refine ⟨h.numbered.snoc (by rw [h.out_eq]), ?_, hpos, ?_, fun m hm => hg (h.delivered m hm),
    fun m hm => hg (h.confirmed m hm), hho, fun r m hm => hg (h.held r m hm)⟩
  · rw [length_append, length_singleton, ← h.out_eq]
    exact hout
  · exact forall_mem_append.2 ⟨fun m hm => hg (h.net m hm), fun m hm => mem_append_right _ hm⟩

theorem step [DecidableEq β] {act : Link.Act β} (hs : link.step act = some link') :
    Origin link' := by
  cases act with
  | send body =>
    obtain rfl := Option.some.inj hs
    exact h.send body
  | deliver msg accepts stray =>
    rw [Link.step] at hs
    split at hs
    · rename_i hmem
      obtain ⟨r, hr, rfl⟩ := Option.map_eq_some_iff.1 hs
      refine h.received (fun m hm => mem_of_mem_erase hm) ?_ hr
      rintro _ _ _ ⟨⟩
      exact h.net msg hmem
    · cases hs
  | drop msg =>
    rw [Link.step] at hs
    split at hs
    · obtain rfl := Option.some.inj hs
      exact { h with net := fun m hm => h.net m (mem_of_mem_erase hm) }
    · cases hs
  | windowTimeout accepts | evictHeld room =>
    obtain ⟨r, hr, rfl⟩ := Option.map_eq_some_iff.1 hs
    exact h.received (fun m hm => hm) (by rintro _ _ _ ⟨⟩) hr
  | processAck stray =>
    rw [Link.step] at hs
    split at hs
    · cases hs
    · rename_i a rest hac
      obtain ⟨r, hr, rfl⟩ := Option.map_eq_some_iff.1 hs
      obtain ⟨hho, hco, hre⟩ := processAck_holding h.outstanding hr
      exact { h with
        net := forall_mem_append.2 ⟨h.net, hre⟩
        confirmed := forall_mem_append.2 ⟨h.confirmed, hco⟩
        outstanding := hho }
  | evictSent room =>
    obtain ⟨msg, -, rfl⟩ := Option.map_eq_some_iff.1 hs
    exact { h with outstanding := h.outstanding.checkout room }

end Origin

/-- Message 1 is lost, and its room is evicted after the ack for message 2. -/
def evictedRun : List (Link.Act Unit) :=
  firstLossRun ++ [.processAck false, .evictSent ⟨199, by decide⟩]

section
variable {β : Type} {ch ch' : AckChannel β}

/-- With hotel and table in agreement, the loop finds a message in every room it looks into. -/
theorem exists_completeLoop_fits (fuel k : Nat) (stale : Bool) (h : ch.Fits) :
    ∃ ch' completed, completeLoop false fuel k ch stale = some (ch', completed) ∧ ch'.Fits := by
  induction fuel generalizing k ch stale with
  | zero => exact ⟨ch, [], rfl, h⟩
  | succ fuel ih =>
    by_cases hk : ch.getMsgRoom k = none
    · exact ⟨_, _, completeLoop_none hk, h.cleared k⟩
    · obtain ⟨m, hm⟩ := Option.ne_none_iff_exists'.1 fun hc => hk (h.getMsgRoom_eq_none.2 hc)
      obtain ⟨ch', completed, hloop, hf⟩ :=
        @ih { ch with toMsgRooms := ch.cleared k, inMsgSeqNum := m.seqNum } (k + 1) true
          (h.cleared k)
      exact ⟨ch', m :: completed, by rw [completeLoop_some hk hm, hloop]; rfl, hf⟩

/-- Nothing is evicted, and `rooms[-1]` is `NULL` when a message arrives. -/
def Quiet : RecvAct β → Prop
  | .arrive _ _ stray => stray = false
  | .windowTimeout _ => True
  | .evict _ => False

theorem recvStep_fits {act : RecvAct β} (h : ch.Fits) (hq : Quiet act) :
    Defined ch act ∧ ∀ ch', recvStep ch act = some ch' → ch'.Fits := by
  cases act with
  | arrive msg accepts stray =>
    obtain rfl : stray = false := hq
    have hho : ch.getMsgRoom msg.seqNum = none → (ch.hold msg).Fits := fun hroom =>
      h.checkinMsg (h.getMsgRoom_eq_none.1 hroom) msg none
    have hdrain : ch.getMsgRoom msg.seqNum = none →
        ∃ ch' completed, ch.drain msg false = some (ch', completed) ∧ ch'.Fits := fun hroom =>
      @exists_completeLoop_fits _ { ch.hold msg with ackMsgSeqNum := ch.inMsgSeqNum } _ _ false
        (hho hroom)
    refine ⟨processMsg_isSome fun hfill => ?_, fun ch' hs => ?_⟩
    · obtain ⟨ch', completed, hloop, -⟩ := hdrain hfill.2.1
      rw [hloop]
      exact Option.some_ne_none _
    · obtain ⟨r, hr, rfl⟩ := Option.map_eq_some_iff.1 hs
      have harr := processMsg_arrival hr
      cases harr with
      | closesWindow | next | windowAckFails | duplicate => exact h
      | opensGap _ hroom | held _ hroom => simpa using hho hroom
      | fillsGap hfill hloop =>
        obtain ⟨ch₁, completed₁, hloop₁, hf⟩ := hdrain hfill.2.1
        rw [hloop] at hloop₁
        cases hloop₁
        simpa using hf
  | windowTimeout accepts =>
    refine ⟨trivial, fun ch' hs => ?_⟩
    obtain ⟨r, hr, rfl⟩ := Option.map_eq_some_iff.1 hs
    rw [(receive_windowTimeout hr).2]
    simpa [windowTimeoutCallback] using h
  | evict room => cases hq

end

end Sensys.Qos
