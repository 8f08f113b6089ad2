import Mathlib.Algebra.Order.Group.Nat
import Mathlib.Data.Finset.Card
import Sensys.Qos.AckChannel
/-!
# The order in which the receiver completes messages

`completes_in_order_of_run`: the numbers completed to the RML are `1, 2, 3, …` without gap or
repetition, as long as the arrivals are `Regular`. An entry of the table then always holds a
message among the 200 after the last incoming one (`Ahead`), so what the loop of
`process_out_of_order_msg` finds under an entry is the message it looks for.

A second copy of a message completed before is checked in and stays; 200 messages later its entry
is taken for the one of another message (`duplicate_completed_twice`).
-/
namespace Sensys.Qos
open Run

variable {β : Type} {ch : AckChannel β} {msg : Msg β}

/-! ## What an arrival can do -/

/-- The message is out of order and not held, and with it none of the lost ones is missing
(`:343-352`). -/
def FillsGap (ch : AckChannel β) (msg : Msg β) : Prop :=
  ¬Expected ch msg ∧ ch.getMsgRoom msg.seqNum = none ∧ ch.inMsgSeqNum < ch.ackMsgSeqNum ∧
    msg.seqNum < ch.ackMsgSeqNum ∧
    ∀ i < ch.ackMsgSeqNum - ch.inMsgSeqNum, (ch.hold msg).getMsgRoom (ch.inMsgSeqNum + 1 + i) ≠ none

instance (ch : AckChannel β) (msg : Msg β) : Decidable (FillsGap ch msg) :=
  inferInstanceAs (Decidable (_ ∧ _ ∧ _ ∧ _ ∧ ∀ _ < _, _))

/-- The loop that completes the messages in the hotel, as `process_out_of_order_msg` starts it. -/
def AckChannel.drain (ch : AckChannel β) (msg : Msg β) (stray : Bool) :
    Option (AckChannel β × List (Msg β)) :=
  completeLoop stray (maxOutstandingMsgs + 1) (ch.inMsgSeqNum + 1)
    { ch.hold msg with ackMsgSeqNum := ch.inMsgSeqNum } false

inductive Arrival (ch : AckChannel β) (msg : Msg β) (accepts stray : Bool) : Received β → Prop
  | closesWindow (hnext : Expected ch msg) (hw : ch.window = msg.seqNum - ch.ackMsgSeqNum)
      (hacc : accepts = true) :
      Arrival ch msg accepts stray
        ⟨{ ch with ackMsgSeqNum := msg.seqNum, inMsgSeqNum := msg.seqNum, timerPending := false },
          .success, some ⟨.windowComplete, ackSeqNumArray ch msg.seqNum⟩, [msg]⟩
  | windowAckFails (hnext : Expected ch msg) (hw : ch.window = msg.seqNum - ch.ackMsgSeqNum)
      (hacc : accepts = false) :
      Arrival ch msg accepts stray
        ⟨{ ch with inMsgSeqNum := msg.seqNum, timerPending := false }, .errSendAck, none, []⟩
  | next (hnext : Expected ch msg) (hw : ch.window ≠ msg.seqNum - ch.ackMsgSeqNum) :
      Arrival ch msg accepts stray
        ⟨{ ch with
            timerPending := ch.timerPending || ch.inMsgSeqNum == ch.ackMsgSeqNum
            inMsgSeqNum := msg.seqNum }, .success, none, [msg]⟩
  | duplicate (hnext : ¬Expected ch msg) (hroom : ch.getMsgRoom msg.seqNum ≠ none) :
      Arrival ch msg accepts stray ⟨ch, .errDuplicateMsg, none, []⟩
  | opensGap (hnext : ¬Expected ch msg) (hroom : ch.getMsgRoom msg.seqNum = none)
      (hack : ch.ackMsgSeqNum ≤ ch.inMsgSeqNum) :
      Arrival ch msg accepts stray
        ⟨{ (sendAck (ch.hold msg) .outOfOrder msg.seqNum accepts).1 with timerPending := false },
          .errOutOfOrderMsg, (sendAck (ch.hold msg) .outOfOrder msg.seqNum accepts).2, []⟩
  | fillsGap {ch' : AckChannel β} {completed : List (Msg β)} (hfill : FillsGap ch msg)
      (hloop : ch.drain msg stray = some (ch', completed)) :
      Arrival ch msg accepts stray
        ⟨(sendAck ch' .recvMissedMsg ch'.inMsgSeqNum accepts).1, .errOutOfOrderMsg,
          (sendAck ch' .recvMissedMsg ch'.inMsgSeqNum accepts).2, completed⟩
  | held (hnext : ¬Expected ch msg) (hroom : ch.getMsgRoom msg.seqNum = none)
      (hack : ch.inMsgSeqNum < ch.ackMsgSeqNum) :
      Arrival ch msg accepts stray ⟨ch.hold msg, .errOutOfOrderMsg, none, []⟩

variable {r : Received β} {ch' : AckChannel β} {i : Fin maxOutstandingMsgs} (t : MsgRooms β)
  {accepts stray : Bool}
  {m : Msg β}

/-- Out of order, the function fails only in the completing loop, and does one of the things
listed. -/
theorem processOutOfOrderMsg_arrival (accepts stray : Bool) (hnext : ¬Expected ch msg) :
    (∀ r, processOutOfOrderMsg ch msg accepts stray = some r → Arrival ch msg accepts stray r) ∧
      (processOutOfOrderMsg ch msg accepts stray = none →
      FillsGap ch msg ∧ ch.drain msg stray = none) := by
  have hone : ∀ {r r' : Received β}, Arrival ch msg accepts stray r → some r = some r' →
      Arrival ch msg accepts stray r' :=
    fun h heq => Option.some.inj heq ▸ h
  unfold processOutOfOrderMsg
  by_cases hroom : ch.getMsgRoom msg.seqNum = none
  · rw [if_neg (not_not.2 hroom)]
    dsimp only
    by_cases hack : ch.ackMsgSeqNum ≤ ch.inMsgSeqNum
    · rw [if_pos (show (ch.hold msg).ackMsgSeqNum ≤ (ch.hold msg).inMsgSeqNum from hack)]
      exact ⟨fun _ => hone (.opensGap hnext hroom hack), by simp⟩
    · have hack' : ch.inMsgSeqNum < ch.ackMsgSeqNum := Nat.lt_of_not_le hack
      rw [if_neg (show ¬(ch.hold msg).ackMsgSeqNum ≤ (ch.hold msg).inMsgSeqNum from hack)]
      split
      · rename_i hlost
        split
        · rename_i hall
          have hfill : FillsGap ch msg := ⟨hnext, hroom, hack', hlost, hall⟩
          refine ⟨fun r hr => ?_, fun hr => ⟨hfill, Option.map_eq_none_iff.1 hr⟩⟩
          obtain ⟨⟨ch', completed⟩, hloop, rfl⟩ := Option.map_eq_some_iff.1 hr
          exact .fillsGap hfill hloop
        · exact ⟨fun _ => hone (.held hnext hroom hack'), by simp⟩
      · exact ⟨fun _ => hone (.held hnext hroom hack'), by simp⟩
  · rw [if_pos hroom]
    exact ⟨fun _ => hone (.duplicate hnext hroom), by simp⟩

theorem Arrival.rc_ne_success (h : Arrival ch msg accepts stray r) (hnext : ¬Expected ch msg) :
    r.rc ≠ .success := by
  cases h <;> simp_all

/-- **One arrival**, the RML included. -/
theorem processMsg_arrival (hr : processMsg ch msg accepts stray = some r) :
    Arrival ch msg accepts stray r := by
  obtain ⟨r', hr', rfl⟩ := Option.map_eq_some_iff.1 hr
  rw [ackRecv] at hr'
  by_cases hnext : Expected ch msg
  · rw [if_pos hnext] at hr'
    by_cases hw : ch.window = msg.seqNum - ch.ackMsgSeqNum
    · rw [if_pos hw] at hr'
      obtain rfl := Option.some.inj hr'
      cases accepts with
      | true => exact .closesWindow hnext hw rfl
      | false => exact .windowAckFails hnext hw rfl
    · rw [if_neg hw] at hr'
      obtain rfl := Option.some.inj hr'
      exact .next hnext hw
  · rw [if_neg hnext] at hr'
    have harr := (processOutOfOrderMsg_arrival accepts stray hnext).1 r' hr'
    rw [if_neg (harr.rc_ne_success hnext)]
    exact harr

/-- Only the completing loop can do something undefined. -/
theorem processMsg_isSome (hdrain : FillsGap ch msg → ch.drain msg stray ≠ none) :
    (processMsg ch msg accepts stray).isSome := by
  rw [processMsg, Option.isSome_map, ackRecv]
  by_cases hnext : Expected ch msg
  · rw [if_pos hnext]
    split <;> rfl
  · rw [if_neg hnext, Option.isSome_iff_ne_none]
    intro hno
    obtain ⟨hfill, hloop⟩ := (processOutOfOrderMsg_arrival accepts stray hnext).2 hno
    exact hdrain hfill hloop

/-- **The window timer fires**, if it is pending. -/
theorem receive_windowTimeout (hr : receive ch (.windowTimeout accepts) = some r) :
    ch.timerPending = true ∧
      r = ⟨(windowTimeoutCallback ch accepts).1, .success,
      (windowTimeoutCallback ch accepts).2, []⟩ := by
  rw [receive] at hr
  split at hr
  · rename_i ht
    exact ⟨ht, (Option.some.inj hr).symm⟩
  · cases hr

/-! ## The completing loop -/

section
variable {ch : AckChannel β} {k fuel : Nat} {stale : Bool}

theorem completeLoop_none (hk : ch.getMsgRoom k = none) :
    completeLoop false (fuel + 1) k ch stale =
      some ({ ch with toMsgRooms := ch.cleared k }, []) := by
  simp only [completeLoop, MsgRooms.clearMsg_false, hk]

theorem completeLoop_some (hk : ch.getMsgRoom k ≠ none) (hm : ch.contents (entry k) = some m) :
    completeLoop stray (fuel + 1) k ch stale =
      (completeLoop stray fuel (k + 1) { ch with toMsgRooms := ch.cleared k, inMsgSeqNum := m.seqNum } true).map
        fun (ch', completed) => (ch', m :: completed) := by
  obtain ⟨r, hr⟩ := Option.ne_none_iff_exists'.1 hk
  simp only [completeLoop, MsgRooms.clearMsg_of_room hk, hr, hm]

end

/-- The table entries that name a room. -/
def MsgRooms.used (t : MsgRooms β) : Finset (Fin maxOutstandingMsgs) :=
  Finset.univ.filter fun i => t.seqNumToRoomNum i ≠ none

theorem MsgRooms.mem_used {t : MsgRooms β} :
    i ∈ t.used ↔ t.seqNumToRoomNum i ≠ none := by
  simp [used]

theorem MsgRooms.used_cleared (k : Nat) : (t.cleared k).used = t.used.erase (entry k) := by
  ext i
  rw [mem_used, Finset.mem_erase, mem_used, cleared_table]
  by_cases hik : i = entry k <;> simp [hik]

theorem MsgRooms.card_used_le : t.used.card ≤ maxOutstandingMsgs :=
  (Finset.card_le_univ _).trans_eq (Fintype.card_fin _)

/-- Every turn but the last frees an entry, so turns beyond their number change nothing. -/
theorem completeLoop_fuel {fuel : Nat} : ∀ (k : Nat) (ch : AckChannel β) (stale : Bool),
    ch.used.card < fuel →
    completeLoop stray (fuel + 1) k ch stale = completeLoop stray fuel k ch stale := by
  induction fuel with
  | zero => intro k ch stale h; exact absurd h (Nat.not_lt_zero _)
  | succ fuel ih =>
    intro k ch stale h
    rw [completeLoop, completeLoop]
    by_cases hk : ch.getMsgRoom k = none
    · simp only [hk]
    obtain ⟨r, hr⟩ := Option.ne_none_iff_exists'.1 hk
    have hl : (ch.cleared k).used.card < fuel := by
      have := Finset.card_erase_lt_of_mem (MsgRooms.mem_used.2 hk)
      rw [MsgRooms.used_cleared]
      omega
    simp only [MsgRooms.clearMsg_of_room hk, hr]
    cases ch.contents (entry k) with
    | none => rw [ih _ _ _ hl]
    | some m =>
      have hre := ih (k + 1) { ch with toMsgRooms := ch.cleared k, inMsgSeqNum := m.seqNum } true hl
      simp only [hre]

/-- **The loop ends by itself**: the number of turns in `processOutOfOrderMsg` is never what stops
it. -/
theorem completeLoop_enough (extra k : Nat) (ch : AckChannel β) (stale : Bool) :
    completeLoop stray (maxOutstandingMsgs + 1 + extra) k ch stale =
      completeLoop stray (maxOutstandingMsgs + 1) k ch stale := by
  induction extra with
  | zero => rfl
  | succ extra ih =>
    have hus := ch.card_used_le
    rw [← ih]
    exact completeLoop_fuel k ch stale (show ch.used.card < maxOutstandingMsgs + 1 + extra by omega)

/-- Every held message stands under its own entry and is one of the 200 after the last incoming
one. -/
structure Ahead (ch : AckChannel β) : Prop where
  fits : ch.Fits
  entry_eq : ∀ {i m}, ch.contents i = some m → entry m.seqNum = i
  window : ∀ {i m}, ch.contents i = some m →
    ch.inMsgSeqNum < m.seqNum ∧ m.seqNum ≤ ch.inMsgSeqNum + 200

/-- What the loop found, started at the message after the last incoming one. -/
structure Drained (ch ch' : AckChannel β) (completed : List (Msg β)) : Prop where
  ahead : Ahead ch'
  le : ch.inMsgSeqNum ≤ ch'.inMsgSeqNum
  numbers : completed.map Msg.seqNum =
    List.range' (ch.inMsgSeqNum + 1) (ch'.inMsgSeqNum - ch.inMsgSeqNum)
  completed_held : ∀ m ∈ completed, ∃ i, ch.contents i = some m
  left_held : ∀ {i m}, ch'.contents i = some m → ch.contents i = some m
  ack_eq : ch'.ackMsgSeqNum = ch.ackMsgSeqNum
  timer_eq : ch'.timerPending = ch.timerPending
  window_eq : ch'.window = ch.window

section
variable (h : Ahead ch)
include h

theorem Ahead.of_eq (hro : ch'.toMsgRooms = ch.toMsgRooms)
    (hin : ch'.inMsgSeqNum = ch.inMsgSeqNum) : Ahead ch' where
  fits := hro ▸ h.fits
  entry_eq := fun hi => h.entry_eq (hro ▸ hi)
  window := fun hi => hin ▸ h.window (hro ▸ hi)

/-- The message after the last incoming one is found under its entry and no other is. -/
theorem Ahead.seqNum_eq (hm : ch.contents (entry (ch.inMsgSeqNum + 1)) = some m) : m.seqNum = ch.inMsgSeqNum + 1 :=
  entry_inj (h.window hm).1 (h.window hm).2 (Nat.lt_succ_self _) (by omega) (h.entry_eq hm)

/-- The last incoming number moves on by one over an entry that is now free. -/
theorem Ahead.advance (hf : ch'.Fits)
    (hsub : ∀ {i m}, ch'.contents i = some m → ch.contents i = some m)
    (hfr : ch'.contents (entry (ch.inMsgSeqNum + 1)) = none)
    (hin : ch'.inMsgSeqNum = ch.inMsgSeqNum + 1) : Ahead ch' where
  fits := hf
  entry_eq := fun hi => h.entry_eq (hsub hi)
  window := by
    intro i m hi
    have hw := h.window (hsub hi)
    have hne : m.seqNum ≠ ch.inMsgSeqNum + 1 := by
      intro heq
      have hen := h.entry_eq (hsub hi)
      rw [heq] at hen
      rw [← hen, hfr] at hi
      cases hi
    omega

theorem Ahead.drained (fuel : Nat) (stale : Bool) :
    ∃ ch' completed, completeLoop false fuel (ch.inMsgSeqNum + 1) ch stale = some (ch', completed) ∧
      Drained ch ch' completed := by
  induction fuel generalizing ch stale with
  | zero => exact ⟨ch, [], rfl, h, le_rfl, by simp, by simp, id, rfl, rfl, rfl⟩
  | succ fuel ih =>
    have hsub : ∀ {i m}, (ch.cleared (ch.inMsgSeqNum + 1)).contents i = some m → ch.contents i = some m :=
      h.fits.of_contents_cleared
    by_cases hk : ch.getMsgRoom (ch.inMsgSeqNum + 1) = none
    · exact ⟨_, _, completeLoop_none hk,
        ⟨h.fits.cleared _, fun hi => h.entry_eq (hsub hi), fun hi => h.window (hsub hi)⟩,
        le_rfl, by simp, by simp, hsub, rfl, rfl, rfl⟩
    · obtain ⟨m, hm⟩ := Option.ne_none_iff_exists'.1 fun hc => hk (h.fits.getMsgRoom_eq_none.2 hc)
      have hseq := h.seqNum_eq hm
      rw [completeLoop_some hk hm]
      -- the loop goes on from the state in which `m` is the last incoming message
      generalize hch₁ : ({ ch with toMsgRooms := ch.cleared (ch.inMsgSeqNum + 1),
                                   inMsgSeqNum := m.seqNum } : AckChannel β) = ch₁
      have hin : ch₁.inMsgSeqNum = ch.inMsgSeqNum + 1 := by rw [← hch₁]; exact hseq
      have hro : ch₁.toMsgRooms = ch.cleared (ch.inMsgSeqNum + 1) := by rw [← hch₁]
      have hah : Ahead ch₁ := by
        refine h.advance ?_ ?_ ?_ hin
        · rw [hro]; exact h.fits.cleared _
        · rw [hro]; exact hsub
        · rw [hro, h.fits.contents_cleared, Function.update_self]
      obtain ⟨ch₂, rest, hloop, hre⟩ := ih hah true
      rw [hin] at hloop
      have hle : ch.inMsgSeqNum + 1 ≤ ch₂.inMsgSeqNum := hin ▸ hre.le
      refine ⟨ch₂, m :: rest, by rw [hloop]; rfl, hre.ahead, ?_, ?_, ?_, ?_, ?_, ?_, ?_⟩
      · exact (Nat.le_succ _).trans hle
      · have hlen : ch₂.inMsgSeqNum - ch.inMsgSeqNum = ch₂.inMsgSeqNum - (ch.inMsgSeqNum + 1) + 1 := by omega
        rw [List.map_cons, hre.numbers, hseq, hin]
        rw [hlen, List.range'_succ]
      · intro m' hm'
        rcases List.mem_cons.1 hm' with rfl | hm'
        · exact ⟨_, hm⟩
        · obtain ⟨i, hi⟩ := hre.completed_held m' hm'
          rw [hro] at hi
          exact ⟨i, hsub hi⟩
      · intro i m' hi
        have hi' := hre.left_held hi
        rw [hro] at hi'
        exact hsub hi'
      · rw [hre.ack_eq, ← hch₁]
      · rw [hre.timer_eq, ← hch₁]
      · rw [hre.window_eq, ← hch₁]

/-- A message found at once is completed. -/
theorem Ahead.drained_lt (hk : ch.getMsgRoom (ch.inMsgSeqNum + 1) ≠ none) {fuel : Nat}
    {stale : Bool} {completed : List (Msg β)} (hdr : Drained ch ch' completed)
    (hloop : completeLoop stray (fuel + 1) (ch.inMsgSeqNum + 1) ch stale = some (ch', completed)) :
    ch.inMsgSeqNum < ch'.inMsgSeqNum := by
  obtain ⟨m, hm⟩ := Option.ne_none_iff_exists'.1 fun hc => hk (h.fits.getMsgRoom_eq_none.2 hc)
  rw [completeLoop_some hk hm] at hloop
  obtain ⟨⟨ch₂, rest⟩, -, heq⟩ := Option.map_eq_some_iff.1 hloop
  obtain ⟨rfl, rfl⟩ := Prod.mk.inj heq
  refine Nat.lt_of_le_of_ne hdr.le fun heq => ?_
  have hnu := hdr.numbers
  rw [← heq, Nat.sub_self] at hnu
  cases hnu

/-- The loop stops before a message that is missing. -/
theorem Ahead.drained_le {k : Nat} (hk : ch.getMsgRoom (ch.inMsgSeqNum + 1 + k) = none)
    {completed : List (Msg β)} (hdr : Drained ch ch' completed) :
    ch'.inMsgSeqNum ≤ ch.inMsgSeqNum + k := by
  by_contra hlt
  have hmem : ch.inMsgSeqNum + 1 + k ∈ completed.map Msg.seqNum := by
    rw [hdr.numbers, List.mem_range'_1]
    omega
  obtain ⟨m, hm, hseq⟩ := List.mem_map.1 hmem
  obtain ⟨i, hi⟩ := hdr.completed_held m hm
  have hen := h.entry_eq hi
  rw [h.fits.getMsgRoom_eq_none, ← hseq, hen, hi] at hk
  cases hk

end

/-! ## One step and the run -/

/-- An arrival that the table can tell from every other message: it was not completed before, it
is one of the 200 after the last incoming one, and when it is taken in order no copy of it is held
and the ack that closes the window is accepted. When it fills a gap, `rooms[-1]` is `NULL`. No
held message is evicted. -/
def Regular (ch : AckChannel β) : RecvAct β → Prop
  | .arrive msg accepts stray =>
    ch.inMsgSeqNum < msg.seqNum ∧ msg.seqNum ≤ ch.inMsgSeqNum + 200 ∧
      (Expected ch msg → ch.getMsgRoom msg.seqNum = none ∧
        (ch.window = msg.seqNum - ch.ackMsgSeqNum → accepts = true)) ∧
      (FillsGap ch msg → stray = false)
  | .windowTimeout _ => True
  | .evict _ => False

instance (ch : AckChannel β) : ∀ act, Decidable (Regular ch act)
  | .arrive _ _ _ => inferInstanceAs (Decidable (_ ∧ _ ∧ (_ → _ ∧ (_ → _)) ∧ (_ → _)))
  | .windowTimeout _ => isTrue trivial
  | .evict _ => isFalse id

@[simp] theorem sendAck_rooms (ch : AckChannel β) (t : AckType) (last : Nat) (accepts : Bool) :
    (sendAck ch t last accepts).1.toMsgRooms = ch.toMsgRooms := by
  cases accepts <;> rfl

@[simp] theorem sendAck_in (ch : AckChannel β) (t : AckType) (last : Nat) (accepts : Bool) :
    (sendAck ch t last accepts).1.inMsgSeqNum = ch.inMsgSeqNum := by
  cases accepts <;> rfl

theorem Ahead.channelCons (w : Nat) : Ahead (channelCons β w) where
  fits := MsgRooms.fits_empty
  entry_eq := fun hi => nomatch hi
  window := fun hi => nomatch hi

variable {ch : AckChannel β} {msg : Msg β} {accepts : Bool}

section
variable (h : Ahead ch) (hroom : ch.getMsgRoom msg.seqNum = none)
include h hroom

/-- What is held after an arrival out of order: the message itself, or what was held before. -/
theorem Ahead.held_hold (hi : (ch.hold msg).contents i = some m) :
    i = entry msg.seqNum ∧ m = msg ∨ ch.contents i = some m := by
  have hf := h.fits.getMsgRoom_eq_none.1 hroom
  rw [show (ch.hold msg).contents = _ from h.fits.contents_checkinMsg hf msg none,
    Maps.update_some_eq_some_iff] at hi
  rcases hi with ⟨hik, hm⟩ | ⟨-, hi⟩
  · exact Or.inl ⟨hik, hm.symm⟩
  · exact Or.inr hi

variable (hlo : ch.inMsgSeqNum < msg.seqNum)
include hlo

variable (hhi : msg.seqNum ≤ ch.inMsgSeqNum + 200)
include hhi

theorem Ahead.hold : Ahead (ch.hold msg) where
  fits := h.fits.checkinMsg (h.fits.getMsgRoom_eq_none.1 hroom) msg none
  entry_eq := by
    intro i m hi
    rcases h.held_hold hroom hi with ⟨rfl, rfl⟩ | hi
    · rfl
    · exact h.entry_eq hi
  window := by
    intro i m hi
    rcases h.held_hold hroom hi with ⟨rfl, rfl⟩ | hi
    · exact ⟨hlo, hhi⟩
    · exact h.window hi

/-- What the loop completes and leaves was held or is the message that just arrived. -/
theorem Ahead.exists_drain : ∃ ch' completed, ch.drain msg false = some (ch', completed) ∧
    Drained { ch.hold msg with ackMsgSeqNum := ch.inMsgSeqNum } ch' completed := by
  have hh : Ahead { ch.hold msg with ackMsgSeqNum := ch.inMsgSeqNum } :=
    (h.hold hroom hlo hhi).of_eq rfl rfl
  exact hh.drained (maxOutstandingMsgs + 1) false

theorem Ahead.drained_hold {completed : List (Msg β)}
    (hloop : ch.drain msg false = some (ch', completed)) :
    Drained { ch.hold msg with ackMsgSeqNum := ch.inMsgSeqNum } ch' completed := by
  obtain ⟨ch₁, completed₁, hloop₁, hdr⟩ := h.exists_drain hroom hlo hhi
  rw [hloop] at hloop₁
  cases hloop₁
  exact hdr

end

theorem Ahead.next (h : Ahead ch) (hnext : Expected ch msg)
    (hroom : ch.getMsgRoom msg.seqNum = none) (hro : ch'.toMsgRooms = ch.toMsgRooms)
    (hin : ch'.inMsgSeqNum = msg.seqNum) :
    Ahead ch' := by
  refine h.advance (hro ▸ h.fits) (fun hi => hro ▸ hi) ?_ (hin.trans hnext.1.symm)
  rw [hro, hnext.1]
  exact h.fits.getMsgRoom_eq_none.1 hroom

/-- What one step completes: the numbers right after the last incoming one. -/
structure InSequence (ch : AckChannel β) (r : Received β) : Prop where
  ahead : Ahead r.chan
  le : ch.inMsgSeqNum ≤ r.chan.inMsgSeqNum
  numbers : r.completed.map Msg.seqNum =
    List.range' (ch.inMsgSeqNum + 1) (r.chan.inMsgSeqNum - ch.inMsgSeqNum)

theorem InSequence.numbers_append (h : InSequence ch r) :
    List.range' 1 ch.inMsgSeqNum ++ r.completed.map Msg.seqNum =
      List.range' 1 r.chan.inMsgSeqNum := by
  rw [h.numbers, Nat.add_comm ch.inMsgSeqNum 1, List.range'_append_1, Nat.add_sub_cancel' h.le]

/-- Nothing completed, the last incoming number unchanged. -/
theorem InSequence.of_eq (hah : Ahead r.chan)
    (hin : r.chan.inMsgSeqNum = ch.inMsgSeqNum) (hno : r.completed = []) : InSequence ch r :=
  ⟨hah, hin.ge, by simp [hin, hno]⟩

theorem InSequence.of_next (hah : Ahead r.chan) (hnext : Expected ch msg)
    (hin : r.chan.inMsgSeqNum = msg.seqNum) (hone : r.completed = [msg]) : InSequence ch r := by
  have hin' : r.chan.inMsgSeqNum = ch.inMsgSeqNum + 1 := hin.trans hnext.1.symm
  exact ⟨hah, by omega, by simp [hone, hin', ← hnext.1]⟩

theorem Ahead.defined (h : Ahead ch) (hreg : Regular ch (.arrive msg accepts stray)) :
    (processMsg ch msg accepts stray).isSome := by
  obtain ⟨hlo, hhi, -, hgap⟩ := hreg
  refine processMsg_isSome fun hfill => ?_
  obtain ⟨ch', completed, hloop, -⟩ := h.exists_drain hfill.2.1 hlo hhi
  rw [hgap hfill, hloop]
  exact Option.some_ne_none _

theorem Ahead.arrive (h : Ahead ch) (hreg : Regular ch (.arrive msg accepts stray))
    (harr : Arrival ch msg accepts stray r) : InSequence ch r := by
  obtain ⟨hlo, hhi, hexp, hgap⟩ := hreg
  cases harr with
  | closesWindow hnext hw hacc | next hnext hw =>
    exact .of_next (h.next hnext (hexp hnext).1 rfl rfl) hnext rfl rfl
  | windowAckFails hnext hw hacc =>
    -- the one way in which a message taken in order is not completed
    rw [(hexp hnext).2 hw] at hacc
    cases hacc
  | duplicate hnext hroom => exact .of_eq h rfl rfl
  | opensGap hnext hroom hack =>
    have hh := h.hold hroom hlo hhi
    exact .of_eq (hh.of_eq (sendAck_rooms ..) (sendAck_in ..)) (sendAck_in ..) rfl
  | held hnext hroom hack => exact .of_eq (h.hold hroom hlo hhi) rfl rfl
  | fillsGap hfill hloop =>
    have hdr := h.drained_hold hfill.2.1 hlo hhi (hgap hfill ▸ hloop)
    refine ⟨hdr.ahead.of_eq (sendAck_rooms ..) (sendAck_in ..), ?_, ?_⟩
    · rw [sendAck_in]
      exact hdr.le
    · rw [sendAck_in]
      exact hdr.numbers

theorem Ahead.step (h : Ahead ch) {act : RecvAct β} (hreg : Regular ch act)
    (hr : receive ch act = some r) : InSequence ch r := by
  cases act with
  | arrive msg accepts stray => exact h.arrive hreg (processMsg_arrival hr)
  | windowTimeout accepts =>
    obtain ⟨-, rfl⟩ := receive_windowTimeout hr
    exact .of_eq (h.of_eq (sendAck_rooms ..) (sendAck_in ..)) (sendAck_in ..) rfl
  | evict room => cases hreg

theorem Ahead.defined_of_run {acts : List (RecvAct β)} (h : Ahead ch)
    (hreg : Along recvStep Regular ch acts) :
    Along recvStep Defined ch acts := by
  refine along_of_invariant (I := Ahead) (fun ch act hah hc => ⟨?_, fun ch' hs => ?_⟩) h hreg
  · cases act with
    | arrive msg accepts stray => exact hah.defined hc
    | windowTimeout accepts | evict room => trivial
  · obtain ⟨r, hr, rfl⟩ := Option.map_eq_some_iff.1 hs
    exact (hah.step hc hr).ahead

/-- **Completion in order.** In every run of regular arrivals nothing undefined is done, and the
receiver completes the numbers `1, 2, …` up to the last incoming one: increasing, each once, and
none before the one below it. -/
theorem completes_in_order_of_run {w : Nat} {acts : List (RecvAct β)}
    (hreg : Along recvStep Regular (channelCons β w) acts) :
    Along recvStep Defined (channelCons β w) acts ∧
      ∀ ch, run recvStep (channelCons β w) acts = some ch →
        (emitted recvStep completedBy (channelCons β w) acts).map Msg.seqNum =
        List.range' 1 ch.inMsgSeqNum := by
  refine ⟨(Ahead.channelCons w).defined_of_run hreg, fun ch hrun => ?_⟩
  have hinv := run_induction
    (I := fun p ch => run recvStep (channelCons β w) p = some ch ∧ Ahead ch ∧
      (emitted recvStep completedBy (channelCons β w) p).map Msg.seqNum =
      List.range' 1 ch.inMsgSeqNum)
    (fun p ch act ch' hI hc hs => ?_) (p := []) ⟨rfl, .channelCons w, rfl⟩ hrun hreg
  · exact hinv.2.2
  · obtain ⟨hp, hah, hdo⟩ := hI
    obtain ⟨r, hr, rfl⟩ := Option.map_eq_some_iff.1 hs
    have hseq := hah.step hc hr
    refine ⟨run_snoc hp hs, hseq.ahead, ?_⟩
    have hout : completedBy ch act = r.completed := by rw [completedBy, hr]; rfl
    rw [emitted_snoc hp, List.map_append, hdo, hout]
    exact hseq.numbers_append

/-- Message `k` arrives and the RML accepts whatever ack it causes. -/
def arrival (k : Nat) : RecvAct Unit := .arrive ⟨k, ()⟩ true false

/-- Message 3 is late; the timer then acknowledges 5. -/
def lateRun : List (RecvAct Unit) := [1, 2, 4, 3, 5].map arrival ++ [.windowTimeout true]

theorem completes_in_order_of_run_late :
    ∃ ch, run recvStep (channelCons Unit 10) lateRun = some ch ∧
      Along recvStep Regular (channelCons Unit 10) lateRun ∧ ch.inMsgSeqNum = 5 ∧
      (emitted recvStep completedBy (channelCons Unit 10) lateRun).map Msg.seqNum =
        List.range' 1 ch.inMsgSeqNum := by
  have hreg : Along recvStep Regular (channelCons Unit 10) lateRun := by decide
  obtain ⟨ch, hrun, hin⟩ : ∃ ch, run recvStep (channelCons Unit 10) lateRun = some ch ∧
    ch.inMsgSeqNum = 5 := by decide
  exact ⟨ch, hrun, hreg, hin, (completes_in_order_of_run hreg).2 ch hrun⟩

/-- Messages 1 to 199, message 1 a second time, then 202 with 200 and 201 lost, and 200 again. -/
def duplicateRun : List (RecvAct Unit) := (List.range' 1 199 ++ [1, 202, 200]).map arrival

/-- Message 1 is completed twice and 202 without 201: the copy of 1 stands under the entry of 201.
-/
theorem duplicate_completed_twice :
    (emitted recvStep completedBy (channelCons Unit 100) duplicateRun).map Msg.seqNum =
      List.range' 1 200 ++ [1, 202] := by
  decide +kernel

end Sensys.Qos
