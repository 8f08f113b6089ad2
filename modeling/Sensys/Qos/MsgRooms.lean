import Mathlib.Data.Fintype.EquivFin
import Sensys.Lib.Maps
import Sensys.Opal.Hotel
/-!
# Outstanding messages of an ack channel (`orte/mca/qos/ack/qos_ack.h`)

An ack channel keeps its outstanding messages in a hotel of 200 rooms and finds the room of a
message through a table indexed by the sequence number modulo 200.

| here | there |
| --- | --- |
| `Msg` | the part of `orte_rml_recv_t` / `orte_rml_send_t` the channel reads, and the rest as `body` |
| `MsgRooms` | the fields `outstanding_msgs` and `seq_num_to_room_num` of `orte_qos_ack_channel_t` (`qos_ack.h:49-77`); `none` is `-1` |
| `getMsgRoom`, `setMsgRoom` | `orte_qos_ack_channel_get_msg_room`, `_set_msg_room` (`qos_ack.h:82-93`) |
| `checkoutMsg`, `checkinMsg` | the calls that always stand together in `qos_ack_component.c` |

Where the table has no room for a number, a checkout reads `rooms[-1]` (`Opal/Hotel`); `stray`
says that it is not `NULL`, and `none` that nothing is known of what follows.

`contents` is the map from table entries to messages, and `Fits` the agreement of hotel and table
under which the calls act on it as a map. In a table that fits, a free entry means a free room
(`Fits.exists_free_room`).
-/
namespace Sensys.Qos

/-- `QOS_ACK_MAX_WINDOW`. -/
def maxWindow : Nat := 100

/-- `QOS_ACK_MAX_OUTSTANDING_MSGS`. -/
def maxOutstandingMsgs : Nat := maxWindow * 2

structure Msg (β : Type) where
  seqNum : Nat
  body   : β
deriving DecidableEq, Repr

abbrev Room := Fin maxOutstandingMsgs

/-- The table entry of a sequence number. -/
def entry (seqNum : Nat) : Fin maxOutstandingMsgs :=
  ⟨seqNum % maxOutstandingMsgs, Nat.mod_lt _ (by decide)⟩

structure MsgRooms (β : Type) where
  outstandingMsgs : Hotel (Msg β) maxOutstandingMsgs
  seqNumToRoomNum : Fin maxOutstandingMsgs → Option Room

namespace MsgRooms

variable {β : Type}

def empty (β : Type) : MsgRooms β where
  outstandingMsgs := .init _ _
  seqNumToRoomNum := fun _ => none

def getMsgRoom (t : MsgRooms β) (seqNum : Nat) : Option Room := t.seqNumToRoomNum (entry seqNum)

def setMsgRoom (t : MsgRooms β) (seqNum : Nat) (room : Option Room) : MsgRooms β :=
  { t with seqNumToRoomNum := Function.update t.seqNumToRoomNum (entry seqNum) room }

/-- `get_msg_room`, then `opal_hotel_checkout_and_return_occupant` on that room, with what it
writes to `occupant`. The table keeps the entry. -/
def checkoutMsg (t : MsgRooms β) (seqNum : Nat) (stray : Bool) :
    Option (MsgRooms β × Option (Msg β)) :=
  (t.outstandingMsgs.checkoutAndReturnOccupant (t.getMsgRoom seqNum) stray).map
    fun (hotel, occupant) =>
    ({ t with outstandingMsgs := hotel }, occupant)

/-- `opal_hotel_checkin`, its result ignored, then `set_msg_room`. `room` is what the variable
`room_num` holds when the hotel is full. -/
def checkinMsg (t : MsgRooms β) (seqNum : Nat) (msg : Msg β) (room : Option Room) : MsgRooms β :=
  match t.outstandingMsgs.checkin msg with
  | some (hotel, r) => { t with outstandingMsgs := hotel }.setMsgRoom seqNum (some r)
  | none => t.setMsgRoom seqNum room

/-- A checkout followed by `set_msg_room (.., -1)`. -/
def clearMsg (t : MsgRooms β) (seqNum : Nat) (stray : Bool) :
    Option (MsgRooms β × Option (Msg β)) :=
  (t.checkoutMsg seqNum stray).map fun (t, occupant) => (t.setMsgRoom seqNum none, occupant)

/-! ## The table as a map to messages -/

/-- The message a table entry leads to. -/
def contents (t : MsgRooms β) (i : Fin maxOutstandingMsgs) : Option (Msg β) :=
  (t.seqNumToRoomNum i).bind t.outstandingMsgs.rooms

/-- Table and hotel agree: different entries lead to different rooms, and a room is occupied
exactly when an entry leads to it. -/
structure Fits (t : MsgRooms β) : Prop where
  injective : ∀ {i j r}, t.seqNumToRoomNum i = some r → t.seqNumToRoomNum j = some r → i = j
  occupied : ∀ r, t.outstandingMsgs.rooms r ≠ none ↔ ∃ i, t.seqNumToRoomNum i = some r

theorem fits_empty : Fits (empty β) where
  injective := fun h => nomatch h
  occupied := fun r => by simp [empty]

variable {t : MsgRooms β} {i : Fin maxOutstandingMsgs} {k : Nat}

@[simp] theorem contents_empty (i : Fin maxOutstandingMsgs) : (empty β).contents i = none := rfl

/-- The test `get_msg_room (..) != -1` says that the entry holds a message. -/
theorem Fits.contents_eq_none (ht : Fits t) :
    t.contents i = none ↔ t.seqNumToRoomNum i = none := by
  unfold contents
  cases hi : t.seqNumToRoomNum i with
  | none => simp
  | some r =>
    have hocc := (ht.occupied r).2 ⟨i, hi⟩
    simpa using hocc

theorem Fits.getMsgRoom_eq_none (ht : Fits t) :
    t.getMsgRoom k = none ↔ t.contents (entry k) = none := ht.contents_eq_none.symm

/-- As many rooms as entries: while an entry is free, so is a room. -/
theorem Fits.exists_free_room (ht : Fits t) (hi : t.contents i = none) :
    ∃ r, t.outstandingMsgs.rooms r = none := by
  by_contra hf
  push Not at hf
  choose back hba using fun r => (ht.occupied r).1 (hf r)
  have hinj : Function.Injective back := by
    intro r r' hrr
    have := hba r'
    rw [← hrr, hba r] at this
    exact Option.some.inj this
  obtain ⟨r, rfl⟩ := (Finite.injective_iff_surjective.1 hinj) i
  rw [ht.contents_eq_none, hba r] at hi
  cases hi

/-- The converse: when every entry leads to a message, the hotel is full. -/
theorem Fits.checkin_eq_none (ht : Fits t) (hf : ∀ i, t.contents i ≠ none) (m : Msg β) :
    t.outstandingMsgs.checkin m = none := by
  rw [Hotel.checkin_eq_none_iff]
  have hroom : ∀ i, ∃ r, t.seqNumToRoomNum i = some r := fun i =>
    Option.ne_none_iff_exists'.1 fun hi => hf i (ht.contents_eq_none.2 hi)
  choose room hroom using hroom
  have hinj : Function.Injective room := by
    intro i j hij
    exact ht.injective (hroom i) (hij ▸ hroom j)
  intro r
  obtain ⟨i, rfl⟩ := (Finite.injective_iff_surjective.1 hinj) r
  exact (ht.occupied _).2 ⟨i, hroom i⟩

/-! ## A checkout where nothing goes wrong -/

/-- The room of `k` is left. -/
def vacated (t : MsgRooms β) (k : Nat) : MsgRooms β :=
  { t with outstandingMsgs := (t.getMsgRoom k).elim t.outstandingMsgs t.outstandingMsgs.checkout }

/-- The room of `k` is left and its entry cleared. -/
def cleared (t : MsgRooms β) (k : Nat) : MsgRooms β := (t.vacated k).setMsgRoom k none

/-- A checkout takes out what the entry leads to, unless it reads a stray pointer. -/
theorem checkoutMsg_eq (t : MsgRooms β) (k : Nat) (stray : Bool) :
    t.checkoutMsg k stray =
      if t.getMsgRoom k = none ∧ stray = true then none
      else some (t.vacated k, t.contents (entry k)) := by
  unfold checkoutMsg Hotel.checkoutAndReturnOccupant vacated contents
  cases hk : t.getMsgRoom k with
  | none =>
    rw [show t.seqNumToRoomNum (entry k) = none from hk]
    cases stray <;> rfl
  | some r =>
    rw [show t.seqNumToRoomNum (entry k) = some r from hk]
    simp

theorem clearMsg_eq (t : MsgRooms β) (k : Nat) (stray : Bool) :
    t.clearMsg k stray =
      if t.getMsgRoom k = none ∧ stray = true then none
      else some (t.cleared k, t.contents (entry k)) := by
  rw [clearMsg, checkoutMsg_eq]
  split <;> rfl

theorem clearMsg_false (t : MsgRooms β) (k : Nat) :
    t.clearMsg k false = some (t.cleared k, t.contents (entry k)) := by
  simp [clearMsg_eq]

theorem clearMsg_of_room {stray : Bool} (hk : t.getMsgRoom k ≠ none) :
    t.clearMsg k stray = some (t.cleared k, t.contents (entry k)) := by
  rw [clearMsg_eq, if_neg fun h => hk h.1]

theorem cleared_rooms (t : MsgRooms β) (k : Nat) :
    (t.cleared k).outstandingMsgs.rooms =
      (t.getMsgRoom k).elim t.outstandingMsgs.rooms fun r =>
      Function.update t.outstandingMsgs.rooms r none := by
  show ((t.getMsgRoom k).elim t.outstandingMsgs t.outstandingMsgs.checkout).rooms = _
  cases t.getMsgRoom k with
  | none => rfl
  | some r => exact Hotel.checkout_rooms ..

theorem cleared_table (t : MsgRooms β) (k : Nat) :
    (t.cleared k).seqNumToRoomNum = Function.update t.seqNumToRoomNum (entry k) none := rfl

section
variable (ht : Fits t)
include ht

theorem Fits.cleared (k : Nat) : Fits (t.cleared k) where
  injective := by
    intro i j r hi hj
    rw [cleared_table, Maps.update_none_eq_some_iff] at hi hj
    exact ht.injective hi.2 hj.2
  occupied := by
    intro r
    simp only [cleared_rooms, cleared_table, Maps.update_none_eq_some_iff]
    cases hk : t.getMsgRoom k with
    | none =>
      rw [Option.elim_none, ht.occupied r]
      constructor
      · rintro ⟨i, hi⟩
        refine ⟨i, ?_, hi⟩
        rintro rfl
        exact nomatch hk.symm.trans hi
      · rintro ⟨i, -, hi⟩
        exact ⟨i, hi⟩
    | some r₀ =>
      rw [Option.elim_some]
      rcases eq_or_ne r r₀ with rfl | hne
      · -- the room just left: only the cleared entry led to it
        refine iff_of_false (by simp) ?_
        rintro ⟨i, hik, hi⟩
        exact hik (ht.injective hi hk)
      · rw [Function.update_of_ne hne, ht.occupied r]
        constructor
        · rintro ⟨i, hi⟩
          refine ⟨i, ?_, hi⟩
          rintro rfl
          exact hne (Option.some.inj (hi.symm.trans hk))
        · rintro ⟨i, -, hi⟩
          exact ⟨i, hi⟩

/-- **Clearing an entry** takes its message out and leaves the others. -/
theorem Fits.contents_cleared (k : Nat) :
    (t.cleared k).contents = Function.update t.contents (entry k) none := by
  ext i m
  unfold contents
  simp only [cleared_rooms, cleared_table, Option.bind_eq_some_iff, Maps.update_none_eq_some_iff]
  cases hk : t.getMsgRoom k with
  | none => simp [and_assoc]
  | some r₀ =>
    simp only [Option.elim_some, Maps.update_none_eq_some_iff]
    constructor
    · rintro ⟨r, ⟨hik, hi⟩, -, hr⟩
      exact ⟨hik, r, hi, hr⟩
    · rintro ⟨hik, r, hi, hr⟩
      refine ⟨r, ⟨hik, hi⟩, ?_, hr⟩
      rintro rfl
      exact hik (ht.injective hi hk)

theorem Fits.of_contents_cleared {m : Msg β} (hi : (t.cleared k).contents i = some m) :
    t.contents i = some m := by
  rw [ht.contents_cleared, Maps.update_none_eq_some_iff] at hi
  exact hi.2

variable (hk : t.contents (entry k) = none)
include hk

theorem Fits.checkinMsg_eq (m : Msg β)
    (room : Option Room) :
    ∃ hotel r, t.outstandingMsgs.rooms r = none ∧
      hotel.rooms = Function.update t.outstandingMsgs.rooms r (some m) ∧
      t.checkinMsg k m room = { t with outstandingMsgs := hotel }.setMsgRoom k (some r) := by
  unfold checkinMsg
  cases hc : t.outstandingMsgs.checkin m with
  | none =>
    obtain ⟨r, hr⟩ := ht.exists_free_room hk
    exact absurd hr (Hotel.checkin_eq_none_iff.1 hc r)
  | some p =>
    obtain ⟨hotel, r⟩ := p
    obtain ⟨hr, hro⟩ := Hotel.checkin_spec hc
    exact ⟨hotel, r, hr, hro, rfl⟩

theorem Fits.checkinMsg (m : Msg β)
    (room : Option Room) : Fits (t.checkinMsg k m room) := by
  obtain ⟨hotel, r₀, hr₀, hro, heq⟩ := ht.checkinMsg_eq hk m room
  have hf : ∀ {i}, t.seqNumToRoomNum i ≠ some r₀ := fun {i} hi => (ht.occupied r₀).2 ⟨i, hi⟩ hr₀
  have hta : (t.checkinMsg k m room).seqNumToRoomNum =
      Function.update t.seqNumToRoomNum (entry k) (some r₀) := by rw [heq]; rfl
  have hocc : (t.checkinMsg k m room).outstandingMsgs.rooms =
      Function.update t.outstandingMsgs.rooms r₀ (some m) := by rw [heq]; exact hro
  refine ⟨?_, ?_⟩
  · intro i j r hi hj
    rw [hta, Maps.update_some_eq_some_iff] at hi hj
    rcases hi with ⟨rfl, rfl⟩ | ⟨-, hi⟩ <;> rcases hj with ⟨rfl, hj⟩ | ⟨-, hj⟩
    · rfl
    · exact absurd hj hf
    · exact absurd (hj ▸ hi) hf
    · exact ht.injective hi hj
  · intro r
    simp only [hocc, hta, Maps.update_some_eq_some_iff]
    rcases eq_or_ne r r₀ with rfl | hne
    · exact iff_of_true (by simp) ⟨entry k, Or.inl ⟨rfl, rfl⟩⟩
    · rw [Function.update_of_ne hne, ht.occupied r]
      constructor
      · rintro ⟨i, hi⟩
        refine ⟨i, Or.inr ⟨?_, hi⟩⟩
        rintro rfl
        rw [ht.contents_eq_none, hi] at hk
        cases hk
      · rintro ⟨i, ⟨-, rfl⟩ | ⟨-, hi⟩⟩
        · exact absurd rfl hne
        · exact ⟨i, hi⟩

/-- **Checking a message in** under a free entry puts it there and leaves the others. -/
theorem Fits.contents_checkinMsg (m : Msg β)
    (room : Option Room) :
    (t.checkinMsg k m room).contents = Function.update t.contents (entry k) (some m) := by
  obtain ⟨hotel, r₀, hr₀, hro, heq⟩ := ht.checkinMsg_eq hk m room
  ext1 i
  rw [heq]
  show (Function.update t.seqNumToRoomNum (entry k) (some r₀) i).bind hotel.rooms = _
  rw [hro]
  by_cases hik : i = entry k
  · subst hik
    simp
  · rw [Function.update_of_ne hik, Function.update_of_ne hik]
    unfold contents
    cases hi : t.seqNumToRoomNum i with
    | none => rfl
    | some r =>
      have hne : r ≠ r₀ := by
        rintro rfl
        exact (ht.occupied r).2 ⟨i, hi⟩ hr₀
      simp [hne]

end

/-- A check-in overwrites the entry, so clearing it first changes nothing. -/
theorem checkinMsg_vacated (t : MsgRooms β) (k : Nat) (m : Msg β) (room : Option Room) :
    (t.vacated k).checkinMsg k m room = (t.cleared k).checkinMsg k m room := by
  have hset : ∀ (t : MsgRooms β) (room room' : Option Room),
      (t.setMsgRoom k room).setMsgRoom k room' = t.setMsgRoom k room' := by
    intro t room room'
    simp [setMsgRoom]
  unfold checkinMsg
  show _ = match (t.vacated k).outstandingMsgs.checkin m with
    | some (hotel, r) => _
    | none => _
  cases (t.vacated k).outstandingMsgs.checkin m with
  | none => exact (hset _ _ _).symm
  | some p => exact (hset { t.vacated k with outstandingMsgs := p.1 } none (some p.2)).symm

end MsgRooms

theorem entry_inj_iff {a b : Nat} : entry a = entry b ↔ a % 200 = b % 200 := by
  simp [entry, Fin.ext_iff, maxOutstandingMsgs, maxWindow]

/-- Within 200 consecutive numbers, each has its own entry. -/
theorem entry_inj {lo a b : Nat} (ha : lo < a) (ha' : a ≤ lo + 200) (hb : lo < b)
    (hb' : b ≤ lo + 200) (h : entry a = entry b) : a = b := by
  rw [entry_inj_iff] at h
  omega

/-- Every entry belongs to one of the 200 numbers above `lo`. -/
theorem exists_entry (lo : Nat) (i : Fin maxOutstandingMsgs) :
    ∃ k, lo < k ∧ k ≤ lo + 200 ∧ entry k = i := by
  have hi : i.val < 200 := i.isLt
  -- the least number above `lo` that is `i` modulo 200
  refine ⟨lo + 1 + (i.val + 200 - (lo + 1) % 200) % 200, by omega, by omega, ?_⟩
  rw [Fin.ext_iff]
  show (lo + 1 + (i.val + 200 - (lo + 1) % 200) % 200) % 200 = i.val
  omega

end Sensys.Qos
