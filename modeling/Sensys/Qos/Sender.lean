import Sensys.Qos.AckChannel
/-!
# What an ack does to the sender's table

The sender keeps the messages it may have to send again. `Outstanding t p sent` says that these
are exactly the sent messages above the acknowledged number `p`, each under its own entry.
`Covers` lists the acks that a sender in that state can read: the numbers above `p` up to some `q`
in order, the last of them perhaps repeated, or, in an out-of-order ack, followed by one number
beyond a gap.
-/
namespace Sensys.Qos
open List

variable {β : Type} {a : Ack} {m : Msg β} {k : Nat}

/-- The messages sent so far: number `k` is the `k`-th. -/
def Numbered (sent : List (Msg β)) : Prop := sent.map Msg.seqNum = List.range' 1 sent.length

section
variable {sent : List (Msg β)} (h : Numbered sent)
include h

theorem Numbered.bounds (hm : m ∈ sent) : 1 ≤ m.seqNum ∧ m.seqNum ≤ sent.length := by
  have hmem := mem_map_of_mem (f := Msg.seqNum) hm
  rw [h, mem_range'_1] at hmem
  omega

theorem Numbered.exists_mem (hk : 1 ≤ k) (hk' : k ≤ sent.length) :
    ∃ m ∈ sent, m.seqNum = k := by
  have hmem : k ∈ sent.map Msg.seqNum := by
    rw [h, mem_range'_1]
    omega
  exact mem_map.1 hmem

theorem Numbered.eq_of_seqNum {m m' : Msg β} (hm : m ∈ sent) (hm' : m' ∈ sent)
    (heq : m.seqNum = m'.seqNum) : m = m' := by
  have hno : (sent.map Msg.seqNum).Nodup := by
    rw [h]
    exact nodup_range'
  exact inj_on_of_nodup_map hno hm hm' heq

theorem Numbered.snoc (hm : m.seqNum = sent.length + 1) : Numbered (sent ++ [m]) := by
  show (sent ++ [m]).map Msg.seqNum = _
  rw [map_append, h, length_append, length_singleton, range'_1_concat, map_singleton, hm,
    Nat.add_comm 1]

end

structure Outstanding (t : MsgRooms β) (p : Nat) (sent : List (Msg β)) : Prop where
  fits : t.Fits
  span : sent.length ≤ p + 200
  contents_iff : ∀ {i m}, t.contents i = some m ↔ m ∈ sent ∧ p < m.seqNum ∧ entry m.seqNum = i

namespace Outstanding

variable {t : MsgRooms β} {p : Nat} {sent : List (Msg β)} {t : MsgRooms β}

section
variable (h : Outstanding t p sent)
include h

/-- The entry of an outstanding number holds its message. -/
theorem exists_contents (hnum : Numbered sent) (hk : p < k)
    (hk' : k ≤ sent.length) : ∃ m ∈ sent, m.seqNum = k ∧ t.contents (entry k) = some m := by
  obtain ⟨m, hm, hseq⟩ := hnum.exists_mem (by omega) hk'
  refine ⟨m, hm, hseq, h.contents_iff.2 ⟨hm, by omega, by rw [hseq]⟩⟩

theorem getMsgRoom_ne_none (hm : t.contents (entry k) = some m) : t.getMsgRoom k ≠ none := by
  rw [Ne, h.fits.getMsgRoom_eq_none, hm]
  exact Option.some_ne_none m

/-- **Acknowledging the next number** takes its message out. -/
theorem clear_next (hnum : Numbered sent) (hp : p + 1 ≤ sent.length) (stray : Bool) :
    ∃ m ∈ sent, m.seqNum = p + 1 ∧ t.clearMsg (p + 1) stray = some (t.cleared (p + 1), some m) ∧
      Outstanding (t.cleared (p + 1)) (p + 1) sent := by
  obtain ⟨m, hm, hseq, hco⟩ := h.exists_contents hnum (Nat.lt_succ_self p) hp
  refine ⟨m, hm, hseq, ?_, h.fits.cleared _, by have := h.span; omega, ?_⟩
  · rw [MsgRooms.clearMsg_of_room (h.getMsgRoom_ne_none hco), hco]
  · intro i m'
    rw [h.fits.contents_cleared, Maps.update_none_eq_some_iff, h.contents_iff]
    have hsp := h.span
    constructor
    · rintro ⟨hi, hm', hlt, rfl⟩
      have hne : m'.seqNum ≠ p + 1 := fun heq => hi (by rw [heq])
      exact ⟨hm', by omega, rfl⟩
    · rintro ⟨hm', hlt, rfl⟩
      -- a later message under the same entry would be 200 numbers away
      have hle := (hnum.bounds hm').2
      refine ⟨fun hen => ?_, hm', by omega, rfl⟩
      have := entry_inj (show p < m'.seqNum by omega) (by omega) (Nat.lt_succ_self p) (by omega) hen
      omega

/-- **The number just acknowledged, once more**: its entry is free, and nothing happens. -/
theorem clear_repeated (hnum : Numbered sent) (hsp : sent.length < p + 200) :
    t.getMsgRoom p = none ∧ t.contents (entry p) = none ∧ Outstanding (t.cleared p) p sent := by
  have hf : t.contents (entry p) = none := by
    by_contra hne
    obtain ⟨m, hm⟩ := Option.ne_none_iff_exists'.1 hne
    obtain ⟨hse, hlt, hen⟩ := h.contents_iff.1 hm
    have hle := (hnum.bounds hse).2
    rw [entry_inj_iff] at hen
    omega
  refine ⟨h.fits.getMsgRoom_eq_none.2 hf, hf, h.fits.cleared _, h.span, ?_⟩
  rw [h.fits.contents_cleared, Function.update_eq_self_iff.2 hf.symm]
  exact h.contents_iff

theorem recheck (hm : t.contents (entry k) = some m) (room : Option Room) :
    Outstanding ((t.cleared k).checkinMsg k m room) p sent := by
  have hco := h.fits.contents_cleared k
  have hf : (t.cleared k).contents (entry k) = none := by rw [hco, Function.update_self]
  refine ⟨(h.fits.cleared k).checkinMsg hf m room, h.span, ?_⟩
  rw [(h.fits.cleared k).contents_checkinMsg hf, hco, Function.update_idem,
    Function.update_eq_self_iff.2 hm.symm]
  exact h.contents_iff

/-- The next message is sent: with a free room it is at most the 200th outstanding one. -/
theorem send (hnum : Numbered sent) (hm : m.seqNum = sent.length + 1)
    (hp : p ≤ sent.length) (hroom : t.outstandingMsgs.checkin m ≠ none) :
    Outstanding (t.checkinMsg m.seqNum m none) p (sent ++ [m]) := by
  have hsp : sent.length + 1 ≤ p + 200 := by
    by_contra hl
    refine hroom (h.fits.checkin_eq_none (fun i hi => ?_) m)
    obtain ⟨k, hk, hk', rfl⟩ := exists_entry p i
    obtain ⟨m', _, _, hm'⟩ := h.exists_contents hnum hk (by omega)
    rw [hi] at hm'
    cases hm'
  have hf : t.contents (entry m.seqNum) = none := by
    by_contra hne
    obtain ⟨m', hm'⟩ := Option.ne_none_iff_exists'.1 hne
    obtain ⟨hse, hlt, hen⟩ := h.contents_iff.1 hm'
    have hle := (hnum.bounds hse).2
    have := entry_inj hlt (by omega) (show p < m.seqNum by omega) (by omega) hen
    omega
  refine ⟨h.fits.checkinMsg hf m none, by simpa using hsp, ?_⟩
  intro i m'
  rw [h.fits.contents_checkinMsg hf, Maps.update_some_eq_some_iff, h.contents_iff, mem_append,
    mem_singleton]
  constructor
  · rintro (⟨rfl, rfl⟩ | ⟨-, hm', hlt, hen⟩)
    · exact ⟨Or.inr rfl, by omega, rfl⟩
    · exact ⟨Or.inl hm', hlt, hen⟩
  · rintro ⟨hm' | rfl, hlt, hen⟩
    · have hc := h.contents_iff.2 ⟨hm', hlt, hen⟩
      refine Or.inr ⟨?_, hm', hlt, hen⟩
      rintro rfl
      exact nomatch hf.symm.trans hc
    · exact Or.inl ⟨hen.symm, rfl⟩

end

/-! ## The loops of `process_ack` -/

variable (hnum : Numbered sent) (stray : Bool)
include hnum

/-- The loop of an ack in order, over consecutive numbers and whatever follows them. -/
theorem completeAcked_range (n : Nat) (rest : List Nat) {p : Nat}
    (h : Outstanding t p sent) (hn : p + n ≤ sent.length) (stale : Bool) :
    ∃ t' stale' completed, Outstanding t' (p + n) sent ∧
      (∀ m ∈ completed, m ∈ sent ∧ m.seqNum ≤ p + n) ∧
      completeAcked stray (List.range' (p + 1) n ++ rest) t stale =
        (completeAcked stray rest t' stale').map fun (t'', more) => (t'', completed ++ more) := by
  induction n generalizing t p stale with
  | zero => exact ⟨t, stale, [], h, by simp, by simp⟩
  | succ n ih =>
    obtain ⟨m, hm, hseq, hout, hnext⟩ := h.clear_next hnum (by omega) stray
    obtain ⟨t', stale', completed, hre, hco, heq⟩ := ih hnext (by omega) true
    rw [show p + 1 + n = p + (n + 1) by omega] at hre hco
    refine ⟨t', stale', m :: completed, hre, forall_mem_cons.2 ⟨⟨hm, by omega⟩, hco⟩, ?_⟩
    rw [range'_succ, cons_append, completeAcked]
    simp only [hout, heq, Option.map_map, Function.comp_def, cons_append]

theorem resendMissed_range (n : Nat) {first : Nat}
    (h : Outstanding t p sent) (hlo : p < first) (hhi : first + n ≤ sent.length + 1) :
    ∃ t' resent, resendMissed stray n first t = some (t', resent) ∧ Outstanding t' p sent ∧
      (∀ m ∈ resent, m ∈ sent) ∧ resent.map Msg.seqNum = List.range' first n := by
  induction n generalizing t first with
  | zero => exact ⟨t, [], rfl, h, by simp, rfl⟩
  | succ n ih =>
    obtain ⟨m, hm, hseq, hco⟩ := h.exists_contents hnum hlo (by omega)
    have hout : t.checkoutMsg first stray = some (t.vacated first, some m) := by
      rw [MsgRooms.checkoutMsg_eq, if_neg fun hno => h.getMsgRoom_ne_none hco hno.1, hco]
    obtain ⟨t', resent, heq, hre, hse, hnu⟩ :=
      ih (h.recheck hco (t.getMsgRoom first)) (show p < first + 1 by omega) (by omega)
    refine ⟨t', m :: resent, ?_, hre, forall_mem_cons.2 ⟨hm, hse⟩, ?_⟩
    · rw [resendMissed]
      simp only [hout, MsgRooms.checkinMsg_vacated, heq, Option.map_some]
    · rw [map_cons, hnu, hseq, range'_succ]

/-- The last number of an out-of-order ack, beyond a gap: its message stays, and those in the gap
are sent again. -/
theorem completeOutOfOrder_gap (h : Outstanding t p sent) {last : Nat} (hgap : p + 2 ≤ last)
    (hlast : last ≤ sent.length) (stale : Bool) :
    ∃ r, completeOutOfOrder stray (some p) [last] t stale = some r ∧ Outstanding r.rooms p sent ∧
      r.completed = [] ∧
      (∀ m ∈ r.resent, m ∈ sent) ∧
      r.resent.map Msg.seqNum = List.range' (p + 1) (last - (p + 1)) := by
  obtain ⟨m, hm, hseq, hco⟩ := h.exists_contents hnum (show p < last by omega) hlast
  have hout : t.clearMsg last stray = some (t.cleared last, some m) := by
    rw [MsgRooms.clearMsg_of_room (h.getMsgRoom_ne_none hco), hco]
  have hgap' : ¬last = p + 1 := by omega
  obtain ⟨t', resent, heq, hre, hse, hnu⟩ :=
    resendMissed_range hnum stray (last - (p + 1)) (h.recheck hco (t.getMsgRoom last))
      (Nat.lt_succ_self p) (by omega)
  refine ⟨⟨t', [], resent⟩, ?_, hre, rfl, hse, hnu⟩
  simp only [completeOutOfOrder, hout, Option.all_some, hgap', decide_false,
    Bool.false_eq_true, if_false, Option.getD_some, heq, Option.map_some, append_nil]

/-- The loop of an out-of-order ack over consecutive numbers and one beyond a gap. `prev` is the
number before, if the loop has seen one. -/
theorem completeOutOfOrder_range (n : Nat) {last : Nat} (hlast : last ≤ sent.length) {p : Nat}
    (h : Outstanding t p sent) (hgap : p + n + 2 ≤ last) (stale : Bool)
    {prev : Option Nat} (hpr : prev = some p ∨ prev = none ∧ 0 < n) :
    ∃ r, completeOutOfOrder stray prev (range' (p + 1) n ++ [last]) t stale = some r ∧
      Outstanding r.rooms (p + n) sent ∧ (∀ m ∈ r.completed, m ∈ sent ∧ m.seqNum ≤ p + n) ∧
      (∀ m ∈ r.resent, m ∈ sent) ∧
      r.resent.map Msg.seqNum = range' (p + n + 1) (last - (p + n + 1)) := by
  induction n generalizing t p stale prev with
  | zero =>
    obtain rfl : prev = some p := hpr.resolve_right fun hp => absurd hp.2 (Nat.lt_irrefl 0)
    obtain ⟨r, heq, hre, hno, hse, hnu⟩ := h.completeOutOfOrder_gap hnum stray hgap hlast stale
    exact ⟨r, heq, hre, by simp [hno], hse, hnu⟩
  | succ n ih =>
    obtain ⟨m, hm, hseq, hout, hnext⟩ := h.clear_next hnum (by omega) stray
    have hrec := ih hnext (by omega) true (Or.inl rfl)
    rw [show p + 1 + n = p + (n + 1) by omega] at hrec
    obtain ⟨r, heq, hre, hco, hse, hnu⟩ := hrec
    have hall : prev.all (fun q => decide (p + 1 = q + 1)) = true := by
      rcases hpr with rfl | ⟨rfl, _⟩ <;> simp
    refine ⟨{ r with completed := m :: r.completed }, ?_, hre,
      forall_mem_cons.2 ⟨⟨hm, by omega⟩, hco⟩, hse, hnu⟩
    rw [range'_succ, cons_append, completeOutOfOrder]
    simp only [hout, hall, if_true, heq, Option.map_some]

end Outstanding

/-! ## The acks a sender can read -/

/-- An ack for `n` sent messages that takes the acknowledged number from `p` to `q`. -/
inductive Covers (n : Nat) : Ack → Nat → Nat → Prop
  | upTo {type : AckType} {p q : Nat} (htype : type ≠ .outOfOrder) (hpq : p < q) (hq : q ≤ n) :
      Covers n ⟨type, List.range' (p + 1) (q - p)⟩ p q
  | repeatsLast {type : AckType} {p q : Nat} (htype : type ≠ .outOfOrder) (hpq : p < q)
      (hq : q ≤ n) :
      Covers n ⟨type, List.range' (p + 1) (q - p) ++ [q]⟩ p q
  | beyondGap {p q last : Nat} (hpq : p < q) (hgap : q + 2 ≤ last) (hlast : last ≤ n) :
      Covers n ⟨.outOfOrder, List.range' (p + 1) (q - p) ++ [last]⟩ p q

theorem Covers.lt {n p q : Nat} (h : Covers n a p q) : p < q := by
  cases h <;> assumption

theorem Covers.mono {n n' p q : Nat} (h : Covers n a p q) (hn : n ≤ n') : Covers n' a p q := by
  cases h with
  | upTo htype hpq hq => exact .upTo htype hpq (hq.trans hn)
  | repeatsLast htype hpq hq => exact .repeatsLast htype hpq (hq.trans hn)
  | beyondGap hpq hgap hlast => exact .beyondGap hpq hgap (hlast.trans hn)

/-- What `process_ack` did, for an ack that takes the acknowledged number to `q`. -/
structure Answered (r : Acked β) (a : Ack) (q : Nat) (sent : List (Msg β)) : Prop where
  outstanding : Outstanding r.rooms q sent
  completed : ∀ m ∈ r.completed, m ∈ sent ∧ m.seqNum ≤ q
  resent_sent : ∀ m ∈ r.resent, m ∈ sent
  /-- Every message between `q` and a number the ack lists. -/
  resent : ∀ m ∈ sent, q < m.seqNum → ∀ k ∈ a.seqNums, m.seqNum < k → m ∈ r.resent

/-- **One ack**, of at most `window` numbers. -/
theorem Outstanding.processAck {ch : AckChannel β} {p q : Nat} {sent : List (Msg β)}
    (h : Outstanding ch.toMsgRooms p sent) (hnum : Numbered sent) (hc : Covers sent.length a p q)
    (hlen : a.seqNums.length ≤ ch.window) :
    ∃ r, processAck ch a false = some r ∧ Answered r a q sent := by
  rw [Qos.processAck, if_neg (Nat.not_lt.2 hlen)]
  -- a listed number is at most `q`, except the one beyond the gap
  have hra : ∀ {m : Msg β} {k : Nat}, k ∈ range' (p + 1) (q - p) → q < m.seqNum →
      m.seqNum < k → False := by
    intro m k hk hlt hlt'
    rw [mem_range'_1] at hk
    omega
  have hlt := hc.lt
  have hq : p + (q - p) = q := by omega
  cases hc with
  | upTo htype hpq hle =>
    obtain ⟨t', stale, completed, hre, hco, heq⟩ :=
      completeAcked_range hnum false (q - p) [] h (by omega) false
    rw [append_nil] at heq
    rw [hq] at hre hco
    rw [if_pos htype, heq, completeAcked]
    exact ⟨_, rfl, hre, by simpa using hco, by simp, fun m hm hqm k hk hmk => (hra hk hqm hmk).elim⟩
  | repeatsLast htype hpq hle =>
    obtain ⟨t', stale, completed, hre, hco, heq⟩ :=
      completeAcked_range hnum false (q - p) [q] h (by omega) false
    rw [hq] at hre hco
    obtain ⟨hroom, hnone, hre'⟩ := hre.clear_repeated hnum (by have := h.span; omega)
    have hone : completeAcked false [q] t' stale = some (t'.cleared q, []) := by
      simp [completeAcked, MsgRooms.clearMsg_false, hnone, hroom]
    rw [if_pos htype, heq, hone]
    refine ⟨_, rfl, hre', by simpa using hco, by simp, fun m hm hqm k hk hmk => ?_⟩
    rcases mem_append.1 hk with hk | hk
    · exact (hra hk hqm hmk).elim
    · rw [mem_singleton] at hk
      omega
  | beyondGap hpq hgap hlast =>
    rename_i last
    obtain ⟨r, heq, hre, hco, hse, hnu⟩ :=
      completeOutOfOrder_range hnum false (q - p) hlast h (by omega) false (Or.inr ⟨rfl, by omega⟩)
    rw [hq] at hre hco hnu
    refine ⟨r, heq, hre, hco, hse, fun m hm hqm k hk hmk => ?_⟩
    have hml : m.seqNum < last := by
      rcases mem_append.1 hk with hk | hk
      · exact (hra hk hqm hmk).elim
      · rw [mem_singleton] at hk
        omega
    have hmem : m.seqNum ∈ range' (q + 1) (last - (q + 1)) := by
      rw [mem_range'_1]
      omega
    rw [← hnu] at hmem
    obtain ⟨m', hm', hseq⟩ := mem_map.1 hmem
    rwa [← hnum.eq_of_seqNum (hse m' hm') hm hseq]

end Sensys.Qos
