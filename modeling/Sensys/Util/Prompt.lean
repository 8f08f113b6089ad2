import Mathlib.Data.List.Chain
import Sensys.Lib.Run
import Sensys.Opal.Argv
import Sensys.Util.Cli
/-!
# Editing a command (`orcm/util/cli.c`)

| here | there |
| --- | --- |
| `Prompt` | what `orcm_cli_get_cmd` (`:172-232`) keeps: the array `input`, `j`, `space` and `scroll_indx` |
| `Prompt.add` | `add_char_to_input_array` (`:466-474`) |
| `Prompt.complete` | `orcm_cli_handle_auto_completion` (`:387-464`); no result where it uses a list that has been freed |
| `press` | the loop for one key, with the other handlers (`:287-385`) |
| `getCmd` | `:172-232`, once the line is ended |
-/
namespace Sensys.Cli
open Orte Opal Run List

structure Prompt where
  input : List Char
  len   : Nat
  space : Bool
  indx  : Nat

inductive Key where
  | tab
  | space
  | backspace
  | arrow (a : Arrow)
  | help
  | other (c : Char)

def Prompt.new (h : History) : Prompt := ⟨replicate 1024 '\x00', 0, false, h.count⟩

def Prompt.line (p : Prompt) : Text := p.input.takeWhile (· ≠ '\x00')

def Prompt.add (p : Prompt) (c : Char) : Prompt :=
  if p.len + 1 < 1024 then
    { p with input := (p.input.set p.len c).set (p.len + 1) '\x00', len := p.len + 1 }
  else p

/-- The last character is a space. -/
def Prompt.spaced (p : Prompt) : Bool := p.input[p.len - 1]? = some ' '

def Prompt.complete (cmds : List Cmd) (p : Prompt) : Option Prompt :=
  match getCompletions cmds (argvSplit ' ' p.line) with
  | .freed => none
  | .notFound | .offered [] => some p
  | .offered [name] =>
    match (argvSplit ' ' p.line).getLast? with
    | none => some p
    | some word =>
      let (p, k) :=
        if p.spaced then (p, 0) else if word.isPrefixOf name then (p, word.length)
        else (p.add ' ', 0)
      some { ((name.drop k).foldl add p).add ' ' with space := true }
  | .offered _ => some (if p.len ≠ 0 ∧ p.spaced = false then p.add ' ' else p)

def press (cmds : List Cmd) (h : History) (p : Prompt) : Key → Option Prompt
  | .tab => p.complete cmds
  | .space => some (if p.len = 0 ∨ p.space = true then p else { p.add ' ' with space := true })
  | .backspace =>
    if p.len = 0 then some { p with space := false }
    else
      let p := { p with input := p.input.set (p.len - 1) '\x00', len := p.len - 1 }
      some { p with space := 0 < p.len && p.spaced }
  | .arrow a =>
    match scroll h p.indx a with
    | none => some p
    | some (indx, t) =>
      some { p with indx, input := t ++ '\x00' :: p.input.drop (t.length + 1), len := t.length }
  | .help => some p
  | .other c =>
    some (if p.len = 1024 then { p with space := false } else { p with space := false }.add c)

/-! ## What the line is to be -/

/-- It does not start with a space and does not have two in a row. -/
def Tidy (t : Text) : Prop := (' ' :: t).IsChain fun a b => a = ' ' → b ≠ ' '

instance : DecidablePred Tidy := fun _ => inferInstanceAs (Decidable (List.IsChain ..))

/-- The array holds the tidy line `t`, which ends at the recorded length. -/
structure Prompt.Holds (p : Prompt) (t : Text) : Prop where
  input  : ∃ rest, p.input = t ++ '\x00' :: rest
  size   : p.input.length = 1024
  len_eq : p.len = t.length
  ends   : '\x00' ∉ t
  tidy   : Tidy t

/-- The flag says whether the line ends in a space. -/
def Prompt.Right (p : Prompt) : Prop := ∃ t, p.Holds t ∧ (p.space = true ↔ t.getLast? = some ' ')

/-- A line that may be in the history. -/
structure IsLine (t : Text) : Prop where
  short : t.length < 1024
  ends  : '\x00' ∉ t
  tidy  : Tidy t

/-- The rows of the array are such lines. -/
structure History.Lined (h : History) : Prop where
  size : h.hist.length = 15
  rows : ∀ t ∈ h.hist, IsLine t

/-- The flag is what it is to be for the row; behind the last one the line is empty. -/
def Prompt.Flagged (p : Prompt) (h : History) (row : Nat) : Prop :=
  p.space = true ↔ (h.hist.getD row []).getLast? = some ' '

/-- The key does not use a list of completions that has been freed. -/
def Usable (cmds : List Cmd) (p : Prompt) : Key → Prop
  | .tab => getCompletions cmds (argvSplit ' ' p.line) ≠ .freed
  | _ => True

/-- A key that keeps the line right. -/
def Fine (cmds : List Cmd) (h : History) (p : Prompt) : Key → Prop
  | .tab =>
    match getCompletions cmds (argvSplit ' ' p.line) with
    | .offered [name] => name ≠ [] ∧ '\x00' ∉ name ∧ ' ' ∉ name ∧ p.len + name.length < 1022
    | .offered (_ :: _ :: _) => p.len = 0 ∨ p.space = true
    | .notFound | .offered [] => True
    | .freed => False
  | .space => p.len < 1023 ∨ p.space = true
  | .arrow .up => h.count ≠ 0 → p.indx ≠ 0 → p.Flagged h (p.indx - 1)
  | .arrow .down => p.indx < h.count → p.Flagged h (p.indx + 1)
  | .other c => c ≠ '\x00' ∧ c ≠ ' ' ∧ (p.len < 1023 ∨ p.space = false)
  | .backspace | .help => True

variable {p q : Prompt} {t s : Text} {c : Char}

/-- A space may come behind the text. -/
def Open (t : Text) : Prop := t ≠ [] ∧ t.getLast? ≠ some ' '

theorem Tidy.append (h : Tidy t) (hc : c = ' ' → Open t) : Tidy (t ++ [c]) := by
  refine IsChain.append h (isChain_singleton c) ?_
  rintro _ hx _ ⟨⟩ rfl rfl
  obtain ⟨hne, hlast⟩ := hc rfl
  rw [Option.mem_def, getLast?_cons_of_ne_nil hne] at hx
  exact hlast hx

namespace Prompt.Holds
variable (h : p.Holds t)
include h

theorem flag (space : Bool) : { p with space }.Holds t := { h with }

theorem add (hc : c ≠ '\x00') (hsp : c = ' ' → Open t) (hlen : p.len < 1023) :
    (p.add c).Holds (t ++ [c]) := by
  obtain ⟨rest, hin⟩ := h.input
  have hs := h.size
  have hl := h.len_eq
  rw [hin, length_append, length_cons] at hs
  obtain ⟨r, rest, rfl⟩ := exists_cons_of_ne_nil (ne_nil_of_length_pos (by omega : 0 < rest.length))
  have hadd : p.add c = { p with input := t ++ [c] ++ '\x00' :: rest, len := p.len + 1 } := by
    rw [Prompt.add, if_pos (by omega), hl, hin]
    simp
  rw [hadd]
  exact ⟨⟨rest, rfl⟩, by simpa using hs, by simp [hl], by simp [h.ends, hc.symm], h.tidy.append hsp⟩

theorem foldl_add (hs : '\x00' ∉ s) (hsp : ' ' ∉ s) (hlen : p.len + s.length < 1024) :
    (s.foldl Prompt.add p).Holds (t ++ s) := by
  induction s generalizing p t with
  | nil => simpa using h
  | cons c s ih =>
    rw [mem_cons, not_or] at hs hsp
    rw [length_cons] at hlen
    have hadd := h.add (Ne.symm hs.1) (fun hc => absurd hc.symm hsp.1) (by omega)
    have hnext : (p.add c).len = p.len + 1 := by rw [hadd.len_eq, h.len_eq, length_append]; rfl
    simpa using ih hadd hs.2 hsp.2 (by omega)

theorem spaced (hne : t ≠ []) : p.spaced = true ↔ t.getLast? = some ' ' := by
  obtain ⟨rest, hin⟩ := h.input
  have hpos := length_pos_of_ne_nil hne
  rw [Prompt.spaced, hin, h.len_eq, getElem?_append_left (by omega), getLast?_eq_getElem?,
    decide_eq_true_iff]

theorem line : p.line = t := by
  obtain ⟨rest, hin⟩ := h.input
  rw [Prompt.line, hin, Text.takeWhile_append_cons (Text.decide_ne_of_notMem h.ends) (by simp)]

/-- A text and a space are added. -/
theorem right (hs : '\x00' ∉ s) (hsp : ' ' ∉ s) (hlen : p.len + s.length < 1023)
    (hopen : s = [] → Open t) :
    { (s.foldl Prompt.add p).add ' ' with space := true }.Right := by
  have hall := h.foldl_add hs hsp (by omega)
  have hback : Open (t ++ s) := by
    obtain rfl | hne := eq_or_ne s []
    · simpa using hopen rfl
    · exact ⟨by simp [hne],
        fun hl => hsp (mem_of_getLast? (by rwa [getLast?_append_of_ne_nil _ hne] at hl))⟩
  have hadd :=
    hall.add (c := ' ') (by decide) (fun _ => hback)
    (by rw [hall.len_eq, length_append, ← h.len_eq]; exact hlen)
  exact ⟨_, hadd.flag true, by simp⟩

end Prompt.Holds

variable {cmds : List Cmd} {h : History} {keys : List Key} {key : Key}

theorem exists_press (hu : Usable cmds p key) : ∃ q, press cmds h p key = some q := by
  cases key with
  | tab =>
    simp only [Usable] at hu
    simp only [press, Prompt.complete]
    rcases hc : getCompletions cmds (argvSplit ' ' p.line) with _ |
      (_ | ⟨name, _ | ⟨other, names⟩⟩) | _
    · exact ⟨_, rfl⟩
    · exact ⟨_, rfl⟩
    · cases (argvSplit ' ' p.line).getLast? <;> exact ⟨_, rfl⟩
    · exact ⟨_, rfl⟩
    · exact absurd hc hu
  | backspace =>
    simp only [press]
    split_ifs <;> exact ⟨_, rfl⟩
  | arrow a =>
    simp only [press]
    cases scroll h p.indx a <;> exact ⟨_, rfl⟩
  | space | help | other c => exact ⟨_, rfl⟩

theorem Fine.usable (hf : Fine cmds h p key) : Usable cmds p key := by
  cases key with
  | tab =>
    intro hc
    simp [Fine, hc] at hf
  | space | backspace | arrow a | help | other c => trivial

/-- A row that is recalled. -/
theorem History.Lined.row (hh : h.Lined) (row : Nat) : IsLine (h.hist.getD row []) := by
  rw [getD_eq_getElem?_getD]
  cases hr : h.hist[row]? with
  | none => exact ⟨by decide, not_mem_nil, isChain_singleton _⟩
  | some t => exact hh.rows t (mem_of_getElem? hr)

/-- What an arrow recalls is a row, and the flag has been asked to be that of the row. -/
theorem Fine.scroll {a : Arrow} {indx : Nat} (hh : h.Lined) (hf : Fine cmds h p (.arrow a))
    (hs : scroll h p.indx a = some (indx, t)) :
    IsLine t ∧ (p.space = true ↔ t.getLast? = some ' ') := by
  cases a with
  | up =>
    simp only [Cli.scroll] at hs
    split_ifs at hs with hstay
    cases hs
    rw [not_or] at hstay
    exact ⟨hh.row _, hf hstay.1 (by omega)⟩
  | down =>
    simp only [Cli.scroll] at hs
    split_ifs at hs with hstay hlast
    · cases hs
      have hend : h.hist.getD (p.indx + 1) [] = [] := by
        rw [getD_eq_getElem?_getD, getElem?_eq_none (by rw [hh.size, hlast]), Option.getD_none]
      have hflag := hf (by omega)
      rw [Prompt.Flagged, hend] at hflag
      exact ⟨hend ▸ hh.row _, hflag⟩
    · cases hs
      exact ⟨hh.row _, hf (by omega)⟩

theorem Prompt.Right.complete (hp : p.Right) (hf : Fine cmds h p .tab)
    (hq : p.complete cmds = some q) : q.Right := by
  obtain ⟨t, ht, hflag⟩ := hp
  have hstay : some p = some q → q.Right := fun heq => Option.some.inj heq ▸ ⟨t, ht, hflag⟩
  simp only [Prompt.complete, Fine, ht.line] at hq hf
  rcases hc : getCompletions cmds (argvSplit ' ' t) with _ | (_ | ⟨name, _ | ⟨other, names⟩⟩) | _ <;>
    simp only [hc] at hq hf
  · exact hstay hq
  · exact hstay hq
  · obtain ⟨hne, hnul, hsp, hlen⟩ := hf
    split at hq
    · exact hstay hq
    · rename_i word hword
      have ht0 : t ≠ [] := fun hnil => by simp [hnil, argvSplit] at hword
      obtain rfl := Option.some.inj hq
      split_ifs with h1 h2
      · exact ht.right hnul hsp (Nat.lt_succ_of_lt hlen) (absurd · hne)
      · rw [ht.spaced ht0] at h1
        refine ht.right (fun hn => hnul (mem_of_mem_drop hn))
          (fun hn => hsp (mem_of_mem_drop hn)) ?_ fun _ => ⟨ht0, h1⟩
        rw [length_drop]
        omega
      · rw [ht.spaced ht0] at h1
        have hadd := ht.add (c := ' ') (by decide) (fun _ => ⟨ht0, h1⟩) (by omega)
        refine hadd.right hnul hsp ?_ (absurd · hne)
        rw [hadd.len_eq, length_append, ← ht.len_eq, length_singleton, drop_zero]
        omega
  · have hno : ¬ (p.len ≠ 0 ∧ p.spaced = false) := by
      rintro ⟨hz, hs⟩
      have hlast := hflag.1 (hf.resolve_left hz)
      have ht0 : t ≠ [] := fun hnil => by simp [hnil] at hlast
      exact absurd ((ht.spaced ht0).2 hlast) (by simp [hs])
    rw [if_neg hno] at hq
    exact hstay hq

theorem Prompt.Right.space (hp : p.Right) (hf : Fine cmds h p .space)
    (hq : Cli.press cmds h p .space = some q) : q.Right := by
  obtain rfl := Option.some.inj hq
  split_ifs with hstay
  · exact hp
  · obtain ⟨t, ht, hflag⟩ := hp
    rw [not_or] at hstay
    have hroom : p.len < 1023 := hf.resolve_right hstay.2
    rw [ht.len_eq, length_eq_zero_iff, hflag] at hstay
    exact ht.right (s := []) (by simp) (by simp) hroom fun _ => hstay

theorem Prompt.Right.other {c : Char} (hp : p.Right) (hf : Fine cmds h p (.other c))
    (hq : Cli.press cmds h p (.other c) = some q) : q.Right := by
  obtain ⟨hc, hsp, hroom⟩ := hf
  obtain ⟨t, ht, hflag⟩ := hp
  obtain rfl := Option.some.inj hq
  by_cases hlen : p.len < 1023
  · rw [if_neg (by omega)]
    refine ⟨t ++ [c], (ht.flag false).add hc (absurd · hsp) hlen, ?_⟩
    simp [Prompt.add, apply_ite, hsp]
  · have hfull : { p with space := false }.add c = { p with space := false } :=
      if_neg (show ¬ p.len + 1 < 1024 by omega)
    rw [hfull, ite_self]
    exact ⟨t, ht.flag false, by rw [← hflag, hroom.resolve_left hlen]⟩

theorem Prompt.Right.backspace (hp : p.Right) (hq : Cli.press cmds h p .backspace = some q) :
    q.Right := by
  obtain ⟨t, ht, hflag⟩ := hp
  simp only [Cli.press] at hq
  split_ifs at hq with hz <;> obtain rfl := Option.some.inj hq
  · obtain rfl : t = [] := length_eq_zero_iff.1 (ht.len_eq.symm.trans hz)
    exact ⟨[], ht.flag false, by simp⟩
  · obtain rfl | ⟨t, x, rfl⟩ := t.eq_nil_or_concat'
    · exact absurd ht.len_eq hz
    · obtain ⟨rest, hin⟩ := ht.input
      have hcut : { p with input := p.input.set t.length '\x00', len := t.length }.Holds t :=
        ⟨⟨'\x00' :: rest, by simp [hin]⟩,
          by simp [ht.size], rfl, fun hn => ht.ends (by simp [hn]), IsChain.left_of_append ht.tidy⟩
      rw [show p.len - 1 = t.length by simp [ht.len_eq]]
      refine ⟨t, hcut.flag _, ?_⟩
      obtain rfl | hne := eq_or_ne t []
      · simp
      · rw [Bool.and_eq_true, hcut.spaced hne]
        simp [length_pos_of_ne_nil hne]

theorem Prompt.Right.press (hh : h.Lined) (hp : p.Right) (hf : Fine cmds h p key)
    (hq : press cmds h p key = some q) : q.Right := by
  cases key with
  | tab => exact hp.complete hf hq
  | help =>
    obtain rfl := Option.some.inj hq
    exact hp
  | arrow a =>
    simp only [Cli.press] at hq
    split at hq <;> obtain rfl := Option.some.inj hq
    · exact hp
    · rename_i indx u hu
      obtain ⟨⟨hlen, hends, htidy⟩, hspace⟩ := hf.scroll hh hu
      obtain ⟨t, ht, -⟩ := hp
      exact ⟨u, ⟨⟨_, rfl⟩, by simp [ht.size]; omega, rfl, hends, htidy⟩, hspace⟩
  | space => exact hp.space hf hq
  | other c => exact hp.other hf hq
  | backspace => exact hp.backspace hq

/-- With keys that are fine the line is edited to the end, and it is right. -/
theorem right_of_run (hh : h.Lined) (hf : Along (press cmds h) (Fine cmds h) (.new h) keys) :
    ∃ p, run (press cmds h) (.new h) keys = some p ∧ p.Right := by
  have hnew : (Prompt.new h).Holds [] :=
    ⟨⟨replicate 1023 '\x00', rfl⟩, length_replicate, rfl, not_mem_nil, isChain_singleton _⟩
  refine exists_run (I := Prompt.Right) (fun p key hp hf => ?_)
    ⟨[], hnew, by simp only [Prompt.new]; decide⟩ hf
  obtain ⟨q, hq⟩ := exists_press (h := h) hf.usable
  exact ⟨q, hq, hp.press hh hf hq⟩

theorem lined_new : History.new.Lined := ⟨rfl, by
  have hnil : IsLine [] := ⟨by decide, not_mem_nil, isChain_singleton _⟩
  have hzero : IsLine ['0'] := ⟨by decide, by decide, by decide⟩
  simp [History.new, hnil, hzero]⟩

theorem right_of_completion :
    ∃ p, run (press [⟨['s', 'o'], []⟩] .new) (.new .new) [.other 's', .tab, .backspace] = some p ∧
      p.Right := by
  have hf : Along (press [⟨['s', 'o'], []⟩] .new) (Fine [⟨['s', 'o'], []⟩] .new) (.new .new)
      [.other 's', .tab, .backspace] :=
    ⟨⟨by decide, by decide, Or.inl (by decide)⟩, ⟨by decide, by decide, by decide, by decide⟩,
      trivial, trivial⟩
  exact right_of_run lined_new hf

/-- The flag is not that of the line which is recalled. -/
theorem space_after_recall :
    let h := saveCmdHistory .new ['a', ' ']
    ∃ p, run (press [] h) (.new h) [.arrow .up, .space] = some p ∧ p.line = ['a', ' ', ' '] ∧
      ¬ Tidy p.line :=
  ⟨_, rfl, by decide +kernel, by decide +kernel⟩

/-! ## Sessions -/

/-- `orcm_cli_get_cmd`: the command, and the history with it. -/
def getCmd (cmds : List Cmd) (h : History) (keys : List Key) : Option (Text × History) :=
  (run (press cmds h) (.new h) keys).map fun p => (p.line, saveCmdHistory h p.line)

def nextHistory (cmds : List Cmd) (h : History) (keys : List Key) : Option History :=
  (getCmd cmds h keys).map Prod.snd

/-- The history after one command after the other. -/
def session (cmds : List Cmd) (lines : List (List Key)) : Option History :=
  run (nextHistory cmds) .new lines

/-- The line and its terminator are inside the array. -/
structure Prompt.Safe (p : Prompt) : Prop where
  size   : p.input.length = 1024
  len_lt : p.len < 1024
  ends   : p.input[p.len]? = some '\x00'

/-- The rows of the history have room for their terminators. -/
def History.Short (h : History) : Prop := ∀ t ∈ h.hist, t.length < 1024

theorem History.Short.scroll {indx k : Nat} {a : Arrow} {t : Text} (hh : h.Short)
    (ht : scroll h indx a = some (k, t)) :
    t.length < 1024 := by
  cases a with
  | up | down => grind [Cli.scroll, History.Short, getElem_mem]

theorem History.Short.save {t : Text} (hh : h.Short) (ht : t.length < 1024) :
    (saveCmdHistory h t).Short := by
  intro u hu
  grind [saveCmdHistory, mem_or_eq_of_mem_set, mem_of_mem_tail, History.Short]

namespace Prompt.Safe
variable (hp : p.Safe)
include hp

theorem add (c : Char) : (p.add c).Safe := by
  unfold Prompt.add
  split_ifs with hlen
  · exact ⟨by simp [hp.size], hlen, by simp [hp.size, hlen]⟩
  · exact hp

theorem foldl_add (t : Text) : (t.foldl Prompt.add p).Safe :=
  foldlRecOn t _ hp fun _ hq c _ => hq.add c

theorem flag (space : Bool) : { p with space }.Safe := { hp with }

theorem complete (hq : p.complete cmds = some q) : q.Safe := by
  unfold Prompt.complete at hq
  grind [add, foldl_add, flag]

theorem press (hh : h.Short) (hq : press cmds h p key = some q) : q.Safe := by
  have hlen := hp.len_lt
  cases key with
  | tab => exact hp.complete hq
  | help | space | other c => grind [Cli.press, add, flag]
  | backspace =>
    simp only [Cli.press] at hq
    split_ifs at hq <;> obtain rfl := Option.some.inj hq
    · exact hp.flag false
    · exact ⟨by simp [hp.size], (by omega : p.len - 1 < 1024),
        getElem?_set_self (by rw [hp.size]; omega)⟩
  | arrow a =>
    simp only [Cli.press] at hq
    split at hq <;> obtain rfl := Option.some.inj hq
    · exact hp
    · rename_i indx t ht
      have ht := hh.scroll ht
      exact ⟨by simp [hp.size]; omega, ht, by simp⟩

theorem line_lt : p.line.length < 1024 := by
  rw [← hp.size]
  refine (takeWhile_sublist _).length_le.lt_of_ne fun heq => ?_
  have hall := takeWhile_eq_self_iff.1 ((takeWhile_sublist _).eq_of_length heq)
  exact absurd (hall _ (mem_of_getElem? hp.ends)) (by decide)

end Prompt.Safe

/-- No key of the line uses a list that has been freed. -/
def LineUsable (cmds : List Cmd) (h : History) (keys : List Key) : Prop :=
  Along (press cmds h) (Usable cmds) (.new h) keys

theorem exists_safe (hh : h.Short) (hu : LineUsable cmds h keys) :
    ∃ p, run (press cmds h) (.new h) keys = some p ∧ p.Safe := by
  refine exists_run (I := Prompt.Safe) (fun p key hp hu => ?_)
    ⟨length_replicate, (by decide : 0 < 1024), rfl⟩ hu
  obtain ⟨q, hq⟩ := exists_press (h := h) hu
  exact ⟨q, hq, hp.press hh hq⟩

/-- **No key overflows a buffer**: after any commands, and while the next one is typed, the line and
the rows of the history are shorter than the arrays they are in, and the line has its terminator. -/
theorem safe_of_session {lines : List (List Key)}
    (hl : Along (nextHistory cmds) (LineUsable cmds) .new lines) :
    ∃ h, session cmds lines = some h ∧ h.Short ∧ ∀ keys, LineUsable cmds h keys →
      ∃ p, run (press cmds h) (.new h) keys = some p ∧ p.Safe ∧ p.line.length < 1024 := by
  have hnew : History.new.Short := by simp [History.Short, History.new]
  have hnext : ∀ h keys, h.Short → LineUsable cmds h keys →
      ∃ h', nextHistory cmds h keys = some h' ∧ h'.Short := by
    intro h keys hh hu
    obtain ⟨p, hp, hsafe⟩ := exists_safe hh hu
    exact ⟨saveCmdHistory h p.line, by simp [nextHistory, getCmd, hp], hh.save hsafe.line_lt⟩
  obtain ⟨h, hs, hh⟩ := exists_run (I := History.Short) hnext hnew hl
  refine ⟨h, hs, hh, fun keys hu => ?_⟩
  obtain ⟨p, hp, hsafe⟩ := exists_safe hh hu
  exact ⟨p, hp, hsafe, hsafe.line_lt⟩

theorem safe_of_recall :
    ∃ h, session [] [[.other 'a']] = some h ∧
      ∃ p, run (press [] h) (.new h) [.arrow .up, .space] = some p ∧ p.Safe := by
  obtain ⟨h, hs, -, hnext⟩ :=
    @safe_of_session [] [[.other 'a']] ⟨⟨trivial, trivial⟩, trivial⟩
  have hno : ∀ key ∈ [Key.arrow .up, .space], ∀ p, Usable [] p key := by simp [Usable]
  obtain ⟨p, hp, hsafe, -⟩ := hnext _ ((along_of_forall hno _).mono fun p _ hu => hu p)
  exact ⟨h, hs, p, hp, hsafe⟩

end Sensys.Cli
