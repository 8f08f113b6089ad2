import Mathlib.Data.List.DropRight
import Sensys.Orte.Extract
/-!
# The command line of the tools (`orcm/util/cli.c`)

| here | there |
| --- | --- |
| `Cmd` | `orcm_cli_cmd_t`, its name and `subcmds` |
| `search` | the loop over the commands of a level: what is appended to `completions`, and where it descends |
| `getCompletionsSubtree`, `getCompletions` | `:476-560` |
| `History`, `saveCmdHistory`, `scroll` | `cmd_hist` (`:60-68`), `save_cmd_history`, `scroll_up` and `scroll_down` (`:689-745`) |
-/
namespace Sensys.Cli
open Orte List

structure Cmd where
  cmd     : Text
  subcmds : List Cmd

inductive Completions where
  | notFound
  | offered (names : List Text)
  /-- The list has been freed. -/
  | freed
deriving DecidableEq, Repr

def search (word : Text) : List Cmd → List Text × Option Cmd
  | [] => ([], none)
  | c :: cmds =>
    if word.isPrefixOf c.cmd then
      if word.length = c.cmd.length then ([], some c) else (search word cmds).map (c.cmd :: ·) id
    else search word cmds

def getCompletionsSubtree (cmd : Cmd) (completions : List Text) : List Text → Completions
  | [] =>
    if cmd.subcmds.isEmpty then if completions = [] then .offered [] else .freed
    else .offered (completions ++ cmd.subcmds.map Cmd.cmd)
  | word :: input =>
    match search word cmd.subcmds with
    | (names, some sub) => getCompletionsSubtree sub (completions ++ names) input
    | (names, none) => if names = [] then .notFound else .offered (completions ++ names)

def getCompletions (cmds : List Cmd) : List Text → Completions
  | [] => .offered (cmds.map Cmd.cmd)
  | word :: input =>
    match search word cmds with
    | (names, some sub) => getCompletionsSubtree sub names input
    | (names, none) => if names = [] then .notFound else .offered names

/-! ## What is to be offered -/

/-- The names that are offered. -/
def Completions.names : Completions → Option (List Text)
  | notFound => some []
  | offered names => some names
  | freed => none

/-- The names that properly extend a word. -/
def extending (word : Text) (cmds : List Cmd) : List Text :=
  (cmds.map Cmd.cmd).filter fun name => word <+: name ∧ name ≠ word

/-- The level that the words which are names lead to, and the words behind them. -/
def level (cmds : List Cmd) : List Text → List Cmd × List Text
  | [] => (cmds, [])
  | word :: input =>
    match cmds.find? (·.cmd = word) with
    | some sub => level sub.subcmds input
    | none => (cmds, word :: input)

def expected (cmds : List Cmd) (input : List Text) : List Text :=
  match level cmds input with
  | (cmds, []) => cmds.map Cmd.cmd
  | (cmds, word :: _) => extending word cmds

/-- The names that extend a word and stand in front of the command that it names, on the way to
the level. -/
def passed (cmds : List Cmd) : List Text → List Text
  | [] => []
  | word :: input =>
    match cmds.find? (·.cmd = word) with
    | some sub => extending word (cmds.takeWhile (·.cmd ≠ word)) ++ passed sub.subcmds input
    | none => []

theorem search_eq (word : Text) (cmds : List Cmd) :
    search word cmds = (extending word (cmds.takeWhile (·.cmd ≠ word)),
      cmds.find? (·.cmd = word)) := by
  induction cmds with
  | nil => rfl
  | cons c cmds ih =>
    by_cases hc : c.cmd = word
    · simp [search, hc, extending]
    · have hlen : word <+: c.cmd → word.length ≠ c.cmd.length :=
        fun h hl => hc (h.eq_of_length hl).symm
      by_cases hw : word <+: c.cmd
      · simp [search, ih, extending, hc, hw, hlen]
      · simp [search, ih, extending, hc, hw]

/-- What has been collected on the way is offered as well, unless nothing is found in the end. -/
theorem getCompletionsSubtree_names (cmd : Cmd) (completions input : List Text) :
    (getCompletionsSubtree cmd completions input).names = some (expected cmd.subcmds input) ↔
      completions = [] ∧ passed cmd.subcmds input = [] ∨
      (level cmd.subcmds input).2 ≠ [] ∧ expected cmd.subcmds input = [] := by
  induction input generalizing cmd completions with
  | nil =>
    simp only [getCompletionsSubtree, expected, level, passed]
    split_ifs <;> simp_all [Completions.names]
  | cons word input ih =>
    rw [getCompletionsSubtree, search_eq]
    cases hf : cmd.subcmds.find? (·.cmd = word) with
    | some sub =>
      have hsub := ih sub (completions ++ extending word (cmd.subcmds.takeWhile (·.cmd ≠ word)))
      simpa only [expected, level, passed, hf, append_eq_nil_iff, and_assoc] using hsub
    | none =>
      have hall : cmd.subcmds.takeWhile (·.cmd ≠ word) = cmd.subcmds := by simpa using hf
      simp only [hall, expected, level, passed, hf]
      split_ifs <;> simp_all [Completions.names]

theorem getCompletions_eq (cmds : List Cmd) (input : List Text) :
    getCompletions cmds input = getCompletionsSubtree ⟨[], cmds⟩ [] input := by
  cases input with
  | nil => cases cmds <;> rfl
  | cons word input => rfl

theorem getCompletions_right_iff (cmds : List Cmd) (input : List Text) :
    (getCompletions cmds input).names = some (expected cmds input) ↔
      passed cmds input = [] ∨ (level cmds input).2 ≠ [] ∧ expected cmds input = [] := by
  simpa [getCompletions_eq] using getCompletionsSubtree_names ⟨[], cmds⟩ [] input

/-- A name in front of one that it extends is offered with what is below that one. -/
theorem longer_name_offered :
    (getCompletions [⟨['s', 'u'], []⟩, ⟨['s'], [⟨['o'], []⟩]⟩] [['s']]).names =
      some [['s', 'u'], ['o']] ∧
      expected [⟨['s', 'u'], []⟩, ⟨['s'], [⟨['o'], []⟩]⟩] [['s']] = [['o']] := by
  decide

/-! ## The history -/

structure History where
  hist  : List Text
  count : Nat
  indx  : Nat
deriving DecidableEq, Repr

def History.new : History := ⟨['0'] :: replicate 14 [], 0, 0⟩

def saveCmdHistory (h : History) (input : Text) : History :=
  if input = [] then h
  else if h.indx = 15 then { h with hist := h.hist.tail ++ [input] }
  else
    { hist := h.hist.set h.indx input
      count := if h.count ≤ 14 then h.count + 1 else h.count
      indx := if h.indx ≤ 14 then h.indx + 1 else h.indx }

inductive Arrow where
  | up
  | down
deriving DecidableEq, Repr

/-- The index and the line afterwards, if they change. -/
def scroll (h : History) (indx : Nat) : Arrow → Option (Nat × Text)
  | .up => if h.count = 0 ∨ indx < 1 then none else some (indx - 1, h.hist.getD (indx - 1) [])
  | .down =>
    if h.count = 0 ∨ h.count ≤ indx then none
    else some (indx + 1, if indx + 1 = 15 then [] else h.hist.getD (indx + 1) [])

/-- The history that holds these commands. -/
def History.of (entries : List Text) : History :=
  ⟨if entries = [] then History.new.hist else entries ++ replicate (15 - entries.length) [],
    entries.length, entries.length⟩

variable {entries : List Text}

theorem saveCmdHistory_of (h : entries.length ≤ 15) {input : Text} (hin : input ≠ []) :
    saveCmdHistory (.of entries) input = .of ((entries ++ [input]).rtake 15) := by
  by_cases hf : entries.length = 15
  · have hne : entries ≠ [] := ne_nil_of_length_pos (by omega)
    have hlast : (entries ++ [input]).rtake 15 = entries.tail ++ [input] := by
      simp [rtake, hf, drop_append]
    simp [saveCmdHistory, History.of, hin, hf, hne, hlast]
  · have hle : entries.length ≤ 14 := by omega
    have hlast : (entries ++ [input]).rtake 15 = entries ++ [input] := by
      rw [rtake, Nat.sub_eq_zero_of_le (by simp; omega), drop_zero]
    have hset :
      (if entries = [] then History.new.hist else entries ++ replicate (15 - entries.length) []).set
      entries.length input =
        entries ++ input :: replicate (14 - entries.length) [] := by
      split_ifs with hne
      · subst hne
        rfl
      · simp [show 15 - entries.length = 14 - entries.length + 1 by omega, replicate_succ]
    simp [saveCmdHistory, History.of, hin, hf, hlast, hle, hset]

theorem foldl_saveCmdHistory (inputs : List Text) :
    inputs.foldl saveCmdHistory .new = .of ((inputs.filter (· ≠ [])).rtake 15) := by
  induction inputs using reverseRecOn with
  | nil => rfl
  | append_singleton inputs input ih =>
    rw [foldl_concat, ih, filter_append]
    by_cases hin : input = []
    · simp [saveCmdHistory, hin]
    · rw [saveCmdHistory_of (by simp [rtake]; omega) hin, filter_cons_of_pos (by simpa using hin),
        filter_nil, rtake_concat_succ, rtake_concat_succ]
      simp only [rtake, drop_drop, length_drop]
      congr 4
      omega

theorem getD_of (hne : entries ≠ []) (i : Nat) :
    (History.of entries).hist.getD i [] = entries.getD i [] := by
  rw [History.of, if_neg hne]
  simp [getElem?_append, getElem?_replicate]
  grind

/-- The line belongs to the index. -/
def Shown (entries : List Text) (p : Nat × Text) : Prop :=
  p.1 ≤ entries.length ∧ p.2 = entries.getD p.1 []

/-- **Up shows the entry before**, down the one behind; where there is none nothing changes. -/
theorem scroll_of (h : entries.length ≤ 15) {indx : Nat} (hle : indx ≤ entries.length)
    (key : Arrow) :
    scroll (.of entries) indx key =
      match key with
      | .up => if indx = 0 then none else some (indx - 1, entries.getD (indx - 1) [])
      | .down =>
        if indx = entries.length then none else some (indx + 1, entries.getD (indx + 1) []) := by
  have hc : (History.of entries).count = entries.length := rfl
  cases key with
  | up =>
    rw [scroll, hc]
    dsimp only
    split_ifs with hstay hz hz
    · rfl
    · omega
    · omega
    · rw [getD_of (ne_nil_of_length_pos (by omega))]
  | down =>
    rw [scroll, hc]
    dsimp only
    split_ifs with hstay hz hlast hz hz
    · rfl
    · omega
    · omega
    · rw [getD_eq_getElem?_getD, getElem?_eq_none (by omega), Option.getD_none]
    · omega
    · rw [getD_of (ne_nil_of_length_pos (by omega))]

theorem Shown.scroll (h : entries.length ≤ 15) {p : Nat × Text} (hp : Shown entries p)
    (key : Arrow) :
    Shown entries ((scroll (.of entries) p.1 key).getD p) := by
  have hle : p.1 ≤ entries.length := hp.1
  rw [scroll_of h hle]
  cases key with
  | up =>
    dsimp only
    split_ifs with hz
    · exact hp
    · exact ⟨show p.1 - 1 ≤ _ by omega, rfl⟩
  | down =>
    dsimp only
    split_ifs with hz
    · exact hp
    · exact ⟨show p.1 + 1 ≤ _ by omega, rfl⟩

/-- The history holds the last commands, and with each key the line is the one that the index
says. -/
theorem history_right (inputs : List Text) (keys : List Arrow) :
    let h := inputs.foldl saveCmdHistory .new
    let entries := (inputs.filter (· ≠ [])).rtake 15
    h.hist.take h.count = entries ∧
      Shown entries (keys.foldl (fun p key => (scroll h p.1 key).getD p) (h.count, [])) := by
  intro h entries
  have hlen : entries.length ≤ 15 := by
    simp only [entries, rtake, length_drop]
    omega
  have hh : h = .of entries := foldl_saveCmdHistory inputs
  rw [hh]
  constructor
  · by_cases hne : entries = [] <;> simp [History.of, hne]
  · exact foldlRecOn keys _ ⟨Nat.le_refl _, by simp [History.of]⟩ fun p hp key _ =>
      hp.scroll hlen key

end Sensys.Cli
