import Mathlib.Data.List.Infix
import Mathlib.Data.List.Nodup
import Sensys.Lib.Picks
import Sensys.Util.Vardata
/-!
# Machine check errors of a log (`orcm/mca/sensor/mcedata/sensor_mcedata.c`)

| here | there |
| --- | --- |
| `Tag`, `Tag.token` | `:128-142` |
| `splitLines` | `getline`: the lines with their newlines |
| `logLines` | the lines from `log_file_pos` on, after `update_log_file_size` (`:192-223`, `:966-973`) |
| `getLogLines` | `:232-263`; none if the file ends before it has a line for each tag |
| `reports` | the loop of `collect_mcedata_sample` (`:975-1112`): the lines of each error that is reported |
| `McError.of` | the values that are taken from these lines (`:986-1038`) |

A line for a tag is looked for behind the line for the tag before it, wherever that is. A new line
for `CPU` does not make it start again. A `char` of the file is a byte; the file does not grow
while it is read. A line that ends before the place where its value is looked for is read past its
end in the source.
-/
namespace Sensys.Mcedata
open Orte SensorData List

inductive Tag where
  | cpu | bank | misc | addr | status | mcgstatus | time | socketid | mcgcap
deriving DecidableEq

def Tag.token : Tag → Text
  | .cpu => " CPU ".toList
  | .bank => " BANK ".toList
  | .misc => " MISC ".toList
  | .addr => " ADDR ".toList
  | .status => " STATUS ".toList
  | .mcgstatus => " MCGSTATUS ".toList
  | .time => " TIME ".toList
  | .socketid => " SOCKETID ".toList
  | .mcgcap => " MCGCAP ".toList

/-- The tags behind that of the processor. -/
def otherTags : List Tag := [.bank, .misc, .addr, .status, .mcgstatus, .time, .socketid, .mcgcap]

def tags : List Tag := .cpu :: otherTags

/-- A line with its number, by which it is told from lines with the same text. -/
structure LogLine where
  number : Nat
  text   : Text
deriving DecidableEq

/-- `strstr(s, sub)`. -/
def strstr (sub : Text) : Text → Option Text
  | [] => if sub = [] then some [] else none
  | c :: s => if sub.isPrefixOf (c :: s) then some (c :: s) else strstr sub s

def LogLine.has (tag : Tag) (l : LogLine) : Bool :=
  (strstr "mcelog".toList (cStr l.text)).isSome && (strstr tag.token (cStr l.text)).isSome

def splitLines : Text → List Text
  | [] => []
  | c :: s =>
    if c = '\n' then [c] :: splitLines s
    else
      match splitLines s with
      | [] => [[c]]
      | l :: ls => (c :: l) :: ls

/-- A file that has become shorter is read from its start. -/
def startPos (text : Text) (logFilePos : Nat) : Nat :=
  if text.length < logFilePos then 0 else logFilePos

def logLines (text : Text) (logFilePos : Nat) : List LogLine :=
  (splitLines (text.drop (startPos text logFilePos))).zipIdx.map fun x => ⟨x.2, x.1⟩

def getLogLines (lines : List LogLine) : Option (List LogLine × List LogLine) :=
  Picks.pick LogLine.has tags lines

/-- `fuel` bounds the number of errors. -/
def reportsFrom : Nat → List LogLine → List (List LogLine)
  | 0, _ => []
  | fuel + 1, lines =>
    match getLogLines lines with
    | none => []
    | some (picks, rest) => picks :: reportsFrom fuel rest

def reports (lines : List LogLine) : List (List LogLine) := reportsFrom lines.length lines

/-- The value of the line that was picked for a tag, `skip` characters behind the place of its
token. -/
def value (picks : List LogLine) (tag : Tag) (skip base : Nat) : UInt64 :=
  match picks[tags.idxOf tag]? with
  | none => 0
  | some l =>
    match strstr tag.token (cStr l.text) with
    | none => 0
    | some loc => strtoul base (loc.drop skip)

structure McError where
  cpu       : UInt64
  bank      : UInt64
  misc      : UInt64
  addr      : UInt64
  status    : UInt64
  mcgstatus : UInt64
  time      : UInt64
  socket    : UInt64
  mcgcap    : UInt64
deriving DecidableEq

def McError.of (picks : List LogLine) : McError where
  cpu := value picks .cpu " CPU".length 16
  bank := value picks .bank " BANK".length 16
  misc := value picks .misc " MISC".length 0
  addr := value picks .addr " ADDR".length 0
  status := value picks .status " STATUS 0x".length 16
  mcgstatus := value picks .mcgstatus " MCGSTATUS 0x".length 0
  time := value picks .time " TIME".length 0
  socket := value picks .socketid " SOCKETID".length 0
  mcgcap := value picks .mcgcap " MCGCAP".length 0

def notCpu (l : LogLine) : Bool := !l.has .cpu

/-- All lines are from one line for `CPU` up to the next one. -/
def InBlock (lines picks : List LogLine) : Prop :=
  ∃ l rest, (l :: rest) <:+ lines ∧ l.has .cpu = true ∧ ∀ p ∈ picks, p ∈ l :: rest.takeWhile notCpu

/-- Each error has a line for each tag, or there are not enough lines behind it. -/
def Separate (lines : List LogLine) : Prop :=
  ∀ l rest, (l :: rest) <:+ lines → l.has .cpu = true →
    Picks.HasInOrder LogLine.has otherTags (rest.takeWhile notCpu) ∨
    ¬ Picks.HasInOrder LogLine.has otherTags rest

variable {lines : List LogLine}

/-! ### The loop -/

variable {l a : LogLine} {picks rest skip : List LogLine} {others : List LogLine}

theorem getLogLines_cons_cpu (hl : l.has .cpu = true) :
    getLogLines (l :: lines) = (Picks.pick LogLine.has otherTags lines).map fun r =>
      (l :: r.1, r.2) := by
  rw [getLogLines, tags, Picks.pick, if_pos hl]

theorem getLogLines_cons_other {l : LogLine} (hl : l.has .cpu = false) :
    getLogLines (l :: lines) = getLogLines lines := by
  rw [getLogLines, tags, Picks.pick, if_neg (by simp [hl])]
  rfl

theorem length_lt_of_getLogLines (h : getLogLines lines = some (picks, rest)) :
    rest.length < lines.length := by
  obtain ⟨used, rfl, hsub, hall⟩ := Picks.pick_eq_some h
  have hus : 0 < used.length := by
    have hlen := hall.length_eq
    have hle := hsub.length_le
    simp [tags, otherTags] at hlen
    omega
  rw [length_append]
  omega

theorem reportsFrom_of_le {fuel : Nat} (hf : lines.length ≤ fuel) :
    reportsFrom fuel lines = reports lines := by
  induction hn : lines.length using Nat.strong_induction_on generalizing lines fuel with
  | _ n ih =>
    subst hn
    cases lines with
    | nil => cases fuel <;> rfl
    | cons a lines =>
      cases fuel with
      | zero => cases hf
      | succ fuel =>
        rw [length_cons] at hf
        rw [reports, length_cons, reportsFrom, reportsFrom]
        cases hget : getLogLines (a :: lines) with
        | none => rfl
        | some r =>
          have hlt := length_lt_of_getLogLines hget
          rw [length_cons] at hlt
          dsimp only
          rw [ih _ hlt (by omega) rfl, ih _ hlt (by omega) rfl]

theorem reports_of_none (h : getLogLines lines = none) : reports lines = [] := by
  rw [← reportsFrom_of_le (Nat.le_succ lines.length), reportsFrom, h]

theorem reports_of_some (h : getLogLines lines = some (picks, rest)) :
    reports lines = picks :: reports rest := by
  have hlt := length_lt_of_getLogLines h
  rw [← reportsFrom_of_le (Nat.le_succ lines.length), reportsFrom, h]
  dsimp only
  rw [reportsFrom_of_le (Nat.le_of_lt hlt)]

theorem reports_cons_other (hl : l.has .cpu = false) : reports (l :: lines) = reports lines := by
  have hskip := @getLogLines_cons_other lines l hl
  cases hget : getLogLines lines with
  | none => rw [reports_of_none hget, reports_of_none (hskip.trans hget)]
  | some r => rw [reports_of_some hget, reports_of_some (hskip.trans hget)]

theorem reports_cons_none (hl : l.has .cpu = true)
    (h : Picks.pick LogLine.has otherTags lines = none) : reports (l :: lines) = [] :=
  reports_of_none (by rw [getLogLines_cons_cpu hl, h, Option.map_none])

theorem reports_cons_some (hl : l.has .cpu = true)
    (h : Picks.pick LogLine.has otherTags lines = some (others, rest)) :
    reports (l :: lines) = (l :: others) :: reports rest :=
  reports_of_some (by rw [getLogLines_cons_cpu hl, h, Option.map_some])

/-- An error starts with a line for `CPU`, and the others stand behind it. -/
theorem exists_of_mem_reports (h : picks ∈ reports lines) :
    ∃ l rest others, picks = l :: others ∧ (l :: rest) <:+ lines ∧ l.has .cpu = true ∧
      others.Sublist rest := by
  induction hn : lines.length using Nat.strong_induction_on generalizing lines with
  | _ n ih =>
    cases lines with
    | nil => cases h
    | cons a lines =>
      rw [length_cons] at hn
      cases ha : a.has .cpu with
      | false =>
        rw [reports_cons_other ha] at h
        obtain ⟨l, rest, others, rfl, hsu, hl, hsub⟩ := ih lines.length (by omega) h rfl
        exact ⟨l, rest, others, rfl, hsu.trans (suffix_cons a lines), hl, hsub⟩
      | true =>
        cases hpi : Picks.pick LogLine.has otherTags lines with
        | none =>
          rw [reports_cons_none ha hpi] at h
          cases h
        | some r =>
          obtain ⟨others, rest⟩ := r
          rw [reports_cons_some ha hpi] at h
          obtain ⟨used, rfl, hsub, _⟩ := Picks.pick_eq_some hpi
          rcases mem_cons.1 h with rfl | h
          · exact ⟨a, used ++ rest, others, rfl, suffix_refl _, ha,
              hsub.trans (sublist_append_left _ _)⟩
          · rw [length_append] at hn
            obtain ⟨l, rest', others', rfl, hsu, hl, hsub'⟩ := ih rest.length (by omega) h rfl
            exact ⟨l, rest', others', rfl, hsu.trans (suffix_append (a :: used) rest), hl, hsub'⟩

/-! ### Where the lines of an error are -/

theorem suffix_cons_of_cpu (ha : a.has .cpu = false) (hl : l.has .cpu = true) :
    (l :: rest) <:+ (a :: lines) ↔ (l :: rest) <:+ lines := by
  rw [suffix_cons_iff]
  constructor
  · rintro (heq | h)
    · rw [← (List.cons.inj heq).1, hl] at ha
      cases ha
    · exact h
  · exact Or.inr

section
variable (hskip : ∀ a ∈ skip, a.has .cpu = false)
include hskip

theorem suffix_append_of_cpu (hl : l.has .cpu = true) :
    (l :: rest) <:+ (skip ++ lines) ↔ (l :: rest) <:+ lines := by
  induction skip with
  | nil => rfl
  | cons a skip ih =>
    rw [cons_append, suffix_cons_of_cpu (hskip a mem_cons_self) hl]
    exact ih (forall_mem_cons.1 hskip).2

theorem inBlock_append (picks : List LogLine) :
    InBlock (skip ++ lines) picks ↔ InBlock lines picks :=
  exists₂_congr fun _ _ => and_congr_left fun h => suffix_append_of_cpu hskip h.1

theorem separate_append : Separate (skip ++ lines) ↔ Separate lines := by
  constructor
  · intro h l rest hsu hl
    exact h l rest ((suffix_append_of_cpu hskip hl).2 hsu) hl
  · intro h l rest hsu hl
    exact h l rest ((suffix_append_of_cpu hskip hl).1 hsu) hl

end

theorem suffix_unique (hno : lines.Nodup) {rest' : List LogLine} (h : (l :: rest) <:+ lines)
    (h' : (l :: rest') <:+ lines) : rest = rest' := by
  have hse : ∀ {r r' : List LogLine}, (l :: r') <:+ lines → (l :: r) <:+ (l :: r') → r = r' := by
    intro r r' hr' hr
    rcases suffix_cons_iff.1 hr with heq | hr
    · exact (List.cons.inj heq).2
    · have hmem : l ∈ r' := hr.subset mem_cons_self
      exact absurd hmem (nodup_cons.1 (hno.sublist hr'.sublist)).1
  rcases suffix_or_suffix_of_suffix h h' with hle | hle
  · exact hse h' hle
  · exact (hse h hle).symm

theorem inBlock_iff (hno : lines.Nodup) (h : (l :: rest) <:+ lines) (hl : l.has .cpu = true)
    (ho : others.Sublist rest) : InBlock lines (l :: others) ↔
      others.Sublist (rest.takeWhile notCpu) := by
  have hre : (l :: rest).Nodup := hno.sublist h.sublist
  constructor
  · rintro ⟨l', rest', h', hl', hall⟩
    have heq : l = l' := by
      rcases mem_cons.1 (hall l mem_cons_self) with heq | hmem
      · exact heq
      · have hnot := mem_takeWhile_imp hmem
        simp [notCpu, hl] at hnot
    subst heq
    obtain rfl := suffix_unique hno h h'
    obtain ⟨hlr, hre⟩ := nodup_cons.1 hre
    -- a line behind the block is not in it
    have hin : ∀ p ∈ others, p ∈ rest.takeWhile notCpu := by
      intro p hp
      rcases mem_cons.1 (hall p (mem_cons_of_mem _ hp)) with rfl | hmem
      · exact absurd (ho.subset hp) hlr
      · exact hmem
    rw [← @takeWhile_append_dropWhile _ notCpu rest] at ho hre
    obtain ⟨inside, behind, rfl, hins, hbe⟩ := sublist_append_iff.1 ho
    have hnon : behind = [] := by
      apply eq_nil_iff_forall_not_mem.2
      intro p hp
      exact (nodup_append.1 hre).2.2 p (hin p (mem_append_right _ hp)) p (hbe.subset hp) rfl
    rwa [hnon, append_nil]
  · intro hsub
    exact ⟨l, rest, h, hl, cons_subset_cons _ hsub.subset⟩

/-- What is in a block of the lines behind a line is in a block of all lines. -/
theorem inBlock_cons (hno : (a :: (skip ++ lines)).Nodup)
    (hpi : picks ∈ reports lines) : InBlock (a :: (skip ++ lines)) picks ↔ InBlock lines picks := by
  obtain ⟨l, rest, others, rfl, hsu, hl, hsub⟩ := exists_of_mem_reports hpi
  have hsu' : lines <:+ (a :: (skip ++ lines)) := suffix_append (a :: skip) lines
  rw [inBlock_iff hno (hsu.trans hsu') hl hsub, inBlock_iff (hno.sublist hsu'.sublist) hsu hl hsub]

theorem separate_cons (ha : a.has .cpu = true) :
    Separate (a :: lines) ↔
      (Picks.HasInOrder LogLine.has otherTags (lines.takeWhile notCpu) ∨
      ¬ Picks.HasInOrder LogLine.has otherTags lines) ∧
        Separate lines := by
  constructor
  · intro h
    refine ⟨h a lines (suffix_refl _) ha, ?_⟩
    intro l rest hsu hl
    exact h l rest (hsu.trans (suffix_cons a lines)) hl
  · rintro ⟨hh, hta⟩ l rest hsu hl
    rcases suffix_cons_iff.1 hsu with heq | hsu
    · cases heq
      exact hh
    · exact hta l rest hsu hl

/-- Behind lines that are not enough there are not enough. -/
theorem separate_of_not_hasInOrder (h : ¬ Picks.HasInOrder LogLine.has otherTags lines) :
    Separate lines := by
  intro l rest hsu _
  right
  intro hre
  exact h (hre.mono ((sublist_cons_self l rest).trans hsu.sublist))

/-- The lines of a block that has them all are found in it. -/
theorem pick_of_block (h : Picks.HasInOrder LogLine.has otherTags (lines.takeWhile notCpu)) :
    ∃ others skip rest, Picks.pick LogLine.has otherTags lines = some (others, rest) ∧
      lines = skip ++ rest ∧
      (∀ a ∈ skip, a.has .cpu = false) ∧ others.Sublist (lines.takeWhile notCpu) := by
  obtain ⟨⟨others, rest⟩, hpi⟩ := Picks.exists_pick_iff.2 h
  obtain ⟨used, hus, hsub, _⟩ := Picks.pick_eq_some hpi
  have hli := Picks.pick_append hpi (lines.dropWhile notCpu)
  rw [takeWhile_append_dropWhile] at hli
  refine ⟨others, used, rest ++ lines.dropWhile notCpu, hli, ?_, ?_, ?_⟩
  · rw [← append_assoc, ← hus, takeWhile_append_dropWhile]
  · intro a ha
    have hmem : a ∈ lines.takeWhile notCpu := by
      rw [hus]
      exact mem_append_left _ ha
    simpa [notCpu] using mem_takeWhile_imp hmem
  · rw [hus]
    exact hsub.trans (sublist_append_left _ _)

/-- The lines of a block that lacks one are not from this block. -/
theorem not_inBlock_of_pick (hno : (a :: lines).Nodup) (ha : a.has .cpu = true)
    (hbl : ¬ Picks.HasInOrder LogLine.has otherTags (lines.takeWhile notCpu))
    (hpi : Picks.pick LogLine.has otherTags lines = some (others, rest)) :
    ¬ InBlock (a :: lines) (a :: others) := by
  obtain ⟨used, rfl, hsub, hall⟩ := Picks.pick_eq_some hpi
  rw [inBlock_iff hno (suffix_refl _) ha (hsub.trans (sublist_append_left _ _))]
  intro hin
  exact hbl ⟨others, hin, hall⟩

/-- **The lines of each reported error are from one block** if the errors are separate. -/
theorem forall_inBlock_iff (hno : lines.Nodup) :
    (∀ picks ∈ reports lines, InBlock lines picks) ↔ Separate lines := by
  induction hn : lines.length using Nat.strong_induction_on generalizing lines with
  | _ n ih =>
    cases lines with
    | nil =>
      constructor
      · intro _ l rest hsu
        cases suffix_nil.1 hsu
      · intro _ picks hpi
        cases hpi
    | cons a lines =>
      rw [length_cons] at hn
      have hno' : lines.Nodup := (nodup_cons.1 hno).2
      cases ha : a.has .cpu with
      | false =>
        have hskip : ∀ b ∈ [a], b.has .cpu = false := by simp [ha]
        have ih := ih lines.length (by omega) hno' rfl
        rw [reports_cons_other ha, ← singleton_append, separate_append hskip, ← ih]
        simp only [inBlock_append hskip]
      | true =>
        rw [separate_cons ha]
        by_cases hall : Picks.HasInOrder LogLine.has otherTags lines
        · by_cases hbl : Picks.HasInOrder LogLine.has otherTags (lines.takeWhile notCpu)
          · obtain ⟨others, skip, rest, hpic, rfl, hskip, hsub⟩ := pick_of_block hbl
            have hf : InBlock (a :: (skip ++ rest)) (a :: others) :=
              (inBlock_iff hno (suffix_refl _) ha (hsub.trans (takeWhile_sublist _))).2 hsub
            rw [length_append] at hn
            have ih := ih rest.length (by omega) (nodup_append.1 hno').2.1 rfl
            rw [reports_cons_some ha hpic, forall_mem_cons, separate_append hskip, ← ih]
            have hre : (∀ picks ∈ reports rest, InBlock (a :: (skip ++ rest)) picks) ↔
                ∀ picks ∈ reports rest, InBlock rest picks :=
              forall₂_congr fun picks hpi => inBlock_cons hno hpi
            rw [hre]
            simp [hf, hbl]
          · obtain ⟨⟨others, rest⟩, hpic⟩ := Picks.exists_pick_iff.2 hall
            have hf := not_inBlock_of_pick hno ha hbl hpic
            rw [reports_cons_some ha hpic, forall_mem_cons]
            simp [hf, hbl, hall]
        · -- the file ends before there is a line for each tag
          have hpic : Picks.pick LogLine.has otherTags lines = none := by
            apply Option.eq_none_iff_forall_ne_some.2
            intro r hr
            exact hall (Picks.exists_pick_iff.1 ⟨r, hr⟩)
          rw [reports_cons_none ha hpic]
          constructor
          · intro _
            exact ⟨.inr hall, separate_of_not_hasInOrder hall⟩
          · intro _ picks hpi
            cases hpi

theorem nodup_logLines (text : Text) (logFilePos : Nat) : (logLines text logFilePos).Nodup := by
  have hnu : ((logLines text logFilePos).map LogLine.number).Nodup := by
    have hra : (logLines text logFilePos).map LogLine.number =
        List.range' 0 (splitLines (text.drop (startPos text logFilePos))).length := by
      rw [logLines, map_map]
      exact zipIdx_map_snd 0 _
    rw [hra]
    exact nodup_range'
  exact List.Nodup.of_map _ hnu

/-- **The values of an error are from one block**: each block of the log has a line for each tag,
in order, or the log ends too early behind its first line. -/
theorem errors_from_one_block_iff (text : Text) (logFilePos : Nat) :
    (∀ picks ∈ reports (logLines text logFilePos), InBlock (logLines text logFilePos) picks) ↔
      Separate (logLines text logFilePos) :=
  forall_inBlock_iff (nodup_logLines text logFilePos)

/-- The error of processor 0 lacks its address, and gets that of processor 1. -/
def lacksAddr : Text :=
  ["mcelog: CPU 0\n", "mcelog: BANK 1\n", "mcelog: MISC 0x11\n", "mcelog: STATUS 0x12\n",
    "mcelog: MCGSTATUS 0x13\n", "mcelog: TIME 14\n", "mcelog: SOCKETID 0\n",
    "mcelog: MCGCAP 0x15\n", "mcelog: CPU 1\n", "mcelog: BANK 2\n", "mcelog: MISC 0x21\n",
    "mcelog: ADDR 0x26\n", "mcelog: STATUS 0x22\n", "mcelog: MCGSTATUS 0x23\n", "mcelog: TIME 24\n",
    "mcelog: SOCKETID 1\n", "mcelog: MCGCAP 0x25\n"].flatMap String.toList

theorem lacksAddr_not_separate : ¬ Separate (logLines lacksAddr 0) := by
  intro h
  have hlog : (⟨0, "mcelog: CPU 0\n".toList⟩ : LogLine) :: (logLines lacksAddr 0).tail =
    logLines lacksAddr 0 ∧
      Picks.pick LogLine.has otherTags ((logLines lacksAddr 0).tail.takeWhile notCpu) = none ∧
      (Picks.pick LogLine.has otherTags (logLines lacksAddr 0).tail).isSome = true := by
    decide +kernel
  obtain ⟨hli, hno, hso⟩ := hlog
  have hsu :
    (⟨0, "mcelog: CPU 0\n".toList⟩ :: (logLines lacksAddr 0).tail) <:+ logLines lacksAddr 0 := by
    rw [hli]
  rcases h _ _ hsu (by decide +kernel) with hbl | hre
  · obtain ⟨r, hr⟩ := Picks.exists_pick_iff.2 hbl
    rw [hno] at hr
    cases hr
  · exact hre (Picks.exists_pick_iff.1 (Option.isSome_iff_exists.1 hso))

theorem lacksAddr_mixes_errors :
    (reports (logLines lacksAddr 0)).map McError.of = [⟨0, 1, 0x11, 0x26, 0x22, 23, 24, 1, 0x25⟩] ∧
      ¬ ∀ picks ∈ reports (logLines lacksAddr 0), InBlock (logLines lacksAddr 0) picks := by
  refine ⟨by decide +kernel, ?_⟩
  rw [forall_inBlock_iff (nodup_logLines lacksAddr 0)]
  exact lacksAddr_not_separate

end Sensys.Mcedata
