import Sensys.Opal.Argv
import Sensys.Orte.Extract
/-!
# Words of a command line (`octl_split_argv`, `orcm/tools/octl/octl_commands.c:627-693`)

There is memory for the words. A word that does not fit into the buffer is lost.
-/
namespace Sensys.Octl
open Orte Opal List

/-- What is copied to the buffer. -/
def copied (str : Text) (count : Int) : Text :=
  str.take (if 0 > count ∨ 1024 ≤ count then 0 else count).toNat

/-- Both loops, with the texts at `ptr` and `str`, `count` and `has_quote`. The inner one begins
with `count` 0: it is only then that the outer one ends. -/
def splitFrom (delimiter : Char) : Text → Text → Int → Bool → List Text
  | [], str, count, _ => if count = 0 then [] else [copied str count]
  | c :: ptr, str, count, quote =>
    if c = '"' ∧ quote = false then splitFrom delimiter ptr str.tail (count + 1) true
    else if c = '"' then
      match ptr with
      | [] => [copied str (count - 1)]
      | _ :: next => copied str (count - 1) :: splitFrom delimiter next next 0 false
    else if c = delimiter ∧ quote = false then
      copied str count :: splitFrom delimiter ptr ptr 0 quote
    else splitFrom delimiter ptr str (count + 1) quote

def splitArgv (str : Text) (delimiter : Char) : Option (List Text) :=
  if str.length = 0 ∨ 1024 < str.length then none else some (splitFrom delimiter str str 0 false)

/-- A word, in quotes if it is empty or has a space in it. -/
def written (word : Text) : Text := if word = [] ∨ ' ' ∈ word then '"' :: (word ++ ['"']) else word

def line (words : List Text) : Text := argvJoin ' ' (words.map written)

variable {word rest : Text} {words : List Text}

theorem splitFrom_cons (c : Char) (ptr str : Text) (count : Int) (quote : Bool) :
    splitFrom ' ' (c :: ptr) str count quote =
      if c = '"' ∧ quote = false then splitFrom ' ' ptr str.tail (count + 1) true
      else if c = '"' then copied str (count - 1) :: splitFrom ' ' ptr.tail ptr.tail 0 false
      else if c = ' ' ∧ quote = false then copied str count :: splitFrom ' ' ptr ptr 0 quote
      else splitFrom ' ' ptr str (count + 1) quote := by
  cases ptr <;> rfl

theorem splitFrom_append {quote : Bool} (hquote : '"' ∉ word) (hspace : ' ' ∈ word → quote = true)
    (str : Text) (count : Int) :
    splitFrom ' ' (word ++ rest) str count quote =
      splitFrom ' ' rest str (count + word.length) quote := by
  induction word generalizing count with
  | nil => simp
  | cons c word ih =>
    simp only [mem_cons, not_or] at hquote hspace
    have hnext := ih hquote.2 (fun h => hspace (Or.inr h)) (count + 1)
    have hc : ¬ (c = ' ' ∧ quote = false) := by grind
    simpa [splitFrom_cons, Ne.symm hquote.1, hc, Int.add_assoc, Int.add_comm 1] using hnext

theorem copied_append (word rest : Text) :
    copied (word ++ rest) word.length = copied word word.length := by
  unfold copied
  rw [take_append_of_le_length]
  split <;> simp

theorem copied_eq_iff (word : Text) : copied word word.length = word ↔ word.length < 1024 := by
  rw [copied]
  split <;> simp <;> grind

/-- A word is read up to the end or to the space behind it. -/
theorem splitFrom_written (h : '"' ∉ word) (hrest : rest.head?.all (· = ' ')) :
    splitFrom ' ' (written word ++ rest) (written word ++ rest) 0 false =
      copied word word.length :: splitFrom ' ' rest.tail rest.tail 0 false := by
  rw [written]
  split_ifs with hword
  · have hscan := @splitFrom_append word ('"' :: rest) true h (fun _ => rfl) (word ++ '"' :: rest) 1
    simp only [cons_append, append_assoc, nil_append]
    rw [splitFrom_cons]
    simp [hscan, splitFrom_cons, copied_append]
  · rw [not_or] at hword
    have hscan := @splitFrom_append word rest false h (fun h => absurd h hword.2) (word ++ rest) 0
    rw [hscan]
    cases rest with
    | nil => simp [splitFrom, hword.1]
    | cons c rest =>
      obtain rfl : c = ' ' := by simpa using hrest
      simp [splitFrom_cons, copied_append]

theorem splitFrom_line (h : ∀ word ∈ words, '"' ∉ word) (hne : words ≠ []) :
    splitFrom ' ' (line words) (line words) 0 false = words.map fun word =>
      copied word word.length := by
  induction words with
  | nil => exact absurd rfl hne
  | cons word words ih =>
    obtain ⟨hword, hwords⟩ := forall_mem_cons.mp h
    cases words with
    | nil => simpa [line, argvJoin, splitFrom] using @splitFrom_written word [] hword rfl
    | cons word' words =>
      have hnext := @splitFrom_written word (' ' :: line (word' :: words)) hword rfl
      rw [tail_cons, ih hwords (cons_ne_nil _ _)] at hnext
      simpa [line, argvJoin] using hnext

/-- A word that does not fit into the buffer is lost. -/
theorem splitArgv_line_iff (h : ∀ word ∈ words, '"' ∉ word) (hne : words ≠ [])
    (hlen : (line words).length ≤ 1024) :
    splitArgv (line words) ' ' = some words ↔ ∀ word ∈ words, word.length < 1024 := by
  have hsplit := splitFrom_line h hne
  have hpos : (line words).length ≠ 0 := by
    intro hzero
    rw [length_eq_zero_iff.mp hzero] at hsplit
    exact hne (map_eq_nil_iff.mp hsplit.symm)
  rw [splitArgv, if_neg (by omega), hsplit, Option.some_inj]
  nth_rewrite 2 [← map_id words]
  simp only [map_inj_left, id, copied_eq_iff]

theorem words_read_back :
    splitArgv (line [['a'], [], ['b', ' ']]) ' ' = some [['a'], [], ['b', ' ']] :=
  (splitArgv_line_iff (by decide) (by decide) (by decide)).mpr (by decide)

theorem long_word_lost :
    (line [replicate 1024 'a']).length = 1024 ∧
      splitArgv (line [replicate 1024 'a']) ' ' = some [[]] := by
  decide +kernel

end Sensys.Octl
