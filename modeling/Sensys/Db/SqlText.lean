import Sensys.Db.Values
import Sensys.Lib.Quoting
/-!
# Reading SQL texts

Only a doubled quote is special inside of a literal. What is neither a literal nor a mark nor a
blank is a word: `NULL`, `*`, a name, a number with its sign.
-/
namespace Sensys.Db
open Orte Opal Quoting

def sql : Alphabet Char where
  quote := '\''
  isMark c := c = '(' || c = ')' || c = ',' || c = ';' || c = ':'
  isBlank := isspace
  isMark_quote := by decide
  isBlank_quote := by decide
  isBlank_mark := by
    intro c hc
    simp only [Bool.or_eq_true, decide_eq_true_eq] at hc
    obtain (((rfl | rfl) | rfl) | rfl) | rfl := hc <;> rfl

/-- `%s` of `NULL`. -/
def nullText : Text := "(null)".toList

/-! ## The buffer of an escaped text -/

/-- There is no result if something is written past the end. -/
def writeAt (buffer : Text) (i : Nat) (t : Text) : Option Text :=
  if i + t.length ≤ buffer.length then some (buffer.take i ++ (t ++ buffer.drop (i + t.length)))
  else none

/-- There is no result if an `int` does not hold the number. -/
def toInt (n : Nat) : Option Nat := if n < 2 ^ 31 then some n else none

/-- The loop of `postgres_escape_string`, from the character with the number `i` on, which `strchr`
looks at. What `realloc` adds to the buffer is not determined (`junk`). The position after the quote
is an `int`, and so is its sum with the number of quotes, which is the index of the new one. -/
def escapeFrom (junk : Char) : Text → Nat → Nat → Nat → Text → Option Text
  | [], _, _, _, dst => some dst
  | '\'' :: rest, i, quotes, actLength, dst => do
    let dst := dst ++ List.replicate (actLength + 2 - dst.length) junk
    let strPos ← toInt (i + 1)
    let dst ← writeAt dst (strPos + quotes + 1) (rest ++ ['\x00'])
    let dst ← writeAt dst (← toInt (strPos + quotes)) ['\'']
    escapeFrom junk rest strPos (quotes + 1) (actLength + 1) dst
  | _ :: rest, i, quotes, actLength, dst => escapeFrom junk rest (i + 1) quotes actLength dst

def postgresEscapeString (junk : Char) (strSrc : Text) : Option Text :=
  escapeFrom junk strSrc 0 0 strSrc.length (strSrc ++ ['\x00'])

theorem write_quote {before old rest : Text} {i : Nat} (hi : before.length = i)
    (h : old.length = rest.length + 2) :
    ∃ copied, writeAt (before ++ old) (i + 1) (rest ++ ['\x00']) = some copied ∧
      writeAt copied i ['\''] = some (before ++ '\'' :: (rest ++ ['\x00'])) := by
  obtain _ | ⟨y, old⟩ := old
  · cases h
  · refine ⟨before ++ y :: (rest ++ ['\x00']), ?_, ?_⟩
    · have hold : old.length = rest.length + 1 := Nat.succ_injective h
      simp [writeAt, ← hi, List.take_append, List.take_of_length_le, ← hold, Nat.add_assoc,
        Nat.add_comm 1]
    · simp [writeAt, ← hi]

/-- From the character `i` on, after so many quotes: an `int` holds the index of each new quote. -/
def QuotesFit (rest : Text) (i quotes : Nat) : Prop :=
  ∀ l r, rest = l ++ '\'' :: r → i + l.length + (quotes + l.count '\'') + 1 < 2 ^ 31

theorem quotesFit_quote {rest : Text} {i quotes : Nat} :
    QuotesFit ('\'' :: rest) i quotes ↔
      i + quotes + 1 < 2 ^ 31 ∧ QuotesFit rest (i + 1) (quotes + 1) := by
  constructor
  · intro h
    refine ⟨by simpa using h [] rest rfl, fun l r hl => ?_⟩
    have hl' := h ('\'' :: l) r (by rw [hl]; rfl)
    rw [List.length_cons, List.count_cons_self] at hl'
    omega
  · rintro ⟨hhere, hrest⟩ l r hl
    obtain _ | ⟨c, l⟩ := l
    · simpa using hhere
    · obtain ⟨rfl, htail⟩ := List.cons.inj hl
      have hl' := hrest l r htail
      rw [List.length_cons, List.count_cons_self]
      omega

theorem quotesFit_other {c : Char} (hc : c ≠ '\'') {rest : Text} {i quotes : Nat} :
    QuotesFit (c :: rest) i quotes ↔ QuotesFit rest (i + 1) quotes := by
  have hstep : ∀ l : Text, i + (c :: l).length + (quotes + (c :: l).count '\'') =
      i + 1 + l.length + (quotes + l.count '\'') := by
    intro l
    rw [List.length_cons, List.count_cons_of_ne hc]
    omega
  constructor
  · intro h l r hl
    rw [← hstep]
    exact h (c :: l) r (by rw [hl]; rfl)
  · intro h l r hl
    obtain _ | ⟨d, l⟩ := l
    · exact absurd (List.cons.inj hl).1 hc
    · obtain ⟨rfl, htail⟩ := List.cons.inj hl
      rw [hstep]
      exact h l r htail

/-- What is escaped stands in front of the rest of the source, which ends the buffer. -/
theorem escapeFrom_eq (junk : Char) {rest done : Text} {i quotes actLength : Nat}
    (h : done.length = i + quotes) (hact : actLength = done.length + rest.length)
    (hfit : QuotesFit rest i quotes) :
    escapeFrom junk rest i quotes actLength (done ++ (rest ++ ['\x00'])) =
      some (done ++ (escapeString rest ++ ['\x00'])) := by
  induction rest generalizing i quotes actLength done with
  | nil => rfl
  | cons c rest ih =>
    rw [List.length_cons] at hact
    by_cases hc : c = '\''
    · subst hc
      obtain ⟨hhere, hrest⟩ := quotesFit_quote.1 hfit
      have hnext := @ih (done ++ ['\'', '\'']) (i + 1) (quotes + 1) (actLength + 1)
        (by simp; omega) (by simp; omega) hrest
      have hroom : actLength + 2 - (done.length + (rest.length + 1 + 1)) = 1 := by omega
      have hpos : toInt (i + 1) = some (i + 1) := if_pos (by omega)
      have hat : toInt (i + 1 + quotes) = some (i + 1 + quotes) := if_pos (by omega)
      obtain ⟨copied, hco, hset⟩ := @write_quote (done ++ ['\'']) (rest ++ ['\x00', junk]) rest
        (i + 1 + quotes) (by simp; omega) (by simp)
      simp_all [escapeFrom, escapeString]
    · have hnext := @ih (done ++ [c]) (i + 1) quotes actLength (by simp; omega) (by simp; omega)
        ((quotesFit_other hc).1 hfit)
      simpa [escapeFrom, escapeString, hc] using hnext

/-- There is no result from the quote on whose index an `int` does not hold. -/
theorem quotesFit_of_escapeFrom {junk : Char} {rest dst res : Text} {i quotes actLength : Nat}
    (h : escapeFrom junk rest i quotes actLength dst = some res) : QuotesFit rest i quotes := by
  induction rest generalizing i quotes actLength dst with
  | nil => exact fun l r hl => by simp at hl
  | cons c rest ih =>
    by_cases hc : c = '\''
    · subst hc
      simp only [escapeFrom, toInt, Option.bind_eq_bind, Option.bind_eq_some_iff,
        Option.ite_none_right_eq_some, Option.some.injEq] at h
      obtain ⟨_, ⟨-, rfl⟩, _, -, _, ⟨hat, -⟩, _, -, hrest⟩ := h
      exact quotesFit_quote.2 ⟨by omega, ih hrest⟩
    · rw [escapeFrom] at h
      · exact (quotesFit_other hc).2 (ih h)
      · exact hc

/-- **The escaped text** is the source with its quotes doubled, and is written inside of the buffer,
exactly if an `int` holds the index of each new quote. -/
theorem postgresEscapeString_iff (junk : Char) (s : Text) :
    postgresEscapeString junk s = some (escapeString s ++ ['\x00']) ↔
      ∀ l r, s = l ++ '\'' :: r → l.length + l.count '\'' + 1 < 2 ^ 31 := by
  have hfit : (∀ l r, s = l ++ '\'' :: r → l.length + l.count '\'' + 1 < 2 ^ 31) ↔
      QuotesFit s 0 0 := by
    simp only [QuotesFit, Nat.zero_add]
  rw [hfit]
  exact ⟨quotesFit_of_escapeFrom,
    @escapeFrom_eq junk s [] 0 0 s.length rfl (Nat.zero_add _).symm⟩

/-- A quote after so many characters has no index that is an `int`. -/
theorem late_quote_not_escaped :
    postgresEscapeString ' ' (List.replicate (2 ^ 31 - 1) 'a' ++ ['\'']) ≠
      some (escapeString (List.replicate (2 ^ 31 - 1) 'a' ++ ['\'']) ++ ['\x00']) := by
  intro h
  have hfit := quotesFit_of_escapeFrom h (List.replicate (2 ^ 31 - 1) 'a') [] rfl
  rw [List.length_replicate] at hfit
  omega

/-! ## Pieces -/

theorem escapeString_eq (t : Text) : escapeString t = escape '\'' t := by
  fun_induction escapeString t with
  | case1 => rfl
  | case2 t ih => rw [ih, escape, if_pos rfl]
  | case3 c t hc ih => rw [ih, escape, if_neg hc]

@[simp] theorem text_raw (s : Text) : (Piece.raw s).text sql = quoted s := rfl

@[simp] theorem text_escaped (s : Text) : (Piece.escaped s).text sql = quoted (escapeString s) := by
  rw [escapeString_eq]
  rfl

@[simp] theorem text_word (w : Text) : (Piece.word w).text sql = w := rfl

@[simp] theorem text_blank (c : Char) : (Piece.blank c).text sql = [c] := rfl

@[simp] theorem text_mark (c : Char) : (Piece.mark c).text sql = [c] := rfl

/-- A word of the language. -/
def IsWord (w : Text) : Prop := (Piece.word w).WellFormed sql
deriving Decidable

/-- The characters that are not part of a word. -/
def apart : List Char := ['\'', '(', ')', ',', ';', ':', ' ', '\t', '\n', '\x0b', '\x0c', '\r']

theorem isWord_iff (c : Char) : sql.isWord c = true ↔ c ∉ apart := by
  simp [Alphabet.isWord, sql, isspace, apart]
  grind

theorem isWord_of_isDigit {c : Char} (h : c.isDigit = true) : sql.isWord c = true := by
  have hap : ∀ d ∈ apart, d.isDigit = false := by decide
  rw [isWord_iff]
  intro hc
  rw [hap c hc] at h
  cases h

theorem isWord_toDigits (n : Nat) : IsWord (Nat.toDigits 10 n) := by
  obtain ⟨hne, hdi⟩ := IsNumber.toDigits n
  exact ⟨hne, fun c hc => isWord_of_isDigit (hdi c hc)⟩

theorem isWord_showInt (n : Int) : IsWord (showInt n) := by
  obtain ⟨hne, hwo⟩ := isWord_toDigits n.natAbs
  rw [showInt]
  split_ifs
  · refine ⟨List.cons_ne_nil _ _, ?_⟩
    intro c hc
    obtain rfl | hc := List.mem_cons.mp hc
    · rfl
    · exact hwo c hc
  · exact ⟨hne, hwo⟩

theorem notMem_showInt {c : Char} (hc : sql.isWord c = false) (n : Int) : c ∉ showInt n := by
  intro h
  rw [(isWord_showInt n).2 c h] at hc
  cases hc

def inParentheses {β : Type} (mark : Char → β) (ls : List (List β)) : List β :=
  mark '(' :: [mark ','].intercalate ls ++ [mark ')']

theorem row_eq (columns : List Text) : row columns = inParentheses id columns := rfl

theorem flatMap_inParentheses {β γ : Type} {mark : Char → β} {mark' : Char → γ} {f : β → List γ}
    (h : ∀ c, f (mark c) = [mark' c]) (ls : List (List β)) :
    (inParentheses mark ls).flatMap f = inParentheses mark' (ls.map (List.flatMap f)) := by
  simp [inParentheses, flatMap_intercalate, h]

variable {ls : List (List (Piece Char))}

theorem isChain_inParentheses (h : ∀ l ∈ ls, l.IsChain Piece.Apart) :
    (inParentheses Piece.mark ls).IsChain Piece.Apart := by
  have hopen := isChain_append_mark '(' List.IsChain.nil (isChain_intercalate ',' h)
  exact isChain_append_mark ')' hopen List.IsChain.nil

theorem forall_mem_inParentheses {P : Piece Char → Prop} (hP : ∀ c ∈ ['(', ',', ')'], P (.mark c)) :
    (∀ p ∈ inParentheses Piece.mark ls, P p) ↔ ∀ l ∈ ls, ∀ p ∈ l, P p := by
  have hco : ∀ p ∈ [Piece.mark ','], P p := by simpa using hP ',' (by simp)
  rw [inParentheses, List.forall_mem_append, List.forall_mem_cons, forall_mem_intercalate hco]
  simp [hP]

end Sensys.Db
