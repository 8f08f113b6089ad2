import Sensys.Cfgi.LexXml
/-!
# A tokenizer that does not write into its text

The text is cut into lexemes: blanks, directives and comments, tags, strings, and single
characters of data (`lexemes`). The tokens of a text are its tags, its strings and its runs of
data (`tokenize`).

`emit` is what `lexXml` makes of the lexemes when it does not get in its own way: the characters
it writes, with the places where it stops.
-/
namespace Sensys.Cfgi

inductive Lexeme where
  | blank (c : Char)
  /-- What is behind the `<`, up to the `>`. -/
  | directive (text : List Char)
  /-- What is between `<` and `>`. -/
  | tag (text : List Char)
  /-- What is between the quotes. -/
  | quote (text : List Char)
  | datum (c : Char)
deriving DecidableEq, Repr

/-- The characters of a directive up to the `>` that ends it, and what is behind; `a` and `b` are
the two characters before. -/
def cutDirective (a b : Char) : List Char → Option (List Char × List Char)
  | [] => none
  | c :: cs =>
    if c = '>' ∧ (b = '?' ∨ b = '-' ∧ a = '-') then some ([c], cs)
    else (cutDirective b c cs).map fun d => (c :: d.1, d.2)

/-- The characters up to `stop`, none of them forbidden, and what is behind it. -/
def cutAt (stop : Char) (cs : List Char) : Option (List Char × List Char) :=
  match cs.dropWhile (· ≠ stop) with
  | [] => none
  | _ :: rest =>
    if (cs.takeWhile (· ≠ stop)).any isForbidden then none else some (cs.takeWhile (· ≠ stop), rest)

/-- The first lexeme and what is behind it. -/
def nextLexeme (c : Char) (cs : List Char) : Option (Lexeme × List Char) :=
  if isWhitespace c then some (.blank c, cs)
  else if c = '<' then
    if cs.head? = some '!' ∨ cs.head? = some '?' then (cutDirective '\x00' '<' cs).map fun d =>
      (.directive d.1, d.2)
    else (cutAt '>' cs).map fun d => (.tag d.1, d.2)
  else if c = '"' then (cutAt '"' cs).map fun d => (.quote d.1, d.2)
  else some (.datum c, cs)

/-- The lexemes up to the first place where there is none, and whether that is the end of the
text; `n` is at least the number of characters. -/
def lexemes : Nat → List Char → List Lexeme × Bool
  | _, [] => ([], true)
  | 0, _ => ([], false)
  | n + 1, c :: cs =>
    match nextLexeme c cs with
    | none => ([], false)
    | some (x, rest) => (x :: (lexemes n rest).1, (lexemes n rest).2)

/-- The tokens; `run` is the run of data that is being read. -/
def tokens : Option (List Char) → List Lexeme → List (List Char)
  | run, [] => run.toList
  | run, .blank _ :: ls => tokens run ls
  | run, .datum c :: ls => tokens (some (run.getD ['\t'] ++ [c])) ls
  | run, .directive _ :: ls => run.toList ++ tokens none ls
  | run, .tag t :: ls => run.toList ++ t :: tokens none ls
  | run, .quote t :: ls => run.toList ++ ('\t' :: t.map untab) :: tokens none ls

/-- The tokens of a text that can be cut into lexemes and has some. -/
def tokenize (text : List Char) : Except Rc (List (List Char)) :=
  if (lexemes text.length text).2 then
    match tokens none (lexemes text.length text).1 with
    | [] => .error .badParam
    | items => .ok items
  else .error .badParam

/-! ## What the lexer writes -/

/-- The number of characters read, those written, and whether a run of data has been started. -/
structure Written where
  came : Bool
  i    : Nat
  out  : List Char

inductive Turn where
  | goes (v : Written)
  | bad
  /-- A character is overwritten before it has been read. -/
  | overtaken

/-- What the lexer writes for one lexeme. -/
def Written.next (v : Written) : Lexeme → Turn
  | .blank _ => .goes { v with i := v.i + 1 }
  | .datum c =>
    if v.came then .goes { v with i := v.i + 1, out := v.out ++ [c] }
    else if v.out.length < v.i then .goes ⟨true, v.i + 1, v.out ++ ['\t', c]⟩
    else .overtaken
  | .directive d =>
    -- the search for its end stops at a terminator
    if '\x00' ∈ d then .bad
    else .goes ⟨false, v.i + 1 + d.length, if v.came then v.out ++ ['\n'] else v.out⟩
  | .tag t =>
    -- the end of the run of data is written over the `<`
    if v.came ∧ v.out.length = v.i then .bad
    else .goes ⟨false, v.i + 1 + t.length + 1,
      (if v.came then v.out ++ ['\n'] else v.out) ++ t ++ ['\n']⟩
  | .quote t =>
    .goes { v with i := v.i + 1 + t.length + 1, out := v.out ++ '\t' :: t.map untab ++ ['\n'] }

/-- Every lexeme is read on, and nothing that was written is taken back. -/
theorem Written.next_grows {v v' : Written} {x : Lexeme} (h : v.next x = .goes v') :
    v.i < v'.i ∧ ∃ more, v'.out = v.out ++ more := by
  cases x with
  | blank c =>
    cases h
    exact ⟨Nat.lt_succ_self _, [], by simp⟩
  | datum c =>
    simp only [Written.next] at h
    split at h
    · cases h
      exact ⟨Nat.lt_succ_self _, _, rfl⟩
    · split at h
      · cases h
        exact ⟨Nat.lt_succ_self _, _, rfl⟩
      · cases h
  | directive d =>
    simp only [Written.next] at h
    split at h
    · cases h
    · cases h
      refine ⟨by simp only; omega, ?_⟩
      by_cases hca : v.came = true
      · exact ⟨['\n'], by simp [hca]⟩
      · exact ⟨[], by simp [hca]⟩
  | tag t =>
    simp only [Written.next] at h
    split at h
    · cases h
    · cases h
      refine ⟨by simp only; omega, ?_⟩
      by_cases hca : v.came = true
      · exact ⟨'\n' :: t ++ ['\n'], by simp [hca]⟩
      · exact ⟨t ++ ['\n'], by simp [hca]⟩
  | quote t =>
    cases h
    exact ⟨by simp only; omega, '\t' :: t.map untab ++ ['\n'], by simp⟩

inductive Outcome where
  | done (out : List Char)
  | bad
  | overtaken
deriving DecidableEq, Repr

/-- What the lexer writes for all lexemes, if `ok` they are the whole text. -/
def emit (ok : Bool) : Written → List Lexeme → Outcome
  | v, [] => if ok then .done v.out else .bad
  | v, x :: ls =>
    match v.next x with
    | .goes v => emit ok v ls
    | .bad => .bad
    | .overtaken => .overtaken

def Written.start : Written := ⟨false, 0, []⟩

end Sensys.Cfgi
