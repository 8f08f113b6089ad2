import Mathlib.Data.List.Chain
/-!
# Tokens of a text with quoted literals

A literal stands between two quotes, and a quote in it is doubled. Outside of literals there are
words, marks, which are tokens by themselves, and blanks.
-/
namespace Quoting
open List

variable {α : Type} [DecidableEq α]

section
variable (q : α)

def escape : List α → List α
  | [] => []
  | c :: t => if c = q then q :: q :: escape t else c :: escape t

/-- What stands before the closing quote, and what is behind it. -/
def readLiteral : List α → Option (List α × List α)
  | [] => none
  | [c] => if c = q then some ([], []) else none
  | c :: d :: t =>
    if c = q then
      if d = q then (readLiteral t).map fun p => (q :: p.1, p.2) else some ([], d :: t)
    else (readLiteral (d :: t)).map fun p => (c :: p.1, p.2)

end

variable {q : α}

variable {s rest : List α} {c : α} {t : List α}

theorem escape_of_notMem (h : q ∉ s) : escape q s = s := by
  induction s with
  | nil => rfl
  | cons c s ih =>
    simp only [mem_cons, not_or] at h
    rw [escape, if_neg (Ne.symm h.1), ih h.2]

theorem readLiteral_cons (hc : c ≠ q) (t : List α) :
    readLiteral q (c :: t) = (readLiteral q t).map fun p => (c :: p.1, p.2) := by
  cases t with
  | nil => simp [readLiteral, hc]
  | cons d t => rw [readLiteral, if_neg hc]

theorem readLiteral_quote (h : rest.head? ≠ some q) :
    readLiteral q (q :: rest) = some ([], rest) := by
  cases rest with
  | nil => simp [readLiteral]
  | cons d t =>
    have hd : d ≠ q := fun hd => h (by rw [hd, head?_cons])
    rw [readLiteral, if_pos rfl, if_neg hd]

theorem readLiteral_escape (s : List α) (h : rest.head? ≠ some q) :
    readLiteral q (escape q s ++ q :: rest) = some (s, rest) := by
  induction s with
  | nil => exact readLiteral_quote h
  | cons c s ih =>
    by_cases hc : c = q
    · subst hc
      rw [escape, if_pos rfl, cons_append, cons_append, readLiteral, if_pos rfl, if_pos rfl, ih]
      rfl
    · rw [escape, if_neg hc, cons_append, readLiteral_cons hc, ih]
      rfl

/-- A literal is read only where it was escaped. -/
theorem eq_of_readLiteral (h : readLiteral q t = some (s, rest)) : t = escape q s ++ q :: rest := by
  fun_induction readLiteral q t generalizing s with
  | case1 | case3 => cases h
  | case2 | case5 =>
    obtain ⟨rfl, rfl⟩ := h
    rfl
  | case4 t ih =>
    obtain ⟨p, hp, ⟨rfl, rfl⟩⟩ := Option.map_eq_some_iff.mp h
    rw [ih hp, escape, if_pos rfl]
    rfl
  | case6 c d t hc ih =>
    obtain ⟨p, hp, ⟨rfl, rfl⟩⟩ := Option.map_eq_some_iff.mp h
    rw [ih hp, escape, if_neg hc]
    rfl

/-- The quotes in front are those of which the second one was not yet found. -/
theorem notMem_of_append_eq {s rest rest' : List α} (h : rest.head? ≠ some q) {n : Nat}
    (heq : s ++ q :: rest = List.replicate n q ++ (escape q s ++ q :: rest')) : n = 0 ∧ q ∉ s := by
  induction s generalizing n with
  | nil =>
    cases n with
    | zero => simp
    | succ n =>
      rw [replicate_succ, nil_append, cons_append, cons_inj_right] at heq
      cases n <;> exact absurd (by rw [heq]; rfl) h
  | cons c s ih =>
    by_cases hc : c = q
    · subst hc
      have hsw (t : List α) : replicate n c ++ c :: t = c :: (replicate n c ++ t) := by
        rw [append_cons, ← replicate_succ', replicate_succ, cons_append]
      have hnext : s ++ c :: rest = replicate (n + 1) c ++ (escape c s ++ c :: rest') := by
        rw [escape, if_pos rfl, cons_append, cons_append, cons_append, hsw, hsw,
          cons_inj_right] at heq
        rw [heq, replicate_succ, cons_append]
      exact absurd (ih hnext).1 (Nat.succ_ne_zero n)
    · rw [escape, if_neg hc] at heq
      cases n with
      | zero =>
        have hnext : s ++ q :: rest = replicate 0 q ++ (escape q s ++ q :: rest') :=
          (cons_inj_right c).mp heq
        exact ⟨rfl, fun hq => (mem_cons.mp hq).elim (hc ∘ Eq.symm) (ih hnext).2⟩
      | succ n => exact absurd (List.cons.inj heq).1 hc

/-- What is pasted between quotes is read back if, and only if, there is no quote in it. -/
theorem readLiteral_eq_self_iff (h : rest.head? ≠ some q) {rest' : List α} :
    readLiteral q (s ++ q :: rest) = some (s, rest') ↔ q ∉ s ∧ rest' = rest := by
  constructor
  · intro hre
    have heq := eq_of_readLiteral hre
    have hs := (@notMem_of_append_eq _ _ _ _ _ _ h 0 heq).2
    rw [escape_of_notMem hs, append_cancel_left_eq, cons_inj_right] at heq
    exact ⟨hs, heq.symm⟩
  · rintro ⟨hs, rfl⟩
    rw [← readLiteral_escape s h, escape_of_notMem hs]

structure Alphabet (α : Type) where
  quote         : α
  isMark        : α → Bool
  isBlank       : α → Bool
  isMark_quote  : isMark quote = false
  isBlank_quote : isBlank quote = false
  isBlank_mark  : ∀ c, isMark c = true → isBlank c = false

inductive Token (α : Type) where
  | literal (s : List α)
  | word (w : List α)
  | mark (c : α)
deriving DecidableEq, Repr

/-- Where a reader is: `quote` is behind a quote in a literal, which ends it unless another one
follows. -/
inductive Mode (α : Type) where
  | between
  | word (w : List α)
  | literal (s : List α)
  | quote (s : List α)

structure Lexer (α : Type) where
  mode : Mode α
  done : List (Token α)

section
variable (A : Alphabet α)

def Alphabet.isWord (c : α) : Bool := c ≠ A.quote && !A.isMark c && !A.isBlank c

/-- The first character behind the tokens `ts`. -/
def begins (ts : List (Token α)) (c : α) : Lexer α :=
  if c = A.quote then ⟨.literal [], ts⟩
  else if A.isMark c then ⟨.between, ts ++ [.mark c]⟩
  else if A.isBlank c then ⟨.between, ts⟩
  else ⟨.word [c], ts⟩

def step : Lexer α → α → Lexer α
  | ⟨.between, ts⟩, c => begins A ts c
  | ⟨.word w, ts⟩, c => if A.isWord c then ⟨.word (w ++ [c]), ts⟩ else begins A (ts ++ [.word w]) c
  | ⟨.literal s, ts⟩, c => if c = A.quote then ⟨.quote s, ts⟩ else ⟨.literal (s ++ [c]), ts⟩
  | ⟨.quote s, ts⟩, c =>
    if c = A.quote then ⟨.literal (s ++ [c]), ts⟩ else begins A (ts ++ [.literal s]) c

/-- Fails in a literal that is not closed. -/
def finish : Lexer α → Option (List (Token α))
  | ⟨.between, ts⟩ => some ts
  | ⟨.word w, ts⟩ => some (ts ++ [.word w])
  | ⟨.literal _, _⟩ => none
  | ⟨.quote s, ts⟩ => some (ts ++ [.literal s])

def read (l : Lexer α) (t : List α) : Option (List (Token α)) := finish (t.foldl (step A) l)

def tokens (t : List α) : Option (List (Token α)) := read A ⟨.between, []⟩ t

end

variable {A : Alphabet α} (l : Lexer α) (ts : List (Token α))

@[simp] theorem read_nil : read A l [] = finish l := rfl

@[simp] theorem read_cons (c : α) (t : List α) : read A l (c :: t) = read A (step A l c) t := rfl

theorem done_begins (c : α) : ts <+: (begins A ts c).done := by
  unfold begins
  split_ifs
  · exact prefix_rfl
  · exact prefix_append ts _
  · exact prefix_rfl
  · exact prefix_rfl

theorem done_step (c : α) : l.done <+: (step A l c).done := by
  obtain ⟨mode, ts⟩ := l
  cases mode with
  | between => exact done_begins ts c
  | word w | quote s =>
    rw [step]
    split_ifs
    · exact prefix_rfl
    · exact (prefix_append ts _).trans (done_begins _ c)
  | literal s =>
    rw [step]
    split_ifs <;> exact prefix_rfl

/-- Tokens that were read are not lost. -/
theorem done_read {l : Lexer α} {out : List (Token α)} (h : read A l t = some out) :
    l.done <+: out := by
  induction t generalizing l with
  | nil =>
    obtain ⟨mode, ts⟩ := l
    cases mode with
    | between => exact Option.some.inj h ▸ prefix_rfl
    | word w | quote s => exact Option.some.inj h ▸ prefix_append ts _
    | literal s => cases h
  | cons c t ih => exact (done_step l c).trans (ih h)

theorem read_word (h : ∀ c ∈ rest.head?, A.isWord c = false) (w : List α) (ts : List (Token α)) :
    read A ⟨.word w, ts⟩ rest = read A ⟨.between, ts ++ [.word w]⟩ rest := by
  cases rest with
  | nil => rfl
  | cons c t => rw [read_cons, step, h c rfl]; rfl

theorem read_quote (h : rest.head? ≠ some A.quote) (s : List α) (ts : List (Token α)) :
    read A ⟨.quote s, ts⟩ rest = read A ⟨.between, ts ++ [.literal s]⟩ rest := by
  cases rest with
  | nil => rfl
  | cons c t =>
    have hc : c ≠ A.quote := fun hc => h (by rw [hc, head?_cons])
    rw [read_cons, step, if_neg hc]
    rfl

theorem read_literal (w : List α) (ts : List (Token α)) (t : List α) :
    read A ⟨.literal w, ts⟩ t =
      (readLiteral A.quote t).bind fun p => read A ⟨.between, ts ++ [.literal (w ++ p.1)]⟩ p.2 := by
  fun_induction readLiteral A.quote t generalizing w with
  | case1 => rfl
  | case2 => simp [step, finish]
  | case3 c hc => simp [step, finish, hc]
  | case4 t ih =>
    rw [read_cons, read_cons, step, if_pos rfl, step, if_pos rfl, ih, Option.bind_map]
    simp [Function.comp_def]
  | case5 d t hd =>
    rw [read_cons, step, if_pos rfl, read_quote (by simpa using hd)]
    simp
  | case6 c d t hc ih =>
    rw [read_cons, step, if_neg hc, ih, Option.bind_map]
    simp [Function.comp_def]

/-- A word that is read to its end. -/
theorem read_between_word {w : List α} (hne : w ≠ []) (hw : ∀ c ∈ w, A.isWord c = true)
    (h : ∀ c ∈ rest.head?, A.isWord c = false) (ts : List (Token α)) :
    read A ⟨.between, ts⟩ (w ++ rest) = read A ⟨.between, ts ++ [.word w]⟩ rest := by
  have hgo (u v : List α) (hv : ∀ c ∈ v, A.isWord c = true) :
      read A ⟨.word u, ts⟩ (v ++ rest) = read A ⟨.word (u ++ v), ts⟩ rest := by
    induction v generalizing u with
    | nil => simp
    | cons c v ih =>
      rw [cons_append, read_cons, step, hv c mem_cons_self, if_pos rfl,
        ih (u ++ [c]) (forall_mem_cons.1 hv).2, append_assoc]
      rfl
  obtain ⟨c, w, rfl⟩ := exists_cons_of_ne_nil hne
  have hc := hw c mem_cons_self
  simp only [Alphabet.isWord, Bool.and_eq_true, decide_eq_true_eq, Bool.not_eq_true'] at hc
  have hbe : begins A ts c = ⟨.word [c], ts⟩ := by simp [begins, hc]
  rw [cons_append, read_cons, step, hbe, hgo [c] w (forall_mem_cons.1 hw).2, read_word h]
  rfl

inductive Piece (α : Type) where
  /-- Between quotes, as it is. -/
  | raw (s : List α)
  | escaped (s : List α)
  | word (w : List α)
  | mark (c : α)
  | blank (c : α)
deriving DecidableEq, Repr

namespace Piece

def isLiteral : Piece α → Bool
  | .raw _ => true
  | .escaped _ => true
  | _ => false

def isWord : Piece α → Bool
  | .word _ => true
  | _ => false

/-- What may stand next to each other. -/
def Apart (p p' : Piece α) : Prop :=
  ¬(p.isLiteral = true ∧ p'.isLiteral = true) ∧ ¬(p.isWord = true ∧ p'.isWord = true)
deriving Decidable

def tokens : Piece α → List (Token α)
  | .raw s => [.literal s]
  | .escaped s => [.literal s]
  | .word w => [.word w]
  | .mark c => [.mark c]
  | .blank _ => []

variable (A)

def text : Piece α → List α
  | .raw s => A.quote :: (s ++ [A.quote])
  | .escaped s => A.quote :: (escape A.quote s ++ [A.quote])
  | .word w => w
  | .mark c => [c]
  | .blank c => [c]

def WellFormed : Piece α → Prop
  | .raw _ => True
  | .escaped _ => True
  | .word w => w ≠ [] ∧ ∀ c ∈ w, A.isWord c = true
  | .mark c => A.isMark c = true
  | .blank c => A.isBlank c = true

instance : DecidablePred (WellFormed A) := fun p => by
  cases p <;> dsimp only [WellFormed] <;> infer_instance

/-- Without a quote where it is pasted as it is. -/
def Clean : Piece α → Prop
  | .raw s => A.quote ∉ s
  | _ => True

instance : DecidablePred (Clean A) := fun p => by
  cases p <;> dsimp only [Clean] <;> infer_instance

end Piece

omit [DecidableEq α] in
theorem Alphabet.ne_quote_of_isMark (h : A.isMark c = true) : c ≠ A.quote := by
  rintro rfl
  rw [A.isMark_quote] at h
  cases h

omit [DecidableEq α] in
theorem Alphabet.ne_quote_of_isBlank (h : A.isBlank c = true) : c ≠ A.quote := by
  rintro rfl
  rw [A.isBlank_quote] at h
  cases h

theorem read_between_mark (h : A.isMark c = true) (ts : List (Token α)) (t : List α) :
    read A ⟨.between, ts⟩ (c :: t) = read A ⟨.between, ts ++ [.mark c]⟩ t := by
  rw [read_cons, step, begins, if_neg (A.ne_quote_of_isMark h), if_pos h]

theorem read_between_blank (h : A.isBlank c = true) (ts : List (Token α)) (t : List α) :
    read A ⟨.between, ts⟩ (c :: t) = read A ⟨.between, ts⟩ t := by
  have hm : A.isMark c = false := by
    by_contra hm
    rw [A.isBlank_mark c (by simpa using hm)] at h
    cases h
  rw [read_cons, step, begins, if_neg (A.ne_quote_of_isBlank h), if_neg (by simp [hm]), if_pos h]

theorem read_between_literal (t : List α) :
    read A ⟨.between, ts⟩ (A.quote :: t) =
      (readLiteral A.quote t).bind fun p => read A ⟨.between, ts ++ [.literal p.1]⟩ p.2 := by
  rw [read_cons, step, begins, if_pos rfl, read_literal]
  rfl

theorem read_between_escaped (h : rest.head? ≠ some A.quote) (s : List α) (ts : List (Token α)) :
    read A ⟨.between, ts⟩ ((Piece.escaped s).text A ++ rest) =
      read A ⟨.between, ts ++ [.literal s]⟩ rest := by
  have hte : (Piece.escaped s).text A ++ rest = A.quote :: (escape A.quote s ++ A.quote :: rest) :=
    by simp [Piece.text]
  rw [hte, read_between_literal, readLiteral_escape s h]
  rfl

/-- The token is in its place only if the literal is read as it was pasted. -/
theorem read_between_raw (h : rest.head? ≠ some A.quote) {ts more : List (Token α)} :
    read A ⟨.between, ts⟩ ((Piece.raw s).text A ++ rest) = some (ts ++ .literal s :: more) ↔
      A.quote ∉ s ∧ read A ⟨.between, ts ++ [.literal s]⟩ rest =
      some (ts ++ .literal s :: more) := by
  have hte : (Piece.raw s).text A ++ rest = A.quote :: (s ++ A.quote :: rest) := by
    simp [Piece.text]
  rw [hte, read_between_literal]
  constructor
  · intro hre
    obtain ⟨⟨s', rest'⟩, hlit, hres⟩ := Option.bind_eq_some_iff.mp hre
    -- the literal that was read stays where it is, so it is the one that is expected there
    have hdo : ts ++ [.literal s'] <+: ts ++ .literal s :: more := done_read hres
    rw [prefix_append_right_inj, cons_prefix_cons] at hdo
    obtain rfl : s' = s := Token.literal.inj hdo.1
    obtain ⟨hs, rfl⟩ := (readLiteral_eq_self_iff h).mp hlit
    exact ⟨hs, hres⟩
  · rintro ⟨hs, hres⟩
    rw [(readLiteral_eq_self_iff h).mpr ⟨hs, rfl⟩]
    exact hres

section
variable {ps : List (Piece α)}

section
variable (hwf : ∀ p ∈ ps, p.WellFormed A)
include hwf

theorem head?_text_ne_quote (h : ∀ p ∈ ps.head?, p.isLiteral = false) :
    (ps.flatMap (Piece.text A)).head? ≠ some A.quote := by
  cases ps with
  | nil => simp
  | cons p ps =>
    have hp := hwf p mem_cons_self
    have hlit := h p rfl
    cases p with
    | raw s | escaped s => cases hlit
    | word w =>
      obtain ⟨c, w, rfl⟩ := exists_cons_of_ne_nil hp.1
      have hc := hp.2 c mem_cons_self
      simp only [Alphabet.isWord, Bool.and_eq_true, decide_eq_true_eq] at hc
      simpa [Piece.text] using hc.1.1
    | mark c => simpa [Piece.text] using A.ne_quote_of_isMark hp
    | blank c => simpa [Piece.text] using A.ne_quote_of_isBlank hp

theorem isWord_head?_text (h : ∀ p ∈ ps.head?, p.isWord = false) :
    ∀ c ∈ (ps.flatMap (Piece.text A)).head?, A.isWord c = false := by
  cases ps with
  | nil => simp
  | cons p ps =>
    have hwo := h p rfl
    cases p with
    | raw s | escaped s => simp [Piece.text, Alphabet.isWord]
    | word w => cases hwo
    | mark c | blank c => simp_all [Piece.text, Piece.WellFormed, Alphabet.isWord]

theorem read_text (hap : ps.IsChain Piece.Apart) (ts : List (Token α)) :
    read A ⟨.between, ts⟩ (ps.flatMap (Piece.text A)) = some (ts ++ ps.flatMap Piece.tokens) ↔
      ∀ p ∈ ps, p.Clean A := by
  induction ps generalizing ts with
  | nil => simp [finish]
  | cons p ps ih =>
    obtain ⟨hp, hps⟩ := forall_mem_cons.mp hwf
    obtain ⟨hnext, hta⟩ := isChain_cons.mp hap
    have hre (t : Token α) : read A ⟨.between, ts ++ [t]⟩ (ps.flatMap (Piece.text A)) =
        some (ts ++ t :: ps.flatMap Piece.tokens) ↔ ∀ p ∈ ps, p.Clean A := by
      rw [← ih hps hta (ts ++ [t]), append_assoc]
      rfl
    rw [flatMap_cons, flatMap_cons, forall_mem_cons]
    cases p with
    | raw s =>
      have hh :=
        head?_text_ne_quote hps fun p' hp' => by
        simpa [Piece.Apart, Piece.isLiteral] using (hnext p' hp').1
      exact (read_between_raw hh).trans (and_congr Iff.rfl (hre _))
    | escaped s =>
      have hh :=
        head?_text_ne_quote hps fun p' hp' => by
        simpa [Piece.Apart, Piece.isLiteral] using (hnext p' hp').1
      rw [read_between_escaped hh]
      exact (hre _).trans (by simp [Piece.Clean])
    | word w =>
      have hh :=
        isWord_head?_text hps fun p' hp' => by
        simpa [Piece.Apart, Piece.isWord] using (hnext p' hp').2
      rw [Piece.text, read_between_word hp.1 hp.2 hh]
      exact (hre _).trans (by simp [Piece.Clean])
    | mark c =>
      rw [Piece.text, singleton_append, read_between_mark hp]
      exact (hre _).trans (by simp [Piece.Clean])
    | blank c =>
      rw [Piece.text, singleton_append, read_between_blank hp]
      exact (ih hps hta ts).trans (by simp [Piece.Clean])

/-- A text is read as the pieces it is put together of, if and only if the literals that are
pasted have no quotes. -/
theorem tokens_text (hap : ps.IsChain Piece.Apart) :
    tokens A (ps.flatMap (Piece.text A)) = some (ps.flatMap Piece.tokens) ↔ ∀ p ∈ ps, p.Clean A :=
  read_text hwf hap []

end

end

/-! ## Lists of pieces -/

theorem flatMap_intercalate {β γ : Type} (f : β → List γ) (sep : List β) (ls : List (List β)) :
    (sep.intercalate ls).flatMap f = (sep.flatMap f).intercalate (ls.map (List.flatMap f)) := by
  induction ls with
  | nil => rfl
  | cons l ls ih =>
    cases ls with
    | nil => simp
    | cons l' ls => simpa using ih

omit [DecidableEq α] in
/-- A mark keeps what is on both sides of it apart. -/
theorem isChain_append_mark {ps ps' : List (Piece α)} (c : α) (h : ps.IsChain Piece.Apart)
    (h' : ps'.IsChain Piece.Apart) :
    (ps ++ .mark c :: ps').IsChain Piece.Apart := by
  rw [isChain_append, isChain_cons]
  exact ⟨h, ⟨fun p _ => by simp [Piece.Apart, Piece.isLiteral, Piece.isWord], h'⟩,
    fun p _ p' hp' => by
    obtain rfl : Piece.mark c = p' := by simpa using hp'
    simp [Piece.Apart, Piece.isLiteral, Piece.isWord]⟩

omit [DecidableEq α] in
theorem isChain_intercalate {ls : List (List (Piece α))} (c : α)
    (h : ∀ l ∈ ls, l.IsChain Piece.Apart) :
    ([Piece.mark c].intercalate ls).IsChain Piece.Apart := by
  induction ls with
  | nil => exact List.IsChain.nil
  | cons l ls ih =>
    obtain ⟨hl, hls⟩ := forall_mem_cons.mp h
    cases ls with
    | nil => simpa using hl
    | cons l' ls => simpa using isChain_append_mark c hl (ih hls)

theorem forall_mem_intercalate {β : Type} {P : β → Prop} {sep : List β} (hsep : ∀ b ∈ sep, P b)
    {ls : List (List β)} :
    (∀ b ∈ sep.intercalate ls, P b) ↔ ∀ l ∈ ls, ∀ b ∈ l, P b := by
  simp only [intercalate]
  induction ls with
  | nil => simp
  | cons l ls ih =>
    cases ls with
    | nil => simp
    | cons l' ls =>
      rw [intersperse_cons_cons, flatten_cons, flatten_cons, forall_mem_append,
        forall_mem_append, ih, and_iff_right hsep]
      simp only [mem_cons, forall_eq_or_imp]

end Quoting
