import Sensys.Cfgi.LexInPlace
/-!
# When the lexer and the tokenizer agree

The lexer writes one character more than it reads when a run of data starts and when it ends, and
one less for every blank and every tag. `Fits` keeps count of that, and of what the lexer gets
wrong in any case: a run of data that ends at a quote or at the end of the text, and terminators
in data and in directives.
-/
namespace Sensys.Cfgi
open Buffer List

/-- There is room for what is written, and no character is overwritten before it is read; up to
the first place where the lexer stops. -/
def Behind : Bool → Nat → List Lexeme → Prop
  | _, _, [] => True
  | came, room, .blank _ :: ls => Behind came (room + 1) ls
  | came, room, .datum _ :: ls =>
    if came then Behind true room ls else 0 < room ∧ Behind true (room - 1) ls
  | came, room, .directive d :: ls =>
    '\x00' ∈ d ∨ Behind false (room + 1 + d.length - came.toNat) ls
  | came, room, .tag _ :: ls => (came = true ∧ room = 0) ∨ Behind false (room + 1 - came.toNat) ls
  | came, room, .quote _ :: ls => Behind came room ls

/-- Every run of data ends at a tag or a directive and has room, and no terminator is in the way. -/
def Fits : Bool → Nat → List Lexeme → Prop
  | came, _, [] => came = false
  | came, room, .blank _ :: ls => Fits came (room + 1) ls
  | came, room, .datum c :: ls =>
    c ≠ '\x00' ∧ if came then Fits true room ls else 0 < room ∧ Fits true (room - 1) ls
  | came, room, .directive d :: ls => '\x00' ∉ d ∧ Fits false (room + 1 + d.length - came.toNat) ls
  | came, room, .tag _ :: ls => (came = true → 0 < room) ∧ Fits false (room + 1 - came.toNat) ls
  | came, room, .quote _ :: ls => came = false ∧ Fits false room ls

instance decidableBehind :
    ∀ (came : Bool) (room : Nat) (ls : List Lexeme), Decidable (Behind came room ls)
  | _, _, [] => isTrue trivial
  | came, room, x :: ls => by
    have := fun came room => decidableBehind came room ls
    cases x <;> dsimp only [Behind] <;> infer_instance

instance decidableFits :
    ∀ (came : Bool) (room : Nat) (ls : List Lexeme), Decidable (Fits came room ls)
  | came, _, [] => inferInstanceAs (Decidable (came = false))
  | came, room, x :: ls => by
    have := fun came room => decidableFits came room ls
    cases x <;> dsimp only [Fits] <;> infer_instance

/-- No line break and no terminator. -/
def Plain (t : List Char) : Prop := '\n' ∉ t ∧ '\x00' ∉ t

variable {t : List Char} {ts : List (List Char)} {o : Outcome} {out : List Char}

theorem lexItems_of_notMem (h : '\n' ∉ t) : lexItems t = [] := by
  rw [lexItems, splitOn_eq_singleton h]
  rfl

theorem lexItems_append_cons (h : '\n' ∉ t) (rest : List Char) :
    lexItems (t ++ '\n' :: rest) = t.takeWhile (· ≠ '\x00') :: lexItems rest := by
  rw [lexItems, splitOn_append_cons_self_of_not_mem h rest,
    dropLast_cons_of_ne_nil (splitOn_ne_nil _ _), map_cons]
  rfl

theorem takeWhile_plain (h : Plain t) (z : List Char) :
    (t ++ z).takeWhile (· ≠ '\x00') = t ++ z.takeWhile (· ≠ '\x00') :=
  takeWhile_append_of_pos (Text.decide_ne_of_notMem h.2)

/-- Tokens, each with a line break behind it. -/
def lines (ts : List (List Char)) : List Char := ts.flatMap (· ++ ['\n'])

theorem lines_concat (ts : List (List Char)) (t : List Char) :
    lines (ts ++ [t]) = lines ts ++ t ++ ['\n'] := by
  simp [lines]

theorem lexItems_lines (h : ∀ t ∈ ts, Plain t) (rest : List Char) :
    lexItems (lines ts ++ rest) = ts ++ lexItems rest := by
  induction ts with
  | nil => rfl
  | cons t ts ih =>
    have ht := h t mem_cons_self
    rw [lines, flatMap_cons, append_assoc, append_assoc, singleton_append,
      lexItems_append_cons ht.1, ← append_nil t, takeWhile_plain ht, takeWhile_nil, append_nil]
    exact congrArg (t :: ·) (ih (forall_mem_cons.1 h).2)

/-- A line that starts with `p` and has no end, or one that has. -/
theorem lexItems_start {p : List Char} (hp : '\n' ∉ p) (y : List Char) :
    lexItems (p ++ y) = [] ∨
      ∃ z rest, lexItems (p ++ y) = (p ++ z).takeWhile (· ≠ '\x00') :: rest := by
  by_cases hy : '\n' ∈ y
  · obtain ⟨z, rest, rfl, hz⟩ := eq_append_cons_of_mem hy
    refine Or.inr ⟨z, lexItems rest, ?_⟩
    rw [← append_assoc, lexItems_append_cons fun h => (mem_append.1 h).elim hp hz]
  · exact Or.inl (lexItems_of_notMem fun h => (mem_append.1 h).elim hp hy)

/-- What the cuts leave in a lexeme. -/
def Lexeme.Valid : Lexeme → Prop
  | .blank _ => True
  | .directive _ => True
  | .tag t => Plain t
  | .quote t => Plain (t.map untab)
  | .datum c => c ≠ '\n'

theorem plain_of_cutAt {stop : Char} {cs t rest : List Char} (h : cutAt stop cs = some (t, rest)) :
    Plain t ∧ Plain (t.map untab) := by
  obtain ⟨-, hf⟩ := cutAt_eq_some h
  have hn : '\n' ∉ t := fun hm => absurd (hf _ hm) (by decide)
  have h0 : '\x00' ∉ t := fun hm => absurd (hf _ hm) (by decide)
  have hun : ∀ {c d : Char}, d ≠ ' ' → untab c = d → c = d := by
    intro c d hd heq
    unfold untab at heq
    split at heq
    · exact absurd heq.symm hd
    · exact heq
  refine ⟨⟨hn, h0⟩, fun hm => ?_, fun hm => ?_⟩
  · obtain ⟨c, hc, heq⟩ := mem_map.1 hm
    exact hn (hun (by decide) heq ▸ hc)
  · obtain ⟨c, hc, heq⟩ := mem_map.1 hm
    exact h0 (hun (by decide) heq ▸ hc)

theorem nextLexeme_valid {c : Char} {cs rest : List Char} {x : Lexeme}
    (h : nextLexeme c cs = some (x, rest)) : x.Valid := by
  unfold nextLexeme at h
  split at h
  · cases h
    trivial
  · rename_i hws
    split at h
    · split at h
      · obtain ⟨d, -, heq⟩ := Option.map_eq_some_iff.1 h
        cases heq
        trivial
      · obtain ⟨d, hcut, heq⟩ := Option.map_eq_some_iff.1 h
        cases heq
        exact (plain_of_cutAt hcut).1
    · split at h
      · obtain ⟨d, hcut, heq⟩ := Option.map_eq_some_iff.1 h
        cases heq
        exact (plain_of_cutAt hcut).2
      · cases h
        rintro rfl
        exact hws rfl

theorem lexemes_valid (n : Nat) (text : List Char) : ∀ x ∈ (lexemes n text).1, x.Valid := by
  induction n generalizing text with
  | zero =>
    intro x hx
    cases text <;> cases hx
  | succ n ih =>
    intro x hx
    cases text with
    | nil => cases hx
    | cons c cs =>
      rw [lexemes] at hx
      cases hnext : nextLexeme c cs with
      | none =>
        rw [hnext] at hx
        cases hx
      | some xr =>
        rw [hnext] at hx
        rcases mem_cons.1 hx with rfl | hx
        · exact nextLexeme_valid hnext
        · exact ih _ x hx

/-! ## Output and tokens -/

/-- The run of data that is being read is a part of the next token. -/
theorem tokens_run (r : List Char) (ls : List Lexeme) :
    ∃ d rest, tokens (some r) ls = (r ++ d) :: rest := by
  induction ls generalizing r with
  | nil => exact ⟨[], [], by simp [tokens]⟩
  | cons x ls ih =>
    cases x with
    | blank c => exact ih r
    | datum c =>
      obtain ⟨d, rest, h⟩ := ih (r ++ [c])
      exact ⟨c :: d, rest, by simp [tokens, h]⟩
    | directive d => exact ⟨[], tokens none ls, by simp [tokens]⟩
    | tag t => exact ⟨[], t :: tokens none ls, by simp [tokens]⟩
    | quote t => exact ⟨[], ('\t' :: t.map untab) :: tokens none ls, by simp [tokens]⟩

theorem emit_extends {v : Written} {ls : List Lexeme} (h : emit true v ls = .done out) :
    ∃ more, out = v.out ++ more := by
  induction ls generalizing v with
  | nil =>
    cases h
    exact ⟨[], by simp⟩
  | cons x ls ih =>
    rw [emit] at h
    cases hv : v.next x with
    | goes v' =>
      rw [hv] at h
      obtain ⟨-, more, hm⟩ := Written.next_grows hv
      obtain ⟨more', hm'⟩ := ih h
      exact ⟨more ++ more', by rw [hm', hm, append_assoc]⟩
    | bad | overtaken => rw [hv] at h; cases h

/-- The output is the tokens so far, and the run of data that is being read. -/
structure Agrees (v : Written) (done : List (List Char)) (run : Option (List Char)) : Prop where
  out_eq  : v.out = lines done ++ run.getD []
  plain   : ∀ t ∈ done, Plain t
  run_ok  : ∀ r, run = some r → Plain r
  came_eq : v.came = run.isSome
  behind  : v.out.length ≤ v.i

section
variable {ls : List Lexeme} {v : Written} {done : List (List Char)} {out r : List Char}

/-- A line that starts with `p` is not a token that none with this start becomes. -/
theorem lexItems_ne (hdo : ∀ t ∈ done, Plain t) {p t : List Char} (hp : '\n' ∉ p)
    (hne : ∀ z, (p ++ z).takeWhile (· ≠ '\x00') ≠ t) (y : List Char) (ts : List (List Char)) :
    lexItems (lines done ++ (p ++ y)) ≠ done ++ t :: ts := by
  rw [lexItems_lines hdo]
  intro heq
  rcases lexItems_start hp y with hnil | ⟨z, rest, hl⟩
  · rw [hnil] at heq
    simp at heq
  · rw [hl] at heq
    exact hne z (List.cons.inj (append_cancel_left heq)).1

/-- A token that goes on behind the run of data `r` is not `r`. -/
theorem emit_merged (hout : ∃ y, v.out = lines done ++ (r ++ '\t' :: y)) (hdo : ∀ t ∈ done, Plain t)
    (hr : Plain r) (h : emit true v ls = .done out) (ts : List (List Char)) :
    lexItems out ≠ done ++ r :: ts := by
  obtain ⟨y, hy⟩ := hout
  obtain ⟨more, rfl⟩ := emit_extends h
  have hp : Plain (r ++ ['\t']) := ⟨by simp [hr.1], by simp [hr.2]⟩
  rw [hy, show lines done ++ (r ++ '\t' :: y) ++ more =
    lines done ++ ((r ++ ['\t']) ++ (y ++ more)) by simp]
  refine lexItems_ne hdo hp.1 (fun z hz => ?_) _ ts
  rw [takeWhile_plain hp] at hz
  simpa using congrArg List.length hz

/-- A token that is cut off at a terminator is not the run of data. -/
theorem emit_terminated (hout : v.out = lines done ++ (r ++ ['\x00'])) (hdo : ∀ t ∈ done, Plain t)
    (hr : Plain r) (h : emit true v ls = .done out) :
    lexItems out ≠ done ++ tokens (some (r ++ ['\x00'])) ls := by
  obtain ⟨more, rfl⟩ := emit_extends h
  obtain ⟨d, rest, htok⟩ := tokens_run (r ++ ['\x00']) ls
  rw [hout, htok, append_assoc]
  refine lexItems_ne hdo (by simp [hr.1]) (fun z hz => ?_) more rest
  rw [append_assoc, takeWhile_plain hr, singleton_append, takeWhile_cons_of_neg (by simp)] at hz
  simpa using congrArg List.length hz

end

section
variable {v : Written} {done : List (List Char)} {run : Option (List Char)}

theorem plain_concat (hts : ∀ t ∈ ts, Plain t) (ht : Plain t) :
    ∀ u ∈ ts ++ [t], Plain u := forall_mem_append.2 ⟨hts, forall_mem_singleton.2 ht⟩

theorem Agrees.flush (h : Agrees v done run) :
    (if v.came then v.out ++ ['\n'] else v.out) = lines (done ++ run.toList) ∧
      ∀ t ∈ done ++ run.toList, Plain t := by
  cases run with
  | none =>
    have hca : v.came = false := h.came_eq
    simpa [hca, h.out_eq] using h.plain
  | some r =>
    have hca : v.came = true := h.came_eq
    exact ⟨by simp [hca, h.out_eq, lines_concat], plain_concat h.plain (h.run_ok r rfl)⟩

theorem length_flush (v : Written) :
    (if v.came then v.out ++ ['\n'] else v.out).length = v.out.length + v.came.toNat := by
  cases v.came <;> simp

section
variable (h : Agrees v done run)
include h

theorem Agrees.blank : Agrees { v with i := v.i + 1 } done run :=
  ⟨h.out_eq, h.plain, h.run_ok, h.came_eq, Nat.le_succ_of_le h.behind⟩

theorem Agrees.directive (d : List Char) :
    Agrees ⟨false, v.i + 1 + d.length, if v.came then v.out ++ ['\n'] else v.out⟩
      (done ++ run.toList) none := by
  obtain ⟨hout, hpl⟩ := h.flush
  refine ⟨by simpa using hout, hpl, by simp, rfl, ?_⟩
  have hbe := h.behind
  have hca := Bool.toNat_le v.came
  simp only [length_flush]
  omega

theorem Agrees.tag (ht : Plain t) (hroom : v.out.length + v.came.toNat ≤ v.i) :
    Agrees ⟨false, v.i + 1 + t.length + 1,
      (if v.came then v.out ++ ['\n'] else v.out) ++ t ++ ['\n']⟩
      (done ++ run.toList ++ [t]) none := by
  obtain ⟨hout, hpl⟩ := h.flush
  refine ⟨by rw [lines_concat, hout, Option.getD_none, append_nil], plain_concat hpl ht,
    by simp, rfl, ?_⟩
  simp only [length_append, length_flush, length_singleton]
  omega

end

theorem Agrees.quote (h : Agrees v done none) (ht : Plain (t.map untab)) :
    Agrees { v with i := v.i + 1 + t.length + 1, out := v.out ++ '\t' :: t.map untab ++ ['\n'] }
      (done ++ ['\t' :: t.map untab]) none := by
  refine ⟨by simp [h.out_eq, lines_concat], plain_concat h.plain ⟨by simp [ht.1], by simp [ht.2]⟩,
    by simp, h.came_eq, ?_⟩
  have hbe := h.behind
  simp
  omega

end

/-- The lexer has the tokens `ts`, or stops, as `fits` says. -/
def Verdict (ts : List (List Char)) (fits : Prop) : Outcome → Prop
  | .done out => lexItems out = ts ↔ fits
  | _ => ¬ fits

theorem Verdict.congr {ts ts' : List (List Char)} {fits fits' : Prop} (h : Verdict ts fits o)
    (hts : ts = ts') (hfi : fits ↔ fits') : Verdict ts' fits' o := by
  subst hts
  cases o with
  | done out => exact Iff.trans h hfi
  | bad | overtaken => exact fun hf => h (hfi.2 hf)

theorem Verdict.never {fits : Prop} (h : ∀ out, o = .done out → lexItems out ≠ ts)
    (hf : ¬ fits) : Verdict ts fits o := by
  cases o with
  | done out => exact iff_of_false (h out rfl) hf
  | bad | overtaken => exact hf

section
variable {ls : List Lexeme} {v : Written} {done : List (List Char)} {k : Nat}

theorem verdict_datum {c : Char} (hc : c ≠ '\n') {r : List Char} (hr : Plain r) {u : Written}
    (hca : u.came = true) (hout : u.out = lines done ++ (r ++ [c])) (hdo : ∀ t ∈ done, Plain t)
    (hbe : u.out.length ≤ u.i) {fits : Prop}
    (ih : Agrees u done (some (r ++ [c])) →
      Verdict (done ++ tokens (some (r ++ [c])) ls) fits (emit true u ls)) :
    Verdict (done ++ tokens (some (r ++ [c])) ls) (c ≠ '\x00' ∧ fits) (emit true u ls) := by
  by_cases hnul : c = '\x00'
  · subst hnul
    exact Verdict.never (fun out h => emit_terminated hout hdo hr h) fun hf => hf.1 rfl
  · have hpl : Plain (r ++ [c]) := ⟨by simp [hr.1, hc.symm], by simp [hr.2, Ne.symm hnul]⟩
    refine (ih ⟨hout, hdo, fun r' hr' => ?_, hca, hbe⟩).congr rfl (by simp [hnul])
    cases hr'
    exact hpl

/-- **The output has the tokens exactly if the lexemes fit.** -/
theorem emit_tokens (hv : ∀ x ∈ ls, x.Valid) {run : Option (List Char)} (h : Agrees v done run)
    (hk : v.i = v.out.length + k) :
    Verdict (done ++ tokens run ls) (Fits v.came k ls) (emit true v ls) := by
  induction ls generalizing v done run k with
  | nil =>
    show lexItems v.out = done ++ run.toList ↔ v.came = false
    rw [h.out_eq, lexItems_lines h.plain, h.came_eq]
    cases run with
    | none => simp [lexItems]
    | some r => simp [lexItems_of_notMem (h.run_ok r rfl).1]
  | cons x ls ih =>
    obtain ⟨hx, hv'⟩ := forall_mem_cons.1 hv
    have hca := Bool.toNat_le v.came
    rw [emit]
    cases x with
    | blank c => exact ih hv' h.blank (congrArg (· + 1) hk)
    | datum c =>
      simp only [Written.next, Fits, tokens]
      cases run with
      | none =>
        have hca : v.came = false := h.came_eq
        have hout : v.out = lines done := by simpa using h.out_eq
        simp only [hca, Bool.false_eq_true, if_false, Option.getD_none]
        split_ifs with hlt
        · refine (verdict_datum hx (r := ['\t']) ⟨by decide, by decide⟩ rfl (by simp [hout]) h.plain
            (by simp; omega)
            fun h => ih hv' h (k := k - 1) (by simp; omega)).congr rfl ?_
          rw [and_iff_right (by omega : 0 < k)]
        · exact fun hf => by omega
      | some r =>
        have hca : v.came = true := h.came_eq
        simp only [hca, if_true, Option.getD_some]
        exact verdict_datum (u := ⟨true, v.i + 1, v.out ++ [c]⟩) hx (h.run_ok r rfl) rfl
          (by simp [h.out_eq]) h.plain
          (by simpa using h.behind) fun h => ih hv' h (by simp; omega)
    | directive d =>
      simp only [Written.next, Fits, tokens]
      by_cases hnul : '\x00' ∈ d
      · simp only [hnul, if_true]
        exact fun hf => hf.1 trivial
      · simp only [hnul, if_false, not_false_eq_true, true_and]
        exact (ih hv' (h.directive d) (by simp only [length_flush]; omega)).congr (by simp) Iff.rfl
    | tag t =>
      simp only [Written.next, Fits, tokens]
      by_cases hti : v.came = true ∧ v.out.length = v.i
      · simp only [hti, and_self, if_true]
        exact fun hf => by have := hf.1 trivial; omega
      · simp only [hti, if_false]
        have hpos : v.came = true → 0 < k := fun hc => by
          have : v.out.length ≠ v.i := fun he => hti ⟨hc, he⟩
          omega
        have hle : v.came.toNat ≤ k := by
          cases hc : v.came with
          | false => exact Nat.zero_le _
          | true => exact hpos hc
        rw [and_iff_right hpos]
        exact (ih hv' (h.tag hx (by omega))
          (by simp only [length_append, length_flush, length_singleton]; omega)).congr
          (by simp) Iff.rfl
    | quote t =>
      simp only [Written.next, Fits, tokens]
      cases run with
      | none =>
        have hca : v.came = false := h.came_eq
        rw [and_iff_right hca]
        exact (ih hv' (h.quote hx) (k := k) (by simp; omega)).congr (by simp) (by simp [hca])
      | some r =>
        have hca : v.came = true := h.came_eq
        refine Verdict.never (fun out ho => ?_) fun hf => by simp [hca] at hf
        exact emit_merged ⟨t.map untab ++ ['\n'], by simp [h.out_eq]⟩ h.plain (h.run_ok r rfl) ho _

theorem emit_behind (ok : Bool) (hk : v.i = v.out.length + k) :
    emit ok v ls ≠ .overtaken ↔ Behind v.came k ls := by
  induction ls generalizing v k with
  | nil => cases ok <;> simp [emit, Behind]
  | cons x ls ih =>
    have hca := Bool.toNat_le v.came
    rw [emit]
    cases x with
    | blank c => exact ih (congrArg (· + 1) hk)
    | datum c =>
      simp only [Written.next, Behind]
      cases hca : v.came with
      | true =>
        simp only [if_true]
        exact ih (by simp; omega)
      | false =>
        simp only [Bool.false_eq_true, if_false]
        split_ifs with hlt
        · rw [and_iff_right (by omega : 0 < k)]
          exact ih (by simp; omega)
        · exact iff_of_false (by simp) (by omega)
    | directive d =>
      simp only [Written.next, Behind]
      by_cases hnul : '\x00' ∈ d
      · simp [hnul]
      · simp only [hnul, if_false, false_or]
        exact ih (by simp only [length_flush]; omega)
    | tag t =>
      simp only [Written.next, Behind]
      by_cases hti : v.came = true ∧ v.out.length = v.i
      · exact iff_of_true (by simp [hti]) (Or.inl ⟨hti.1, by omega⟩)
      · have hno : ¬ (v.came = true ∧ k = 0) := fun hc => hti ⟨hc.1, by omega⟩
        simp only [hti, if_false, hno, false_or]
        exact ih (by simp only [length_append, length_flush, length_singleton]; omega)
    | quote t => exact ih (by simp; omega)

theorem emit_false (out : List Char) : emit false v ls ≠ .done out := by
  induction ls generalizing v with
  | nil => simp [emit]
  | cons x ls ih =>
    rw [emit]
    cases v.next x with
    | goes v' => exact ih
    | bad | overtaken => simp

theorem emit_of_tokens_nil (htok : tokens none ls = []) (hca : v.came = false) :
    emit true v ls = .bad ∨ emit true v ls = .done v.out := by
  induction ls generalizing v with
  | nil => exact Or.inr rfl
  | cons x ls ih =>
    rw [emit]
    cases x with
    | blank c => exact ih htok hca
    | datum c =>
      obtain ⟨d, rest, h⟩ := tokens_run ['\t', c] ls
      simp [tokens, h] at htok
    | directive d =>
      by_cases hnul : '\x00' ∈ d
      · exact Or.inl (by simp [Written.next, hnul])
      · simpa [Written.next, hnul, hca] using ih (v := ⟨false, v.i + 1 + d.length, v.out⟩) htok rfl
    | tag t | quote t => simp [tokens] at htok

end

/-! ## The whole text -/

section
variable {text : List Char}

theorem Ends.neverAhead_iff {fsize n : Nat} {s : LexState} (h : Ends fsize n s o) :
    NeverAhead fsize s ↔ o ≠ .overtaken := by
  cases o with
  | done out | bad => exact iff_of_true h.2 (by simp)
  | overtaken => exact iff_of_false h (by simp)

theorem lexXml_done (h : minFileSize ≤ text.length)
    (hend : Ends text.length text.length (lexStart text) (.done out)) :
    lexXml text = if lexItems out = [] then .error .badParam else .ok (lexItems out) := by
  obtain ⟨⟨s, hs, hre⟩, -⟩ := hend
  rw [lexXml, if_neg (Nat.not_lt.2 h), hs]
  simp only [hre.w_eq, hre.out_held.map_range]
  cases lexItems out <;> simp

theorem lexXml_bad (h : minFileSize ≤ text.length)
    (hend : Ends text.length text.length (lexStart text) .bad) :
    lexXml text = .error .badParam := by
  rw [lexXml, if_neg (Nat.not_lt.2 h), hend.1]

/-- The texts the lexer reads as they are: the runs of data have room and ends; where there are no
tokens to be had, nothing is overwritten before the lexer gives up. -/
def Readable (text : List Char) : Prop :=
  match tokenize text with
  | .ok _ => Fits false 0 (lexemes text.length text).1
  | .error _ => Behind false 0 (lexemes text.length text).1

instance (text : List Char) : Decidable (Readable text) :=
  match h : tokenize text with
  | .ok _ => decidable_of_iff (Fits false 0 (lexemes text.length text).1) (by rw [Readable, h])
  | .error _ => decidable_of_iff (Behind false 0 (lexemes text.length text).1) (by rw [Readable, h])

theorem ends_emit (text : List Char) : Ends text.length text.length (lexStart text)
    (emit (lexemes text.length text).2 Written.start (lexemes text.length text).1) :=
  lexLoop_emit (follows_start text) le_rfl

theorem neverAhead_iff (text : List Char) :
    NeverAhead text.length (lexStart text) ↔ Behind false 0 (lexemes text.length text).1 :=
  (ends_emit text).neverAhead_iff.trans (emit_behind _ rfl)

theorem lexXml_error (h : minFileSize ≤ text.length) (htok : tokenize text = .error .badParam)
    (hah : NeverAhead text.length (lexStart text)) : lexXml text = .error .badParam := by
  have hend := ends_emit text
  have hg := hend.neverAhead_iff.1 hah
  cases hok : (lexemes text.length text).2 with
  | false =>
    rw [hok] at hend hg
    cases hem : emit false Written.start (lexemes text.length text).1 with
    | done out => exact absurd hem (emit_false out)
    | bad => exact lexXml_bad h (hem ▸ hend)
    | overtaken => exact absurd hem hg
  | true =>
    have hnil : tokens none (lexemes text.length text).1 = [] := by
      cases hts : tokens none (lexemes text.length text).1 with
      | nil => rfl
      | cons t ts => simp [tokenize, hok, hts] at htok
    rw [hok] at hend
    rcases emit_of_tokens_nil hnil (v := Written.start) rfl with hem | hem
    · exact lexXml_bad h (hem ▸ hend)
    · exact lexXml_done h (hem ▸ hend)

/-- Where the tokenizer finds tokens, the lexer finds them if the lexemes fit, and stays behind. -/
theorem lexXml_ok (h : minFileSize ≤ text.length) {items : List (List Char)}
    (htok : tokenize text = .ok items) :
    lexXml text = .ok items ∧ NeverAhead text.length (lexStart text) ↔
      Fits false 0 (lexemes text.length text).1 := by
  have hend := ends_emit text
  have hok : (lexemes text.length text).2 = true := by
    by_contra hno
    simp [tokenize, hno] at htok
  have hit : items ≠ [] ∧ tokens none (lexemes text.length text).1 = items := by
    rw [tokenize, if_pos hok] at htok
    cases hts : tokens none (lexemes text.length text).1 with
    | nil =>
      rw [hts] at htok
      cases htok
    | cons t ts =>
      rw [hts] at htok
      cases htok
      exact ⟨by simp, rfl⟩
  have hst : Agrees Written.start [] none := ⟨rfl, by simp, by simp, rfl, le_rfl⟩
  have hv := emit_tokens (lexemes_valid text.length text) hst (k := 0) rfl
  rw [hok] at hend
  rw [nil_append, hit.2] at hv
  cases hem : emit true Written.start (lexemes text.length text).1 with
  | done out =>
    rw [hem] at hend hv
    have hv : lexItems out = items ↔ Fits false 0 (lexemes text.length text).1 := hv
    rw [lexXml_done h hend, and_iff_left hend.2, ← hv]
    constructor
    · intro heq
      split at heq
      · cases heq
      · exact Except.ok.inj heq
    · rintro rfl
      exact if_neg hit.1
  | bad =>
    rw [hem] at hend hv
    refine iff_of_false (fun hbo => ?_) hv
    rw [lexXml_bad h hend] at hbo
    cases hbo.1
  | overtaken =>
    rw [hem] at hend hv
    exact iff_of_false (fun hbo => hend hbo.2) hv

/-- **The lexer is the tokenizer, and stays behind what it reads, exactly on the readable texts.**
-/
theorem lexXml_tokenize_iff (text : List Char) (h : minFileSize ≤ text.length) :
    lexXml text = tokenize text ∧ NeverAhead text.length (lexStart text) ↔ Readable text := by
  rw [Readable]
  cases htok : tokenize text with
  | ok items => exact lexXml_ok h htok
  | error e =>
    have he : e = .badParam := by
      rw [tokenize] at htok
      split at htok
      · split at htok
        · exact (Except.error.inj htok).symm
        · cases htok
      · exact (Except.error.inj htok).symm
    subst he
    rw [← neverAhead_iff]
    exact ⟨fun hbo => hbo.2, fun hah => ⟨lexXml_error h htok hah, hah⟩⟩

def sampleText : List Char := "<?xml version=\"1.0\"?> <a> <b>x y</b> \"p\tq\" </a>".toList

theorem lexXml_tokenize_sample : Readable sampleText ∧ lexXml sampleText = tokenize sampleText ∧
    NeverAhead sampleText.length (lexStart sampleText) :=
  have hread : Readable sampleText := by decide +kernel
  ⟨hread, (lexXml_tokenize_iff sampleText (by decide +kernel)).2 hread⟩

def quotedData : List Char := "<?xml version=\"1.0\"?> <a>x \"y\"</a>".toList

/-- A string right behind a run of data becomes a part of it, and an empty token stands where the
run ends. -/
theorem quotedData_merged : minFileSize ≤ quotedData.length ∧
    lexXml quotedData = .ok ["a".toList, "\tx\ty".toList, [], "/a".toList] ∧
    tokenize quotedData = .ok ["a".toList, "\tx".toList, "\ty".toList, "/a".toList] := by
  decide +kernel

end

end Sensys.Cfgi
