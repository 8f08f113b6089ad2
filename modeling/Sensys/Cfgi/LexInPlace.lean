import Sensys.Cfgi.Lexeme
import Sensys.Lib.Text
/-!
# The lexer reads what it has not yet overwritten

`Lexing s out rest`: the buffer has the characters `out` in front and the rest of the text where
the lexer reads, and what is written is not longer than what is read. Every turn of the loop takes
one lexeme from the rest and writes what `emit` says (`step_next`).
-/
namespace Sensys.Cfgi
open Buffer List

section
variable {tx : Nat → Char} {t more : List Char}

theorem strchr_found {c : Char} {n p : Nat} (h : Buffer.Holds tx p (t ++ c :: more)) (hc : c ∉ t)
    (hnul : '\x00' ∉ t) (hn : t.length < n) : strchr tx c n p = some (p + t.length) := by
  induction t generalizing n p with
  | nil =>
    obtain ⟨n, rfl⟩ : ∃ m, n = m + 1 := ⟨n - 1, by simp at hn; omega⟩
    rw [strchr, if_pos h.1]
    rfl
  | cons d t ih =>
    obtain ⟨n, rfl⟩ : ∃ m, n = m + 1 := ⟨n - 1, by simp at hn; omega⟩
    have hd : tx p = d := h.1
    have hdc : d ≠ c := fun he => hc (by simp [he])
    have hdn : d ≠ '\x00' := fun he => hnul (by simp [he])
    rw [strchr, hd, if_neg hdc, if_neg hdn,
      ih h.2 (fun hm => hc (mem_cons_of_mem _ hm)) (fun hm => hnul (mem_cons_of_mem _ hm))
      (by simpa using hn)]
    simp only [length_cons]
    congr 1
    omega

theorem strchr_none {c : Char} {p : Nat} (h : Buffer.Holds tx p (t ++ '\x00' :: more)) (hc : c ∉ t)
    (hne : c ≠ '\x00') (n : Nat) : strchr tx c n p = none := by
  induction n generalizing t p with
  | zero => rfl
  | succ n ih =>
    cases t with
    | nil =>
      have hd : tx p = '\x00' := h.1
      rw [strchr, hd, if_neg hne.symm, if_pos rfl]
    | cons d t =>
      have hd : tx p = d := h.1
      have hdc : d ≠ c := fun he => hc (by simp [he])
      rw [strchr, hd, if_neg hdc]
      split
      · rfl
      · exact ih h.2 fun hm => hc (mem_cons_of_mem _ hm)

theorem anyForbidden_eq {l : List Char} {i : Nat} (h : Buffer.Holds tx i l) :
    anyForbidden tx i (i + l.length) = l.any isForbidden := by
  unfold anyForbidden
  rw [Nat.add_sub_cancel_left]
  induction l generalizing i with
  | nil => rfl
  | cons c l ih =>
    rw [length_cons, List.range'_succ, any_cons, any_cons, ih h.2, h.1]

/-- The search for the end of a directive, from anywhere inside it. -/
theorem directiveEnd_cut {cs : List Char} {q fsize n : Nat} {m : Nat → Nat}
    (h : Buffer.Holds tx q (cs ++ ['\x00'])) (hq : q + cs.length = fsize) (hn : cs.length < n)
    (hm : ∀ p, q ≤ p → fsize < m p + p) :
    ((strchr tx '>' n q).bind fun p => directiveEnd tx fsize (m p) p) =
      (cutDirective (tx (q - 2)) (tx (q - 1)) cs).bind fun d =>
        if '\x00' ∈ d.1 then none else some (q + d.1.length - 1) := by
  induction cs generalizing q n m with
  | nil =>
    rw [strchr_none h (by simp) (by decide)]
    rfl
  | cons c cs ih =>
    obtain ⟨n, rfl⟩ : ∃ k, n = k + 1 := ⟨n - 1, by simp at hn; omega⟩
    have hc : tx q = c := h.1
    have hre : q + 1 + cs.length = fsize := by simp at hq; omega
    have hlen : ∀ d : List Char, q + 1 + d.length - 1 = q + (d.length + 1) - 1 := fun d => by omega
    by_cases hgt : c = '>'
    · subst hgt
      have hmq : m q = m q - 1 + 1 := by have := hm q (Nat.le_refl _); omega
      rw [strchr, if_pos hc, Option.bind_some, hmq, directiveEnd, cutDirective]
      by_cases hend : tx (q - 1) = '?' ∨ tx (q - 1) = '-' ∧ tx (q - 2) = '-'
      · rw [if_pos (by simpa [endsDirective] using hend), if_pos ⟨rfl, hend⟩]
        simp
      · rw [if_neg (by simpa [endsDirective] using hend), if_neg fun hx => hend hx.2]
        have ih := @ih (q + 1) (fsize - q) (fun _ => m q - 1) h.2 hre (by omega) fun p hp => by
          have := hm q (Nat.le_refl _)
          omega
        refine ih.trans ?_
        simp only [Nat.add_sub_cancel, hc, show q + 1 - 2 = q - 1 by omega]
        cases cutDirective (tx (q - 1)) '>' cs with
        | none => rfl
        | some d => simp [hlen]
    · have hcut : ∀ a b, cutDirective a b (c :: cs) = (cutDirective b c cs).map fun d =>
          (c :: d.1, d.2) :=
        fun a b => if_neg fun hx => hgt hx.1
      rw [strchr, hc, if_neg hgt, hcut]
      by_cases hnul : c = '\x00'
      · subst hnul
        cases cutDirective (tx (q - 1)) '\x00' cs with
        | none => rfl
        | some d => simp
      · rw [if_neg hnul, ih h.2 hre (by simpa using hn) fun p hp => hm p (by omega)]
        simp only [Nat.add_sub_cancel, hc, show q + 1 - 2 = q - 1 by omega]
        cases cutDirective (tx (q - 1)) c cs with
        | none => rfl
        | some d => simp [hlen, Ne.symm hnul]

end

/-- In front of a directive nothing can make it end early. -/
theorem cutDirective_head {h : Char} (hh : h = '!' ∨ h = '?') (a b a' b' : Char) (cs : List Char) :
    cutDirective a b (h :: cs) = cutDirective a' b' (h :: cs) := by
  have hgt : h ≠ '>' := by rcases hh with rfl | rfl <;> decide
  have hda : h ≠ '-' := by rcases hh with rfl | rfl <;> decide
  cases cs with
  | nil => simp [cutDirective, hgt]
  | cons c cs => simp [cutDirective, hgt, hda]

theorem cutAt_cases (stop : Char) (cs : List Char) :
    stop ∉ cs ∧ cutAt stop cs = none ∨ ∃ t rest, cs = t ++ stop :: rest ∧ stop ∉ t ∧
      cutAt stop cs = if t.any isForbidden then none else some (t, rest) := by
  unfold cutAt
  split
  · rename_i hdr
    refine Or.inl ⟨fun hm => ?_, rfl⟩
    simpa using dropWhile_eq_nil_iff.1 hdr stop hm
  · rename_i c rest hdr
    obtain ⟨heq, hc⟩ := Text.dropWhile_eq_cons hdr
    have hst : c = stop := by simpa using hc
    rw [hst] at heq
    refine Or.inr ⟨_, rest, heq, fun hm => ?_, rfl⟩
    simpa using mem_takeWhile_imp hm

theorem cutAt_eq_some {stop : Char} {cs t rest : List Char} (h : cutAt stop cs = some (t, rest)) :
    cs = t ++ stop :: rest ∧ ∀ c ∈ t, isForbidden c = false := by
  obtain ⟨-, hcut⟩ | ⟨t, rest, rfl, -, hcut⟩ := cutAt_cases stop cs
  · rw [hcut] at h
    cases h
  · rw [hcut] at h
    split at h
    · cases h
    · rename_i hany
      cases h
      exact ⟨rfl, by simpa using hany⟩

theorem isForbidden_nul : isForbidden '\x00' = true := by decide

/-- The rest of the text is still there, the output is in front of it and not longer than what was
read. -/
structure Lexing (fsize : Nat) (s : LexState) (out rest : List Char) : Prop where
  rest_held : Buffer.Holds s.tx s.i (rest ++ ['\x00'])
  out_held  : Buffer.Holds s.tx 0 out
  w_eq      : s.w = out.length
  behind    : s.w ≤ s.i
  i_eq      : s.i + rest.length = fsize

section
variable {fsize : Nat} {s : LexState} {out cs : List Char} {c : Char}

theorem Lexing.char (h : Lexing fsize s out (c :: cs)) : s.tx s.i = c := h.rest_held.1

/-- The state at a `<`, when the run of data before it has been ended. -/
structure AtTag (fsize : Nat) (s : LexState) (out cs : List Char) : Prop where
  held     : Buffer.Holds s.tx (s.i + 1) (cs ++ ['\x00'])
  here     : s.tx s.i = '<' ∨ s.tx s.i = '\n'
  out_held : Buffer.Holds s.tx 0 out
  w_eq     : s.w = out.length
  behind   : s.w ≤ s.i + 1
  i_eq     : s.i + 1 + cs.length = fsize

theorem AtTag.strchr_eq (h : AtTag fsize s out cs) :
    strchr s.tx '>' (fsize + 1 - s.i) s.i = strchr s.tx '>' (fsize - s.i) (s.i + 1) := by
  have hi := h.i_eq
  rw [show fsize + 1 - s.i = (fsize - s.i) + 1 by omega, strchr]
  rcases h.here with hc | hc <;> rw [hc, if_neg (by decide), if_neg (by decide)]

/-- A directive is passed over, unless it has a terminator in it. -/
theorem lexTag_directive (h : AtTag fsize s out cs)
    (hd : cs.head? = some '!' ∨ cs.head? = some '?') :
    lexTag fsize s = (cutDirective '\x00' '<' cs).bind fun d =>
      if '\x00' ∈ d.1 then none else some { s with i := s.i + 1 + d.1.length } := by
  have hi := h.i_eq
  obtain ⟨c, cs', rfl⟩ : ∃ c cs', cs = c :: cs' := by
    cases cs with
    | nil => simp at hd
    | cons c cs' => exact ⟨c, cs', rfl⟩
  have hc : c = '!' ∨ c = '?' := by simpa using hd
  have hh : s.tx (s.i + 1) = c := h.held.1
  have hcut :=
    directiveEnd_cut (n := fsize - s.i) (m := fun p => fsize + 1 - p) h.held hi (by omega)
    fun p _ => by omega
  rw [cutDirective_head hc _ _ '\x00' '<'] at hcut
  have hlex : lexTag fsize s = ((strchr s.tx '>' (fsize - s.i) (s.i + 1)).bind fun p =>
      directiveEnd s.tx fsize (fsize + 1 - p) p).map fun p => { s with i := p + 1 } := by
    unfold lexTag
    simp only [hh, hc, if_true, Option.map_bind]
    rw [h.strchr_eq]
    rfl
  rw [hlex, hcut]
  cases hd : cutDirective '\x00' '<' (c :: cs') with
  | none => rfl
  | some d =>
    simp only [Option.bind_some]
    split
    · rfl
    · simp only [Option.map_some]
      congr 2
      omega

/-- The search for the end with the check for forbidden characters is cutting off. -/
theorem strchr_cutAt {β : Type} {tx : Nat → Char} {i n : Nat} {stop : Char} (f : Nat → Option β)
    (h : Buffer.Holds tx (i + 1) (cs ++ ['\x00'])) (hn : cs.length < n) (hne : stop ≠ '\x00') :
    ((strchr tx stop n (i + 1)).bind fun p => if anyForbidden tx i p then none else f p) =
      if isForbidden (tx i) then none else (cutAt stop cs).bind fun d =>
      f (i + 1 + d.1.length) := by
  obtain ⟨hst, hcut⟩ | ⟨t, rest, rfl, hst, hcut⟩ := cutAt_cases stop cs
  · rw [strchr_none h hst hne, hcut]
    simp
  · rw [hcut]
    by_cases hnul : '\x00' ∈ t
    · rw [any_eq_true.2 ⟨_, hnul, isForbidden_nul⟩]
      obtain ⟨t1, t2, rfl⟩ := append_of_mem hnul
      simp only [append_assoc, cons_append] at h
      rw [strchr_none h (fun hm => hst (mem_append_left _ hm)) hne]
      simp
    · rw [append_assoc] at h
      have ht : Buffer.Holds tx i (tx i :: t) := ⟨rfl, (Buffer.Holds.append.1 h).1⟩
      have hf := anyForbidden_eq ht
      rw [length_cons, show i + (t.length + 1) = i + 1 + t.length by omega] at hf
      rw [strchr_found h hst hnul (by simp at hn; omega), Option.bind_some, hf, any_cons]
      cases isForbidden (tx i) <;> cases t.any isForbidden <;> rfl

theorem AtTag.noDirective (h : AtTag fsize s out cs)
    (hd : ¬ (cs.head? = some '!' ∨ cs.head? = some '?')) :
    ¬ (s.tx (s.i + 1) = '!' ∨ s.tx (s.i + 1) = '?') := by
  cases cs with
  | nil =>
    rw [show s.tx (s.i + 1) = '\x00' from h.held.1]
    decide
  | cons c cs =>
    rw [show s.tx (s.i + 1) = c from h.held.1]
    simpa using hd

theorem lexTag_eq (h : AtTag fsize s out cs) (hd : ¬ (cs.head? = some '!' ∨ cs.head? = some '?')) :
    lexTag fsize s = if isForbidden (s.tx s.i) then none else (cutAt '>' cs).map fun d => { s with
      tx := put (copy id d.1.length s.w (s.i + 1) s.tx) (s.w + d.1.length) '\n'
      w := s.w + d.1.length + 1
      i := s.i + 1 + d.1.length + 1 } := by
  have hi := h.i_eq
  unfold lexTag
  simp only [h.noDirective hd, if_false]
  rw [h.strchr_eq, strchr_cutAt _ h.held (by omega) (by decide), Option.map_eq_bind]
  simp [Function.comp_def]

/-- What is between the delimiters is copied behind the output. -/
theorem reads_copy (f : Char → Char) {t rest : List Char}
    (held : Buffer.Holds s.tx (s.i + 1) ((t ++ c :: rest) ++ ['\x00']))
    (hout : Buffer.Holds s.tx 0 out) (hw : s.w = out.length) (hbe : s.w ≤ s.i + 1)
    (hi : s.i + 1 + (t ++ c :: rest).length = fsize) :
    Lexing fsize { s with
      tx := put (copy f t.length s.w (s.i + 1) s.tx) (s.w + t.length) '\n'
      w := s.w + t.length + 1
      i := s.i + 1 + t.length + 1 } (out ++ t.map f ++ ['\n']) rest := by
  rw [append_assoc] at held
  obtain ⟨ht, hre⟩ := Buffer.Holds.append.1 held
  simp only [length_append, length_cons] at hi
  refine ⟨hre.2.congr fun j hj _ => copy_put_of_gt f s.tx (by omega) _, ?_,
    by simp [hw, Nat.add_assoc], by simp; omega, by simp; omega⟩
  have hco := hout.copy_put f ht (by omega) '\n'
  rw [← hw] at hco
  exact hco

/-- A marker is copied behind the output, unless the `<` has been overwritten. -/
theorem lexTag_marker (h : AtTag fsize s out cs)
    (hd : ¬ (cs.head? = some '!' ∨ cs.head? = some '?')) {t rest : List Char}
    (hcut : cutAt '>' cs = some (t, rest)) :
    if s.tx s.i = '\n' then lexTag fsize s = none
    else ∃ s', lexTag fsize s = some s' ∧ Lexing fsize s' (out ++ t ++ ['\n']) rest ∧
      s'.i = s.i + 1 + t.length + 1 ∧ s'.cameFromData = s.cameFromData := by
  rw [lexTag_eq h hd, hcut]
  split
  · rename_i hnl
    rw [hnl]
    rfl
  · rename_i hnl
    rw [h.here.resolve_right hnl]
    obtain ⟨rfl, -⟩ := cutAt_eq_some hcut
    have hre := reads_copy id h.held h.out_held h.w_eq h.behind h.i_eq
    rw [map_id] at hre
    exact ⟨_, rfl, hre, rfl, rfl⟩

theorem lexString_eq (h : Lexing fsize s out ('"' :: cs)) :
    lexString fsize s = (cutAt '"' cs).map fun d => { s with
      tx := put (copy untab d.1.length (s.w + 1) (s.i + 1) (put s.tx s.w '\t')) (s.w + 1 + d.1.length) '\n'
      w := s.w + 1 + d.1.length + 1
      i := s.i + 1 + d.1.length + 1 } := by
  have hi := h.i_eq
  simp only [length_cons] at hi
  unfold lexString
  rw [strchr_cutAt _ h.rest_held.2 (by omega) (by decide), h.char, if_neg (by decide),
    Option.map_eq_bind]
  simp [Function.comp_def]

theorem lexString_some (h : Lexing fsize s out ('"' :: cs)) {t rest : List Char} (hcut : cutAt '"' cs = some (t, rest)) :
    ∃ s', lexString fsize s = some s' ∧ Lexing fsize s' (out ++ '\t' :: t.map untab ++ ['\n']) rest ∧
      s'.i = s.i + 1 + t.length + 1 ∧ s'.cameFromData = s.cameFromData := by
  rw [lexString_eq h, hcut]
  obtain ⟨rfl, -⟩ := cutAt_eq_some hcut
  have hbe := h.behind
  have hw := h.w_eq
  have hi := h.i_eq
  have hout : Buffer.Holds (put s.tx s.w '\t') 0 (out ++ ['\t']) := by
    rw [hw]
    simpa using h.out_held.put_end '\t'
  have hre := @reads_copy fsize { s with tx := put s.tx s.w '\t', w := s.w + 1 } _ '"' untab t rest
    (h.rest_held.2.put_left (by omega) '\t') hout (by simp [hw]) (by simp; omega) (by simp at hi ⊢; omega)
  exact ⟨_, rfl, by simpa using hre, rfl, rfl⟩

theorem lexDatum_came (h : Lexing fsize s out (c :: cs)) (hca : s.cameFromData = true) :
    Lexing fsize (lexDatum s) (out ++ [c]) cs := by
  have hw := h.w_eq
  have hbe := h.behind
  have hi := h.i_eq
  simp only [length_cons] at hi
  rw [lexDatum, if_pos hca]
  refine ⟨h.rest_held.2.put_left (by omega) _, ?_, by simp [hw], ?_, ?_⟩
  · rw [h.char, hw]
    simpa using h.out_held.put_end c
  · show s.w + 1 ≤ s.i + 1
    omega
  · show s.i + 1 + cs.length = fsize
    omega

theorem lexDatum_start (h : Lexing fsize s out (c :: cs)) (hca : s.cameFromData = false)
    (hlt : s.w < s.i) :
    Lexing fsize (lexDatum s) (out ++ ['\t', c]) cs := by
  have hw := h.w_eq
  have hi := h.i_eq
  simp only [length_cons] at hi
  rw [lexDatum, if_neg (by simp [hca])]
  refine ⟨(h.rest_held.2.put_left (by omega) _).put_left (by omega) _, ?_, by simp [hw], ?_, ?_⟩
  · have hput := (h.out_held.put_end '\t').put_end c
    rw [h.char, hw]
    simpa using hput
  · show s.w + 2 ≤ s.i + 1
    omega
  · show s.i + 1 + cs.length = fsize
    omega

/-- The run of data before a `<` is ended; the `<` is lost if the output is as long as what was
read. -/
theorem Lexing.endData (h : Lexing fsize s out ('<' :: cs)) :
    AtTag fsize (endData s) (if s.cameFromData then out ++ ['\n'] else out) cs ∧
      ((endData s).tx s.i = '\n' ↔ s.cameFromData = true ∧ s.w = s.i) := by
  have hw := h.w_eq
  have hbe := h.behind
  have hi := h.i_eq
  have hh := h.char
  simp only [length_cons] at hi
  unfold Cfgi.endData
  by_cases hca : s.cameFromData = true
  · rw [if_pos hca, if_pos hca]
    have hout : Buffer.Holds (put s.tx s.w '\n') 0 (out ++ ['\n']) := by
      rw [hw]
      simpa using h.out_held.put_end '\n'
    by_cases hti : s.w = s.i
    · have hnl : put s.tx s.w '\n' s.i = '\n' := by rw [hti, put_self]
      exact ⟨⟨h.rest_held.2.put_left (by omega) _, Or.inr hnl, hout,
        by simp [hw], by simp; omega, by simp; omega⟩, fun _ => ⟨hca, hti⟩, fun _ => hnl⟩
    · have hlt : put s.tx s.w '\n' s.i = '<' := by rw [put_of_ne _ (Ne.symm hti), hh]
      exact ⟨⟨h.rest_held.2.put_left (by omega) _, Or.inl hlt, hout,
        by simp [hw], by simp; omega, by simp; omega⟩, by simp [hlt, hti]⟩
  · rw [if_neg hca, if_neg hca]
    exact ⟨⟨h.rest_held.2, Or.inl hh, h.out_held, hw, by omega, by omega⟩, by simp [hh, hca]⟩

theorem endData_i (s : LexState) : (endData s).i = s.i := by
  unfold endData
  split <;> rfl

theorem endData_came (s : LexState) : (endData s).cameFromData = false := by
  unfold endData
  split
  · rfl
  · rename_i h
    simpa using h

theorem cutDirective_append {a b : Char} {cs d rest : List Char}
    (h : cutDirective a b cs = some (d, rest)) :
    cs = d ++ rest := by
  induction cs generalizing a b d with
  | nil => cases h
  | cons c cs ih =>
    rw [cutDirective] at h
    split at h
    · cases h
      rfl
    · obtain ⟨⟨d', rest'⟩, hd', heq⟩ := Option.map_eq_some_iff.1 h
      cases heq
      rw [ih hd']
      rfl

/-- The state of the lexer is what the lexemes so far have led to. -/
structure Follows (fsize : Nat) (s : LexState) (v : Written) (rest : List Char) : Prop extends
    Lexing fsize s v.out rest where
  came_eq : s.cameFromData = v.came
  pos_eq  : s.i = v.i

/-- What follows when the next lexeme is `x`, with `rest` behind it. -/
def Takes (fsize : Nat) (s : LexState) (v : Written) (x : Lexeme) (rest : List Char) : Prop :=
  match v.next x with
  | .goes v' => ∃ s', step fsize s = some s' ∧ Follows fsize s' v' rest
  | .bad => step fsize s = none
  | .overtaken => ∃ s', step fsize s = some s' ∧ s'.i < s'.w

section
variable {v : Written} {rest : List Char} {t : List Char}

section
variable (h : Follows fsize s v ('<' :: cs))
include h

theorem step_tag : step fsize s = lexTag fsize (Cfgi.endData s) := by
  rw [step, h.char, if_neg (by decide), if_pos rfl]

theorem takes_directive (hd : cs.head? = some '!' ∨ cs.head? = some '?')
    {d : List Char} (hcut : cutDirective '\x00' '<' cs = some (d, rest)) :
    Takes fsize s v (.directive d) rest := by
  obtain ⟨hat, -⟩ := h.endData
  have hlex := lexTag_directive hat hd
  have happ := cutDirective_append hcut
  rw [hcut, Option.bind_some] at hlex
  unfold Takes Written.next
  rw [step_tag h]
  by_cases hnul : '\x00' ∈ d
  · simp only [hnul, if_true] at hlex ⊢
    exact hlex
  · simp only [hnul, if_false] at hlex ⊢
    have hh := hat.held
    have hi := hat.i_eq
    rw [happ, append_assoc] at hh
    rw [happ, length_append] at hi
    have hbe := hat.behind
    refine ⟨_, hlex, ⟨(Buffer.Holds.append.1 hh).2, ?_, ?_, Nat.le_trans hbe (Nat.le_add_right _ _),
      by simp; omega⟩, endData_came s, ?_⟩
    · rw [← h.came_eq]
      exact hat.out_held
    · rw [← h.came_eq]
      exact hat.w_eq
    · simp only [endData_i, h.pos_eq]

theorem takes_tag (hd : ¬ (cs.head? = some '!' ∨ cs.head? = some '?'))
    (hcut : cutAt '>' cs = some (t, rest)) : Takes fsize s v (.tag t) rest := by
  obtain ⟨hat, hti⟩ := h.endData
  have hlex := lexTag_marker hat hd hcut
  have hw := h.w_eq
  unfold Takes Written.next
  rw [step_tag h]
  rw [endData_i] at hlex
  by_cases ho : v.came = true ∧ v.out.length = v.i
  · have hnl : (Cfgi.endData s).tx s.i = '\n' :=
      hti.2 ⟨h.came_eq.trans ho.1, by rw [hw, ho.2, h.pos_eq]⟩
    rw [if_pos hnl] at hlex
    simp only [ho, and_self, if_true]
    exact hlex
  · have hnl : ¬ (Cfgi.endData s).tx s.i = '\n' := fun hnl => by
      obtain ⟨hca, hwi⟩ := hti.1 hnl
      exact ho ⟨h.came_eq.symm.trans hca, by rw [← hw, hwi, h.pos_eq]⟩
    rw [if_neg hnl, h.came_eq] at hlex
    obtain ⟨s', hs', hre, hi, hca⟩ := hlex
    simp only [ho, if_false]
    exact ⟨s', hs', hre, hca.trans (endData_came s), by rw [hi, h.pos_eq]⟩

end

theorem takes_quote (h : Follows fsize s v ('"' :: cs)) (hcut : cutAt '"' cs = some (t, rest)) :
    Takes fsize s v (.quote t) rest := by
  obtain ⟨s', hs', hre, hi, hca⟩ := lexString_some h.toLexing hcut
  have hst : step fsize s = lexString fsize s := by
    rw [step, h.char, if_neg (by decide), if_neg (by decide), if_pos rfl]
  exact ⟨s', hst.trans hs', hre, hca.trans h.came_eq, by rw [hi, h.pos_eq]⟩

variable (h : Follows fsize s v (c :: cs))
include h

theorem takes_datum (hws : isWhitespace c = false) (hlt : c ≠ '<') (hq : c ≠ '"') :
    Takes fsize s v (.datum c) cs := by
  have hst : step fsize s = some (lexDatum s) := by
    rw [step, h.char, if_neg (by simp [hws]), if_neg hlt, if_neg hq]
  have hw := h.w_eq
  have hpos := h.pos_eq
  unfold Takes Written.next
  rw [hst]
  by_cases hca : v.came = true
  · have hca' : s.cameFromData = true := h.came_eq.trans hca
    simp only [hca, if_true]
    refine ⟨_, rfl, lexDatum_came h.toLexing hca', ?_, ?_⟩
    · rw [lexDatum, if_pos hca', hca']
    · rw [lexDatum, if_pos hca', hpos]
  · have hca' : s.cameFromData = false := h.came_eq.trans (by simpa using hca)
    by_cases hroom : v.out.length < v.i
    · simp only [hca, hroom, if_true]
      refine ⟨_, rfl, lexDatum_start h.toLexing hca' (by omega), ?_, ?_⟩
      · rw [lexDatum, if_neg (by simp [hca'])]
      · rw [lexDatum, if_neg (by simp [hca']), hpos]
    · simp only [hca, hroom, if_false]
      refine ⟨_, rfl, ?_⟩
      rw [lexDatum, if_neg (by simp [hca'])]
      show s.i + 1 < s.w + 2
      omega

theorem takes_blank (hws : isWhitespace c = true) : Takes fsize s v (.blank c) cs := by
  have hst : step fsize s = some { s with i := s.i + 1 } := by rw [step, h.char, if_pos hws]
  have hi := h.i_eq
  simp only [length_cons] at hi
  have hpos := h.pos_eq
  refine ⟨_, hst, ⟨h.rest_held.2, h.out_held, h.w_eq, Nat.le_succ_of_le h.behind, ?_⟩, h.came_eq, ?_⟩
  · show s.i + 1 + cs.length = fsize
    omega
  · rw [hpos]

end

/-- **One turn of the loop is one lexeme.** -/
theorem step_next {v : Written} (h : Follows fsize s v (c :: cs)) :
    match nextLexeme c cs with
    | none => step fsize s = none
    | some (x, rest) => Takes fsize s v x rest := by
  unfold nextLexeme
  by_cases hws : isWhitespace c = true
  · rw [if_pos hws]
    exact takes_blank h hws
  · rw [if_neg hws]
    by_cases hlt : c = '<'
    · subst hlt
      by_cases hd : cs.head? = some '!' ∨ cs.head? = some '?'
      · rw [if_pos hd]
        cases hcut : cutDirective '\x00' '<' cs with
        | none =>
          have hlex := lexTag_directive h.endData.1 hd
          rw [hcut] at hlex
          exact (step_tag h).trans hlex
        | some d => exact takes_directive h hd hcut
      · rw [if_neg hd]
        cases hcut : cutAt '>' cs with
        | none =>
          refine (step_tag h).trans ((lexTag_eq h.endData.1 hd).trans ?_)
          simp [hcut]
        | some d => exact takes_tag h hd hcut
    · rw [if_neg hlt]
      by_cases hq : c = '"'
      · subst hq
        cases hcut : cutAt '"' cs with
        | none =>
          rw [step, h.char, if_neg hws, if_neg hlt, if_pos rfl]
          rw [lexString_eq h.toLexing, hcut]
          rfl
        | some d => exact takes_quote h hcut
      · rw [if_neg hq]
        exact takes_datum h (by simpa using hws) hlt hq

end

section
variable {fsize n : Nat} {s s' : LexState} {v : Written}

theorem neverAhead_step (hw : s.w ≤ s.i) (hi : s.i < fsize) (hs : step fsize s = some s') :
    NeverAhead fsize s ↔ NeverAhead fsize s' := by
  constructor
  · exact fun h t ht => h t (Relation.ReflTransGen.head ⟨hi, hs⟩ ht)
  · intro h t ht
    rcases Relation.ReflTransGen.cases_head ht with rfl | ⟨u, ⟨-, hu⟩, ht⟩
    · exact hw
    · rw [hs] at hu
      cases hu
      exact h t ht

theorem neverAhead_end (hw : s.w ≤ s.i) (hs : s.i < fsize → step fsize s = none) :
    NeverAhead fsize s := by
  intro t ht
  rcases Relation.ReflTransGen.cases_head ht with rfl | ⟨u, ⟨hi, hu⟩, -⟩
  · exact hw
  · rw [hs hi] at hu
    cases hu

/-- How the loop ends. -/
def Ends (fsize n : Nat) (s : LexState) : Outcome → Prop
  | .done out => (∃ s', lexLoop fsize n s = some s' ∧ Lexing fsize s' out []) ∧ NeverAhead fsize s
  | .bad => lexLoop fsize n s = none ∧ NeverAhead fsize s
  | .overtaken => ¬ NeverAhead fsize s

theorem Ends.of_step (hw : s.w ≤ s.i) (hi : s.i < fsize) (hs : step fsize s = some s') {o : Outcome}
    (h : Ends fsize n s' o) : Ends fsize (n + 1) s o := by
  have hloop : lexLoop fsize (n + 1) s = lexLoop fsize n s' := by
    rw [lexLoop, if_pos hi, hs, Option.bind_some]
  have hah := neverAhead_step hw hi hs
  cases o with
  | done out => exact ⟨by rw [hloop]; exact h.1, hah.2 h.2⟩
  | bad => exact ⟨hloop.trans h.1, hah.2 h.2⟩
  | overtaken => exact fun hs => h (hah.1 hs)

theorem Ends.bad_of_step (hw : s.w ≤ s.i) (hi : s.i < fsize) (hs : step fsize s = none) :
    Ends fsize (n + 1) s .bad := by
  refine ⟨?_, neverAhead_end hw fun _ => hs⟩
  rw [lexLoop, if_pos hi, hs, Option.bind_none]

/-- **The loop writes what the lexemes of the text say.** -/
theorem lexLoop_emit {rest : List Char} (h : Follows fsize s v rest) (hn : rest.length ≤ n) :
    Ends fsize n s (emit (lexemes n rest).2 v (lexemes n rest).1) := by
  induction n generalizing s v rest with
  | zero =>
    obtain rfl := length_eq_zero_iff.1 (Nat.le_zero.1 hn)
    have hi := h.i_eq
    exact ⟨⟨s, rfl, h.toLexing⟩, neverAhead_end h.behind fun hlt => by omega⟩
  | succ n ih =>
    cases rest with
    | nil =>
      have hi := h.i_eq
      simp only [length_nil] at hi
      exact ⟨⟨s, by rw [lexLoop, if_neg (by omega)], h.toLexing⟩,
        neverAhead_end h.behind fun hlt => by omega⟩
    | cons c cs =>
      have hi := h.i_eq
      have hlt : s.i < fsize := by simp at hi; omega
      have hnext := step_next h
      rw [lexemes]
      cases hx : nextLexeme c cs with
      | none =>
        rw [hx] at hnext
        exact Ends.bad_of_step h.behind hlt hnext
      | some xr =>
        obtain ⟨x, rest⟩ := xr
        rw [hx] at hnext
        simp only [Takes] at hnext
        simp only [emit]
        cases hv : v.next x with
        | goes v' =>
          rw [hv] at hnext
          obtain ⟨s', hs', hf⟩ := hnext
          have hi' := hf.i_eq
          have hpos := (Written.next_grows hv).1
          rw [← h.pos_eq, ← hf.pos_eq] at hpos
          exact Ends.of_step h.behind hlt hs' (ih hf (by omega))
        | bad =>
          rw [hv] at hnext
          exact Ends.bad_of_step h.behind hlt hnext
        | overtaken =>
          rw [hv] at hnext
          obtain ⟨s', hs', ho⟩ := hnext
          intro hnev
          have := hnev s' (Relation.ReflTransGen.single ⟨hlt, hs'⟩)
          omega

theorem follows_start (text : List Char) :
    Follows text.length (lexStart text) Written.start text := by
  exact ⟨⟨holds_getD [] text '\x00', trivial, rfl, Nat.le_refl _, by simp [lexStart]⟩, rfl, rfl⟩

end

end Sensys.Cfgi
