import Sensys.Lib.Results
import Sensys.Lib.Text
/-!
# Reading node lists (`orte/util/regex.c:292-648`)

| here | there |
| --- | --- |
| `strtol`, `strtoul` | `strtol(s, NULL, base)`, before it is clipped to a `long`, `strtoul(s, NULL, base)` |
| `showInt` | `%d` |
| `extractNodeNames` | `:292-456` |
| `pieces` | `strchr` for the next comma, until the text is empty (`:97`, `:474`) |
| `parseNodeRanges`, `parseNodeRange` | `:467-504`, `:515-648` |
| `expandRange` | what it does with the two numbers (`:589-647`) |
| `nodeName` | the body of its last loop (`:621-643`) |

An item is a name, or `prefix[d:ranges]suffix`. The scans for `:` and for `]` start inside the
item and go on to the end of the whole text, and a range is read by looking for its first and its
second run of digits.

`errno` is read after each `strtol` (`:378`, `:539`, `:574`) and never reset, so a value left
there by an earlier read counts, also one of an earlier call. It is the state of the readers;
besides a `strtol` that is out of range, `log10(0)` sets it. The digits of a number are counted
with `(int)(log10((double)n)) + 1`; `log10` is a parameter, since what the conversion and the
logarithm round to is not this program's. Messages of errors are taken to leave `errno` as it is,
the list as not `NULL`, and memory as available.
-/
namespace Sensys.Orte
open Text Results List

abbrev Text := List Char

inductive Failure where
  | badParam
  | notFound
  /-- Not a return value: a write outside the buffer of the name. -/
  | overrun
deriving DecidableEq, Repr

/-- What the C library brings along. -/
structure Libc where
  /-- `errno == ERANGE` when reading starts. -/
  erange : Bool
  /-- `(int)(log10((double)n))`. -/
  log10  : Nat → Int

/-- What the C library says of its logarithm: the digits it counts are not too few, and on small
numbers they are as many as there are; that of zero is `-INFINITY`, which converts to `INT_MIN`. -/
structure Libc.Sound (L : Libc) : Prop where
  zero   : L.log10 0 = -2 ^ 31
  enough : ∀ n, 0 < n → ((Nat.toDigits 10 n).length : Int) ≤ L.log10 n + 1
  exact  : ∀ n, 0 < n → n ≤ 2 ^ 31 → ((Nat.toDigits 10 n).length : Int) = L.log10 n + 1

/-- `LONG_MAX`. -/
def longMax : Nat := 2 ^ 63 - 1

def isspace (c : Char) : Bool :=
  c = ' ' ∨ c = '\t' ∨ c = '\n' ∨ c = '\x0b' ∨ c = '\x0c' ∨ c = '\r'

/-- The value `strtol` reads, clipped to a `long` by the callers. -/
def strtol (base : Nat) (s : Text) : Int :=
  match s.dropWhile isspace with
  | '-' :: t => -(readUnsigned base t : Int)
  | '+' :: t => readUnsigned base t
  | t => readUnsigned base t

def strtoul (base : Nat) (s : Text) : UInt64 :=
  match s.dropWhile isspace with
  | '-' :: t =>
    if 2 ^ 64 ≤ readUnsigned base t then UInt64.ofNat (2 ^ 64 - 1)
    else -UInt64.ofNat (readUnsigned base t)
  | '+' :: t => UInt64.ofNat (min (readUnsigned base t) (2 ^ 64 - 1))
  | t => UInt64.ofNat (min (readUnsigned base t) (2 ^ 64 - 1))

def showInt (i : Int) : Text :=
  if i < 0 then '-' :: Nat.toDigits 10 i.natAbs else Nat.toDigits 10 i.natAbs

/-- What is read, with `errno == ERANGE` before and after it. -/
abbrev Reading := ExceptT Failure (StateM Bool)

/-- The test of `errno` behind a `strtol` whose value is `n`. -/
def checkErrno (n : Int) : Reading Unit := fun erange =>
  if erange ∨ n < -(longMax + 1) ∨ longMax < n then (.error .badParam, true) else (.ok (), false)

/-- `strtol` at a digit. -/
def readNumber (s : Text) : Reading Nat := do
  let n := digitsValue (s.takeWhile Char.isDigit)
  checkErrno n
  pure n

/-- The digits of `i` are written over the end of the base and its zeros. -/
def nodeName (base : Text) (numDigits : Int) (suffix : Text) (i : Nat) : Except Failure Text :=
  -- a negative width is a huge `size_t` in the loop that writes the zeros
  if numDigits < 0 then .error .overrun
  else
    let str := base ++ List.replicate numDigits.toNat '0'
    let tmp := Nat.toDigits 10 i
    if str.length < tmp.length then .error .overrun
    else .ok (str.take (str.length - tmp.length) ++ tmp ++ suffix)

/-- The names of the numbers from `start` to `stop` (`:589-647`). -/
def expandRange (L : Libc) (base : Text) (numDigits : Int) (suffix : Text) (start stop : Nat) :
    Reading (List Text) := fun erange =>
  if stop < start then (.error .badParam, erange)
  else
    -- a pole of the logarithm sets `errno`, and nothing here looks at it
    let erange := erange || stop = 0
    if numDigits < L.log10 stop + 1 then (.error .badParam, erange)
    else ((List.range' start (stop + 1 - start)).mapM (nodeName base numDigits suffix), erange)

def parseNodeRange (L : Libc) (base : Text) (numDigits : Int) (suffix range : Text) :
    Reading (List Text) :=
  match range.dropWhile fun c => !c.isDigit with
  | [] => throw .notFound
  | first => do
    let start ← readNumber first
    match first.dropWhile Char.isDigit with
    | [] => expandRange L base numDigits suffix start start
    | rest =>
      match rest.dropWhile fun c => !c.isDigit with
      | [] => throw .notFound
      | second => do
        let stop ← readNumber second
        expandRange L base numDigits suffix start stop

/-- What the loops over commas see: every piece before a comma, and what is behind the last comma
only if it is not empty. -/
def pieces (t : Text) : List Text :=
  let ps := t.splitOn ','
  if ps.getLast? = some [] then ps.dropLast else ps

def parseNodeRanges (L : Libc) (base : Text) (numDigits : Int) (suffix ranges : Text) :
    Reading (List Text) :=
  List.flatten <$> (pieces ranges).mapM (parseNodeRange L base numDigits suffix)

/-- Not one of the characters at which the scan for the base stops. -/
def inBase (c : Char) : Bool := c ≠ '[' ∧ c ≠ ',' ∧ c ≠ ']'

/-- One turn of the `do` loop: the names of the first item, and what is behind its comma if it has
one. -/
def extractItem (L : Libc) (base : Text) : Reading (List Text × Option Text) :=
  let name := base.takeWhile inBase
  if name = [] then throw .badParam
  else
    match base.dropWhile inBase with
    | [] => pure ([name], none)
    | ',' :: rest => pure ([name], some rest)
    | '[' :: rest =>
      match rest.dropWhile (· ≠ ':') with
      | [] => throw .badParam
      | _ :: afterColon => do
        let n := strtol 10 (rest.takeWhile (· ≠ ':'))
        checkErrno n
        match afterColon.dropWhile (· ≠ ']') with
        | [] => throw .badParam
        | _ :: afterBracket =>
          if afterBracket.head? = some '[' then throw .badParam
          else do
            -- `num_digits` is an `int`
            let numDigits := (BitVec.ofInt 32 n).toInt
            let ranges := afterColon.takeWhile (· ≠ ']')
            let suffix := afterBracket.takeWhile (· ≠ ',')
            let names ← parseNodeRanges L name numDigits suffix ranges
            pure (names, (afterBracket.dropWhile (· ≠ ',')).tail?)
    | _ => throw .badParam

/-- The `do` loop; each turn uses up at least one character. -/
def extractLoop (L : Libc) : Nat → Text → Reading (List Text)
  | 0, _ => throw .badParam
  | fuel + 1, base => do
    let (names, rest) ← extractItem L base
    match rest with
    | none => pure names
    | some more => (names ++ ·) <$> extractLoop L fuel more

/-- The names, and `errno` for the next call. -/
def extractNodeNames (L : Libc) (regexp : Text) : Reading (List Text) :=
  extractLoop L (regexp.length + 1) regexp

/-! ## A range -/

/-- A number as it is written: digits, at least one. -/
def IsNumber (t : Text) : Prop := t ≠ [] ∧ ∀ c ∈ t, c.isDigit = true
deriving Decidable

theorem IsNumber.toDigits (n : Nat) : IsNumber (Nat.toDigits 10 n) :=
  ⟨Nat.toDigits_ne_nil, fun _ hc => Nat.isDigit_of_mem_toDigits (by omega) (by omega) hc⟩

variable {c : Char} {L : Libc} {p : Char → Bool} {ts : List Text}

/-- Behind a digit there is neither blank nor sign to skip. -/
theorem strtol_of_digit {cs : Text} (hc : c.isDigit = true) :
    strtol 10 (c :: cs) = digitsValue ((c :: cs).takeWhile Char.isDigit) := by
  have hsp : isspace c = false := by
    by_contra hs
    have hs : isspace c = true := by simpa using hs
    simp only [isspace, decide_eq_true_eq] at hs
    rcases hs with rfl | rfl | rfl | rfl | rfl | rfl <;> exact absurd hc (by decide)
  unfold strtol
  rw [dropWhile_cons_of_neg (by simp [hsp])]
  split
  case h_3 => rw [readUnsigned_ten]
  all_goals
    rename_i heq
    cases heq
    exact absurd hc (by decide)

theorem strtol_number {digits : Text} (h : IsNumber digits) :
    strtol 10 digits = digitsValue digits := by
  obtain ⟨c, cs, rfl⟩ := exists_cons_of_ne_nil h.1
  rw [strtol_of_digit (h.2 c mem_cons_self), takeWhile_eq_self_iff.2 h.2]

section
variable {L : Libc} {base suffix junk lo : Text} {numDigits : Int}

theorem dropWhile_junk (hj : ∀ c ∈ junk, c.isDigit = false) (hlo : IsNumber lo) (rest : Text) :
    (junk ++ lo ++ rest).dropWhile (fun c => !c.isDigit) = lo ++ rest := by
  obtain ⟨c, cs, rfl⟩ := exists_cons_of_ne_nil hlo.1
  have hc : c.isDigit = true := hlo.2 c mem_cons_self
  rw [append_assoc, cons_append]
  exact dropWhile_append_cons (fun a ha => by simp [hj a ha]) (by simp [hc])

/-- Anything that is no digit may stand before a single number. -/
theorem parseNodeRange_one (hj : ∀ c ∈ junk, c.isDigit = false) (hlo : IsNumber lo) :
    parseNodeRange L base numDigits suffix (junk ++ lo) = (do
      checkErrno (digitsValue lo)
      expandRange L base numDigits suffix (digitsValue lo) (digitsValue lo)) := by
  have h1 := dropWhile_junk hj hlo []
  have h2 : lo.takeWhile Char.isDigit = lo := takeWhile_eq_self_iff.2 hlo.2
  have h3 : lo.dropWhile Char.isDigit = [] := dropWhile_eq_nil_iff.2 hlo.2
  obtain ⟨c, cs, rfl⟩ := exists_cons_of_ne_nil hlo.1
  rw [append_nil, append_nil] at h1
  unfold parseNodeRange readNumber
  rw [h1]
  simp only [h2, h3, bind_assoc, pure_bind]

/-- The second number starts at the first digit behind whatever ends the first one. -/
theorem parseNodeRange_pair {mid hi : Text} (hj : ∀ c ∈ junk, c.isDigit = false)
    (hlo : IsNumber lo) (hmid : ∀ c ∈ mid, c.isDigit = false) (hne : mid ≠ []) (hhi : IsNumber hi) :
    parseNodeRange L base numDigits suffix (junk ++ lo ++ (mid ++ hi)) = (do
      checkErrno (digitsValue lo)
      checkErrno (digitsValue hi)
      expandRange L base numDigits suffix (digitsValue lo) (digitsValue hi)) := by
  have h1 := dropWhile_junk hj hlo (mid ++ hi)
  have h4 := dropWhile_junk hmid hhi []
  have h5 : hi.takeWhile Char.isDigit = hi := takeWhile_eq_self_iff.2 hhi.2
  obtain ⟨m, ms, rfl⟩ := exists_cons_of_ne_nil hne
  have hm : m.isDigit = false := hmid m mem_cons_self
  have h2 : (lo ++ (m :: ms ++ hi)).takeWhile Char.isDigit = lo := takeWhile_append_cons hlo.2 hm
  have h3 : (lo ++ (m :: ms ++ hi)).dropWhile Char.isDigit = m :: ms ++ hi :=
    dropWhile_append_cons hlo.2 hm
  obtain ⟨c, cs, rfl⟩ := exists_cons_of_ne_nil hlo.1
  obtain ⟨d, ds, rfl⟩ := exists_cons_of_ne_nil hhi.1
  rw [append_nil, append_nil] at h4
  unfold parseNodeRange readNumber
  rw [h1]
  simp only [cons_append] at h2 h3 h4 ⊢
  simp only [h2, h3, h4, h5, bind_assoc, pure_bind]

theorem nodeName_pad {d i : Nat} (h : (Nat.toDigits 10 i).length ≤ d) :
    nodeName base d suffix i = .ok (base ++ pad d i ++ suffix) := by
  unfold nodeName
  have hneg : ¬ (d : Int) < 0 := by omega
  have hlen : ¬ (base ++ List.replicate (d : Int).toNat '0').length <
      (Nat.toDigits 10 i).length := by
    simp only [length_append, length_replicate, Int.toNat_natCast]; omega
  rw [if_neg hneg]
  rw [if_neg hlen]
  have hsub : base.length + d - (Nat.toDigits 10 i).length =
      base.length + (d - (Nat.toDigits 10 i).length) := by
    omega
  simp only [length_append, length_replicate, Int.toNat_natCast, hsub, pad,
    take_length_add_append, take_replicate, append_assoc]
  rw [Nat.min_eq_left (by omega)]

end

theorem toDigits_length_mono {i j : Nat} (h : i ≤ j) :
    (Nat.toDigits 10 i).length ≤ (Nat.toDigits 10 j).length := by
  have hj :=
    (Nat.length_toDigits_le_iff (b := 10) (n := j) (by omega) Nat.length_toDigits_pos).1
    (Nat.le_refl _)
  exact (Nat.length_toDigits_le_iff (by omega) Nat.length_toDigits_pos).2 (by omega)

/-- The digits of `n` fit in `d`, as the program counts them. -/
def Libc.Fits (L : Libc) (d n : Nat) : Prop := n = 0 ∨ L.log10 n + 1 ≤ d
deriving Decidable

theorem Libc.Sound.length_le (hL : L.Sound) {d n : Nat} (hd : 0 < d) (h : L.Fits d n) :
    (Nat.toDigits 10 n).length ≤ d := by
  rcases h with rfl | h
  · rw [Nat.toDigits_zero]; exact hd
  · rcases Nat.eq_zero_or_pos n with rfl | hn
    · rw [Nat.toDigits_zero]; exact hd
    · have := hL.enough n hn
      omega

theorem Libc.Sound.fits_iff (hL : L.Sound) {d n : Nat} :
    L.Fits d n ↔ ¬ (d : Int) < L.log10 n + 1 := by
  rcases Nat.eq_zero_or_pos n with rfl | hn
  · simp only [Libc.Fits, true_or, true_iff, hL.zero]; omega
  · simp only [Libc.Fits, Nat.pos_iff_ne_zero.1 hn, false_or]; omega

/-- The numbers from `lo` to `hi`, written in `d` digits. -/
def rangeNames (base suffix : Text) (d lo hi : Nat) : List Text :=
  (List.range' lo (hi + 1 - lo)).map fun i => base ++ pad d i ++ suffix

theorem expandRange_eq (hL : L.Sound) (base suffix : Text) {d : Nat} (hd : 0 < d) (lo hi : Nat)
    (erange : Bool) :
    expandRange L base d suffix lo hi erange =
      (if lo ≤ hi ∧ L.Fits d hi then .ok (rangeNames base suffix d lo hi) else .error .badParam,
        erange || (lo ≤ hi ∧ hi = 0)) := by
  unfold expandRange
  by_cases hle : lo ≤ hi
  · rw [if_neg (by omega)]
    simp only [hle, true_and]
    by_cases hf : L.Fits d hi
    · rw [if_neg (hL.fits_iff.1 hf), if_pos hf]
      refine Prod.ext (mapM_eq_ok fun i hi' => nodeName_pad ?_) rfl
      obtain ⟨k, hk, rfl⟩ := mem_range'.1 hi'
      have hm := toDigits_length_mono (i := lo + 1 * k) (j := hi) (by omega)
      have hfit := hL.length_le hd hf
      omega
    · rw [if_pos (by by_contra hn; exact hf (hL.fits_iff.2 hn)), if_neg hf]
  · rw [if_pos (by omega), if_neg fun h => hle h.1]
    simp [hle]

/-! ## One turn after the other -/

/-- Texts between commas. -/
def commas (ts : List Text) : Text := [','].intercalate ts

/-- Behind an item: nothing, or a comma and the rest. -/
def behind : Option Text → Text
  | none => []
  | some more => ',' :: more

theorem commas_cons (t : Text) (ts : List Text) :
    commas (t :: ts) = t ++ behind (if ts = [] then none else some (commas ts)) := by
  cases ts with
  | nil => simp [commas, behind]
  | cons u us => simp [commas, behind, intercalate_cons_cons]

theorem commas_concat (hne : ts ≠ []) (t : Text) : commas (ts ++ [t]) = commas ts ++ ',' :: t := by
  induction ts with
  | nil => exact absurd rfl hne
  | cons u us ih =>
    rw [cons_append, commas_cons, commas_cons]
    by_cases hus : us = []
    · subst hus
      simp [behind, commas]
    · simp [behind, hus, ih hus]

theorem notMem_commas (h : ∀ t ∈ ts, c ∉ t) (hc : c ≠ ',') : c ∉ commas ts := by
  induction ts with
  | nil => simp [commas]
  | cons t ts ih =>
    rw [commas_cons, mem_append]
    rintro (hm | hm)
    · exact h t mem_cons_self hm
    · by_cases hts : ts = []
      · simp [hts, behind] at hm
      · rw [if_neg hts, behind, mem_cons] at hm
        exact hm.elim hc (ih (forall_mem_cons.1 h).2)

/-- The pieces of texts between commas are the texts, if they have no commas and are not empty. -/
theorem pieces_commas (hne : ts ≠ []) (h : ∀ t ∈ ts, t ≠ [] ∧ ',' ∉ t) :
    pieces (commas ts) = ts := by
  have hsp : (commas ts).splitOn ',' = ts := splitOn_intercalate ',' (fun t ht => (h t ht).2) hne
  have hlast : ts.getLast? ≠ some [] := fun hl => (h [] (mem_of_getLast? hl)).1 rfl
  simp only [pieces, hsp, if_neg hlast]

theorem dropWhile_length_lt {l rest : Text} (h : l.dropWhile p = c :: rest) :
    rest.length < l.length := by
  have hle := length_dropWhile_le (p := p) l
  rw [h, length_cons] at hle
  omega

theorem pure_apply {α : Type} (a : α) (erange : Bool) :
    (pure a : Reading α) erange = (.ok a, erange) := rfl

theorem bind_apply {α β : Type} (x : Reading α) (f : α → Reading β) (erange : Bool) :
    (x >>= f) erange =
      match x erange with
      | (.ok a, erange) => f a erange
      | (.error e, erange) => (.error e, erange) := by
  change StateT.bind x (ExceptT.bindCont f) erange = _
  unfold StateT.bind
  rcases x erange with ⟨_ | a, erange⟩ <;> rfl

theorem exists_of_bind_apply {α β : Type} {x : Reading α} {f : α → Reading β}
    {erange erange' : Bool} {b : β} (h : (x >>= f) erange = (.ok b, erange')) :
    ∃ a e, x erange = (.ok a, e) ∧ f a e = (.ok b, erange') := by
  rw [bind_apply] at h
  split at h
  · exact ⟨_, _, ‹_›, h⟩
  · cases h

theorem extractItem_rest_lt {base more : Text} {names : List Text} {erange erange' : Bool}
    (h : extractItem L base erange = (.ok (names, some more), erange')) :
    more.length < base.length := by
  generalize hx : extractItem L base = x at h
  unfold extractItem at hx
  simp only at hx
  split at hx
  · cases hx; cases h
  split at hx
  · cases hx; cases h
  · rename_i hd
    cases hx; cases h
    exact dropWhile_length_lt hd
  · rename_i rest hd
    have h1 := dropWhile_length_lt hd
    split at hx
    · cases hx; cases h
    · rename_i afterColon hd
      have h2 := dropWhile_length_lt hd
      rw [← hx] at h
      obtain ⟨-, e, -, h⟩ := exists_of_bind_apply h
      cases hcl : afterColon.dropWhile (· ≠ ']') with
      | nil => simp only [hcl] at h; cases h
      | cons c afterBracket =>
        have h3 := dropWhile_length_lt hcl
        simp only [hcl] at h
        by_cases hopen : afterBracket.head? = some '['
        · rw [if_pos hopen] at h
          cases h
        · rw [if_neg hopen] at h
          obtain ⟨names', e', -, h⟩ := exists_of_bind_apply h
          obtain ⟨-, hta⟩ := Prod.mk.inj (Except.ok.inj (congrArg Prod.fst h))
          cases hd : afterBracket.dropWhile (· ≠ ',') with
          | nil => rw [hd] at hta; cases hta
          | cons c cs =>
            rw [hd] at hta
            cases hta
            have h4 := dropWhile_length_lt hd
            omega
  · cases hx; cases h

theorem extractLoop_fuel (L : Libc) :
    ∀ (n m : Nat) (base : Text), base.length < n → base.length < m →
    extractLoop L n base = extractLoop L m base
  | n + 1, m + 1, base, hn, hm => by
    unfold extractLoop
    funext erange
    rw [bind_apply, bind_apply]
    rcases hit : extractItem L base erange with ⟨_ | ⟨names, _ | more⟩, e⟩
    · rfl
    · rfl
    · have hlt := extractItem_rest_lt hit
      simp only
      rw [extractLoop_fuel L n m more (by omega) (by omega)]

theorem extractNodeNames_eq (L : Libc) (base : Text) :
    extractNodeNames L base = (do
      let (names, rest) ← extractItem L base
      match rest with
      | none => pure names
      | some more => (names ++ ·) <$> extractNodeNames L more) := by
  unfold extractNodeNames
  rw [extractLoop]
  funext erange
  rw [bind_apply, bind_apply]
  rcases hit : extractItem L base erange with ⟨_ | ⟨names, _ | more⟩, e⟩
  · rfl
  · rfl
  · have hlt := extractItem_rest_lt hit
    simp only
    rw [extractLoop_fuel L base.length (more.length + 1) more hlt (by omega)]

/-- Items that are each read up to their comma are read one by one. -/
theorem extractNodeNames_commas {α : Type} {L : Libc} {xs : List α} {text : α → Text}
    {names : α → Reading (List Text)} (hne : xs ≠ [])
    (h : ∀ x ∈ xs, ∀ rest, extractItem L (text x ++ behind rest) = (·, rest) <$> names x) :
    extractNodeNames L (commas (xs.map text)) = List.flatten <$> xs.mapM names := by
  induction xs with
  | nil => exact absurd rfl hne
  | cons x xs ih =>
    rw [map_cons, commas_cons, extractNodeNames_eq, h x mem_cons_self, mapM_cons]
    by_cases hxs : xs = []
    · simp [hxs]
    · rw [if_neg (by simpa using hxs)]
      simp [ih hxs (forall_mem_cons.1 h).2]

theorem takeWhile_behind (hp : p ',' = false) {w : Text} (hw : ∀ c ∈ w, p c = true)
    (rest : Option Text) : (w ++ behind rest).takeWhile p = w := by
  cases rest with
  | none => simpa [behind] using takeWhile_eq_self_iff.2 hw
  | some more => exact takeWhile_append_cons hw hp

theorem dropWhile_behind (hp : p ',' = false) {w : Text} (hw : ∀ c ∈ w, p c = true)
    (rest : Option Text) : (w ++ behind rest).dropWhile p = behind rest := by
  cases rest with
  | none => simpa [behind] using dropWhile_eq_nil_iff.2 hw
  | some more => exact dropWhile_append_cons hw hp

theorem extractItem_name (L : Libc) {name : Text} (hne : name ≠ [])
    (hname : ∀ c ∈ name, inBase c = true) (rest : Option Text) :
    extractItem L (name ++ behind rest) = pure ([name], rest) := by
  unfold extractItem
  rw [takeWhile_behind (by decide) hname, dropWhile_behind (by decide) hname, if_neg hne]
  cases rest <;> rfl

/-- Names without brackets are read whatever `errno` is. -/
theorem extractNodeNames_plain (L : Libc) {names : List Text} (hne : names ≠ [])
    (h : ∀ n ∈ names, n ≠ [] ∧ ∀ c ∈ n, inBase c = true) :
    extractNodeNames L (commas names) = pure names := by
  have hre := @extractNodeNames_commas Text L names id (fun n => pure [n]) hne fun n hn rest => by
    simpa using extractItem_name L (h n hn).1 (h n hn).2 rest
  rw [map_id] at hre
  rw [hre, mapM_pure, map_pure, ← flatMap_def, ← map_eq_flatMap, map_id']

theorem extractItem_special (L : Libc) (hc : inBase c = false) (rest : Text) :
    extractItem L (c :: rest) = throw .badParam := by
  unfold extractItem
  rw [takeWhile_cons_of_neg (by simp [hc]), if_pos rfl]

/-- An item in brackets: the digits are what stands before the first `:`, the ranges what stands
before the next `]`, and the suffix goes up to the comma. -/
theorem extractItem_bracket (L : Libc) {pre digits ranges suffix : Text} (hne : pre ≠ [])
    (hpre : ∀ c ∈ pre, inBase c = true) (hdi : ':' ∉ digits) (hra : ']' ∉ ranges)
    (hsu : ',' ∉ suffix) (hopen : suffix.head? ≠ some '[') (rest : Option Text) :
    extractItem L (pre ++ '[' :: digits ++ ':' :: ranges ++ ']' :: suffix ++ behind rest) = (do
      checkErrno (strtol 10 digits)
      (·, rest) <$> parseNodeRanges L pre (BitVec.ofInt 32 (strtol 10 digits)).toInt suffix ranges) := by
  have hd := decide_ne_of_notMem hdi
  have hr := decide_ne_of_notMem hra
  have hs := decide_ne_of_notMem hsu
  have hh : (suffix ++ behind rest).head? ≠ some '[' := by
    cases suffix with
    | nil => cases rest <;> simp [behind]
    | cons c cs => simpa using hopen
  have hta : (behind rest).tail? = rest := by cases rest <;> rfl
  unfold extractItem
  simp only [append_assoc, cons_append]
  rw [takeWhile_append_cons hpre (by decide), dropWhile_append_cons hpre (by decide), if_neg hne]
  simp only
  rw [takeWhile_append_cons hd (by decide), dropWhile_append_cons hd (by decide)]
  simp only
  rw [takeWhile_append_cons hr (by decide), dropWhile_append_cons hr (by decide)]
  simp only
  rw [takeWhile_behind (by decide) hs, dropWhile_behind (by decide) hs, if_neg hh, hta]
  simp only [map_eq_pure_bind]

end Sensys.Orte
