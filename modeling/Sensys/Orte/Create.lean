import Sensys.Orte.Extract
/-!
# Writing node lists (`orte/util/regex.c:68-290`)

| here | there |
| --- | --- |
| `scanName` | the loop over the characters of one name (`:107-130`) |
| `RegexNode`, `RegexRange` | `orte_regex_node_t`, `orte_regex_range_t` |
| `addNumber` | the search for the node to join (`:152-224`) |
| `addNode` | one turn of the loop over the names (`:97-233`) |
| `RegexNode.text` | one turn of the loop that prints (`:236-279`) |
| `create` | `orte_regex_create` |

A name of letters and digits is cut at its first digit: the letters before it are the prefix,
`strtol` reads the number, what is behind the number is the suffix. All digits of the name are
counted, not only those of the number, and the count is the width the number is printed with.

Numbers are `int`s. `prefix` has room for 50 characters and is written without a check; with 50 of
them it has no terminator, and the first `strlen` runs past it.
-/
namespace Sensys.Orte
open Text List

/-- `ORTE_MAX_NODE_PREFIX`. -/
def maxNodePrefix : Nat := 50

/-- The locals of the loop over one name. -/
structure Scan where
  pre       : Text := []
  /-- `&node[startnum]`, `none` while `startnum` is negative. -/
  digits    : Option Text := none
  numDigits : Nat := 0
  fullname  : Bool := false
deriving DecidableEq, Repr

def scanName : Text → Scan → Scan
  | [], s => s
  | c :: cs, s =>
    if c.isAlpha then
      if s.digits = none then scanName cs { s with pre := s.pre ++ [c] }
      else scanName cs s
    else if c.isDigit then
      scanName cs { s with numDigits := s.numDigits + 1, digits := s.digits.or (some (c :: cs)) }
    else { s with fullname := true }

structure RegexRange where
  start : BitVec 32
  cnt   : BitVec 32
deriving DecidableEq, Repr

structure RegexNode where
  pre       : Option Text := none
  suffix    : Option Text := none
  numDigits : Nat := 0
  ranges    : List RegexRange := []
deriving DecidableEq, Repr

/-- A number behind the last range, or a new range. -/
def addToRanges (ranges : List RegexRange) (n : BitVec 32) : List RegexRange :=
  match ranges.getLast? with
  | none => [⟨n, 1⟩]
  | some r =>
    if n ≠ r.start + r.cnt then ranges ++ [⟨n, 1⟩]
    else ranges.dropLast ++ [{ r with cnt := r.cnt + 1 }]

/-- The first node of that prefix, suffix and width takes the number; without one, a new node
does. -/
def addNumber (pre suffix : Option Text) (numDigits : Nat) (n : BitVec 32) :
    List RegexNode → List RegexNode
  | [] => [⟨pre, suffix, numDigits, [⟨n, 1⟩]⟩]
  | g :: gs =>
    if g.pre = pre ∧ g.suffix = suffix ∧ g.numDigits = numDigits then
      { g with ranges := addToRanges g.ranges n } :: gs
    else g :: addNumber pre suffix numDigits n gs

structure Creation where
  nodeids : List RegexNode := []
  /-- `errno == ERANGE`. -/
  erange  : Bool
deriving DecidableEq, Repr

def addNode (s : Creation) (node : Text) : Except Failure Creation :=
  let scan := scanName node {}
  if maxNodePrefix < scan.pre.length then .error .overrun
  else
    match scan.fullname, scan.digits with
    | false, some digits =>
      if scan.pre.length = maxNodePrefix then .error .overrun
      else
        let nodenum := strtol 10 digits
        let pre := if scan.pre = [] then none else some scan.pre
        .ok { nodeids := addNumber pre (some (digits.dropWhile Char.isDigit)) scan.numDigits
                (BitVec.ofInt 32 (min nodenum longMax)) s.nodeids
              erange := s.erange || longMax < nodenum }
    | _, _ => .ok { s with nodeids := s.nodeids ++ [{ pre := some node }] }

def RegexRange.text (r : RegexRange) : Text :=
  if r.cnt = 1 then showInt r.start.toInt
  else showInt r.start.toInt ++ '-' :: showInt (r.start + r.cnt - 1).toInt

/-- Nothing is printed for a node that has neither ranges nor a prefix. -/
def RegexNode.text (g : RegexNode) : Option Text :=
  match g.ranges with
  | [] => g.pre
  | ranges =>
    some (g.pre.getD [] ++ '[' :: Nat.toDigits 10 g.numDigits ++ ':' ::
    commas (ranges.map RegexRange.text) ++
      ']' :: g.suffix.getD [])

/-- The text and what `errno` is afterwards. -/
def create (erange : Bool) (nodelist : Text) : Except Failure (Text × Bool) :=
  if ',' ∉ nodelist then .ok (nodelist, erange)
  else
    match (pieces nodelist).foldlM addNode { erange } with
    | .error e => .error e
    | .ok s => .ok (commas (s.nodeids.filterMap RegexNode.text), s.erange)

/-! ## The parts of a name -/

/-- The letters a name starts with. -/
def leading (n : Text) : Text := n.takeWhile Char.isAlpha

/-- The digits behind them. -/
def number (n : Text) : Text := (n.dropWhile Char.isAlpha).takeWhile Char.isDigit

/-- The rest. -/
def trailing (n : Text) : Text := (n.dropWhile Char.isAlpha).dropWhile Char.isDigit

/-- Letters and digits only, with at least one digit: a name that goes into a range. -/
def Compressible (n : Text) : Prop := (∀ c ∈ n, c.isAlphanum = true) ∧ number n ≠ []
deriving Decidable

theorem leading_number_trailing (n : Text) : leading n ++ number n ++ trailing n = n := by
  simp [leading, number, trailing, append_assoc, takeWhile_append_dropWhile]

variable {c : Char} {n : Text}

theorem isAlpha_of_mem_leading (h : c ∈ leading n) : c.isAlpha = true :=
  mem_takeWhile_imp h

theorem isDigit_of_mem_number (h : c ∈ number n) : c.isDigit = true :=
  mem_takeWhile_imp h

/-- A text put together from letters, digits and a rest that starts with no digit has these parts.
-/
theorem parts_append {pre num suffix : Text} (hpre : ∀ c ∈ pre, c.isAlpha = true)
    (hnum : IsNumber num) (hsu : suffix.takeWhile Char.isDigit = []) :
    leading (pre ++ num ++ suffix) = pre ∧ number (pre ++ num ++ suffix) = num ∧
      trailing (pre ++ num ++ suffix) = suffix := by
  have hdr : (pre ++ num ++ suffix).dropWhile Char.isAlpha = num ++ suffix := by
    obtain ⟨c, cs, rfl⟩ := exists_cons_of_ne_nil hnum.1
    rw [append_assoc]
    exact dropWhile_append_cons hpre (isAlpha_eq_false_of_isDigit (hnum.2 c mem_cons_self))
  have hsu' : suffix.dropWhile Char.isDigit = suffix := by
    simpa [hsu] using takeWhile_append_dropWhile (p := Char.isDigit) (l := suffix)
  refine ⟨?_, ?_, ?_⟩
  · obtain ⟨c, cs, rfl⟩ := exists_cons_of_ne_nil hnum.1
    rw [append_assoc]
    exact takeWhile_append_cons hpre (isAlpha_eq_false_of_isDigit (hnum.2 c mem_cons_self))
  · rw [number, hdr, takeWhile_append_of_pos hnum.2, hsu, append_nil]
  · rw [trailing, hdr, dropWhile_append_of_pos hnum.2, hsu']

theorem takeWhile_trailing (n : Text) : (trailing n).takeWhile Char.isDigit = [] := by
  cases h : trailing n with
  | nil => rfl
  | cons c cs => exact takeWhile_cons_of_neg (by simp [(dropWhile_eq_cons h).2])

theorem Compressible.isNumber (h : Compressible n) : IsNumber (number n) :=
  ⟨h.2, fun _ hc => isDigit_of_mem_number hc⟩

theorem countP_digits (n : Text) :
    n.countP Char.isDigit = (number n).length + (trailing n).countP Char.isDigit := by
  conv => lhs; rw [← leading_number_trailing n]
  rw [countP_append, countP_append, countP_eq_zero.2, countP_eq_length.2, Nat.zero_add]
  · exact fun c hc => isDigit_of_mem_number hc
  · exact fun c hc => by simp [isDigit_eq_false_of_isAlpha (isAlpha_of_mem_leading hc)]

/-! ## One name -/

theorem scanName_pre (cs : Text) (s : Scan) :
    (scanName cs s).pre = s.pre ++ if s.digits = none then leading cs else [] := by
  induction cs generalizing s with
  | nil => simp [scanName, leading]
  | cons c cs ih =>
    unfold scanName
    by_cases ha : c.isAlpha
    · by_cases hd : s.digits = none
      · simp [ha, hd, ih, leading]
      · simp [ha, hd, ih]
    · by_cases hc : c.isDigit
      · simp [ha, hc, ih, leading]
      · simp [ha, hc, leading]

/-- Over letters and digits the scan goes to the end; it finds the first digit and counts them
all. -/
theorem scanName_alphanum {cs : Text} (h : ∀ c ∈ cs, c.isAlphanum = true) (s : Scan) :
    (scanName cs s).fullname = s.fullname ∧
      (scanName cs s).digits =
        s.digits.or (if number cs = [] then none else some (cs.dropWhile Char.isAlpha)) ∧
      (scanName cs s).numDigits = s.numDigits + cs.countP Char.isDigit := by
  induction cs generalizing s with
  | nil => simp [scanName, number]
  | cons c cs ih =>
    have ih := ih (forall_mem_cons.1 h).2
    unfold scanName
    by_cases ha : c.isAlpha
    · have hc := isDigit_eq_false_of_isAlpha ha
      by_cases hd : s.digits = none <;> simp [ha, hd, ih, hc, number]
    · have hc : c.isDigit = true := by simpa [Char.isAlphanum, ha] using h c mem_cons_self
      simp [ha, hc, ih, number]
      omega

theorem scanName_other {cs : Text} (h : ¬∀ c ∈ cs, c.isAlphanum = true) (s : Scan) :
    (scanName cs s).fullname = true := by
  induction cs generalizing s with
  | nil => simp at h
  | cons c cs ih =>
    unfold scanName
    by_cases hc : c.isAlphanum = true
    · have ih := ih (by simpa [hc] using h)
      by_cases ha : c.isAlpha
      · by_cases hd : s.digits = none <;> simp [ha, hd, ih]
      · simp [ha, ih, show c.isDigit = true by simpa [Char.isAlphanum, ha] using hc]
    · simp only [Char.isAlphanum, Bool.or_eq_true, not_or] at hc
      simp [hc]

/-- The prefix of a name as it is kept, `NULL` if it is empty. -/
def keptPre (n : Text) : Option Text := if leading n = [] then none else some (leading n)

/-- The number of a name as it is kept. -/
def keptNum (n : Text) : BitVec 32 := BitVec.ofInt 32 (min (digitsValue (number n) : Int) longMax)

theorem addNode_eq (s : Creation) (n : Text) :
    addNode s n =
      if maxNodePrefix < (leading n).length then .error .overrun
      else if Compressible n then
        if (leading n).length = maxNodePrefix then .error .overrun
        else .ok { nodeids := addNumber (keptPre n) (some (trailing n)) (n.countP Char.isDigit) (keptNum n) s.nodeids
                   erange := s.erange || longMax < digitsValue (number n) }
      else .ok { s with nodeids := s.nodeids ++ [{ pre := some n }] } := by
  have hpre : (scanName n {}).pre = leading n := by simp [scanName_pre]
  unfold addNode
  simp only [hpre]
  split
  · rfl
  by_cases hal : ∀ c ∈ n, c.isAlphanum = true
  · obtain ⟨hf, hdi, hnum⟩ := scanName_alphanum hal {}
    by_cases hnon : number n = []
    · simp [hf, hdi, hnon, Compressible]
    · obtain ⟨c, cs, hcs⟩ : ∃ c cs, n.dropWhile Char.isAlpha = c :: cs := by
        refine exists_cons_of_ne_nil fun hnil => hnon (by simp [number, hnil])
      have hc : c.isDigit = true := by
        by_contra hc
        exact hnon (by simp [number, hcs, hc])
      have hstr : strtol 10 (n.dropWhile Char.isAlpha) = digitsValue (number n) := by
        rw [number, hcs]
        exact strtol_of_digit hc
      have hco : Compressible n := ⟨hal, hnon⟩
      simp only [hf, hdi, hnon, hnum, hstr, hco, if_true, if_false, Option.none_or, Nat.zero_add]
      simp [keptPre, keptNum, trailing]
  · have hno : ¬ Compressible n := fun h => hal h.1
    simp [scanName_other hal, hno]

end Sensys.Orte
