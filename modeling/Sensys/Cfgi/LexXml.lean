import Mathlib.Logic.Relation
import Sensys.Lib.Buffer
/-!
# The lexer of the configuration file (`orcm/mca/cfgi/file30/cfgi_file30.c:1988-2281`)

| here | there |
| --- | --- |
| `isWhitespace`, `isForbidden` | `:1988-2005` |
| `strchr`, `directiveEnd` | the searches for the end of a tag, a string and a directive |
| `endData`, `lexTag` | the turn at a `<` (`:2112-2172`) |
| `lexString`, `lexDatum` | the turn at a quote (`:2173-2203`), and at other characters (`:2204-2213`) |
| `step` | one turn of the loop over the text (`:2104-2215`) |
| `lexItems` | the tokens as strings (`:2225-2262`) |
| `lexXml` | `:2018-2281` |

The tokens are written into the buffer that is being read: `i` is the index of the character that
is looked at and `w` the number of characters written, `k + 1` in the source. A byte is a
character here; those from 128 on are negative as `char`, so `isForbidden` counts them among the
control characters. That the file can be read and that there is memory is assumed; `line_count` is
not used by anything.
-/
namespace Sensys.Cfgi
open Buffer

inductive Rc where
  /-- `ORCM_ERROR`. -/
  | error
  | badParam
deriving DecidableEq, Repr

def isWhitespace (c : Char) : Bool := c = ' ' ∨ c = '\t' ∨ c = '\n' ∨ c = '\r'

def isForbidden (c : Char) : Bool := (c.toNat ≤ 31 ∨ 127 ≤ c.toNat) ∧ c ≠ '\t'

/-- `strchr(tx + p, c)`, with at most `n` characters up to the terminator. -/
def strchr (tx : Nat → Char) (c : Char) : Nat → Nat → Option Nat
  | 0, _ => none
  | n + 1, p => if tx p = c then some p else if tx p = '\x00' then none else strchr tx c n (p + 1)

/-- The `>` at `p` ends a directive. -/
def endsDirective (tx : Nat → Char) (p : Nat) : Bool :=
  tx (p - 1) = '?' ∨ tx (p - 1) = '-' ∧ tx (p - 2) = '-'

/-- The first `>` from the one at `p` on that ends a directive. -/
def directiveEnd (tx : Nat → Char) (fsize : Nat) : Nat → Nat → Option Nat
  | 0, _ => none
  | n + 1, p =>
    if endsDirective tx p then some p
    else (strchr tx '>' (fsize - p) (p + 1)).bind (directiveEnd tx fsize n)

def anyForbidden (tx : Nat → Char) (i p : Nat) : Bool :=
  (List.range' i (p - i)).any fun q => isForbidden (tx q)

structure LexState where
  tx : Nat → Char
  i  : Nat
  w  : Nat
  /-- `came_from_data` is 1; undecided and false are never told apart. -/
  cameFromData : Bool

/-- A tab would be read as the start of a data field. -/
def untab (c : Char) : Char := if c = '\t' then ' ' else c

/-- A run of data ends. -/
def endData (s : LexState) : LexState :=
  if s.cameFromData then { s with tx := put s.tx s.w '\n', w := s.w + 1, cameFromData := false }
  else s

/-- At a `<`: a directive is passed over, a marker is copied. -/
def lexTag (fsize : Nat) (s : LexState) : Option LexState :=
  (strchr s.tx '>' (fsize + 1 - s.i) s.i).bind fun p =>
    if s.tx (s.i + 1) = '!' ∨ s.tx (s.i + 1) = '?' then
      (directiveEnd s.tx fsize (fsize + 1 - p) p).map fun p => { s with i := p + 1 }
    else if anyForbidden s.tx s.i p then none
    else
      let len := p - (s.i + 1)
      some { s with
        tx := put (copy id len s.w (s.i + 1) s.tx) (s.w + len) '\n'
        w := s.w + len + 1
        i := p + 1 }

/-- At a quote. -/
def lexString (fsize : Nat) (s : LexState) : Option LexState :=
  (strchr s.tx '"' (fsize - s.i) (s.i + 1)).bind fun p =>
    if anyForbidden s.tx s.i p then none
    else
      let len := p - (s.i + 1)
      some { s with
        tx := put (copy untab len (s.w + 1) (s.i + 1) (put s.tx s.w '\t')) (s.w + 1 + len) '\n'
        w := s.w + 1 + len + 1
        i := p + 1 }

/-- At any other character; a run of data starts with a tab. -/
def lexDatum (s : LexState) : LexState :=
  if s.cameFromData then { s with tx := put s.tx s.w (s.tx s.i), w := s.w + 1, i := s.i + 1 }
  else { s with
    tx := put (put s.tx s.w '\t') (s.w + 1) (s.tx s.i)
    w := s.w + 2
    i := s.i + 1
    cameFromData := true }

/-- One turn of the loop; `none` is `ORCM_ERR_BAD_PARAM`. -/
def step (fsize : Nat) (s : LexState) : Option LexState :=
  if isWhitespace (s.tx s.i) then some { s with i := s.i + 1 }
  else if s.tx s.i = '<' then lexTag fsize (endData s)
  else if s.tx s.i = '"' then lexString fsize s
  else some (lexDatum s)

/-- The loop; `n` is at least the number of characters left. -/
def lexLoop (fsize : Nat) : Nat → LexState → Option LexState
  | 0, s => some s
  | n + 1, s => if s.i < fsize then (step fsize s).bind (lexLoop fsize n) else some s

/-- The states the loop comes through. -/
def Reach (fsize : Nat) : LexState → LexState → Prop :=
  Relation.ReflTransGen fun s s' => s.i < fsize ∧ step fsize s = some s'

/-- The write position never overtakes the read position. -/
def NeverAhead (fsize : Nat) (s : LexState) : Prop := ∀ s', Reach fsize s s' → s'.w ≤ s'.i

/-- Each token ends with `\n`, and is a string up to a terminator inside it. -/
def lexItems (out : List Char) : List (List Char) :=
  (out.splitOn '\n').dropLast.map (List.takeWhile (· ≠ '\x00'))

def lexStart (text : List Char) : LexState := ⟨fun i => text.getD i '\x00', 0, 0, false⟩

def minFileSize : Nat := 32

def lexXml (text : List Char) : Except Rc (List (List Char)) :=
  if text.length < minFileSize then .error .error
  else
    match lexLoop text.length text.length (lexStart text) with
    | none => .error .badParam
    | some s =>
      match lexItems ((List.range s.w).map s.tx) with
      | [] => .error .badParam
      | items => .ok items

end Sensys.Cfgi
