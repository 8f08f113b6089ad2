import Sensys.Octl.Interval
/-!
# The arguments of a query (`orcm/tools/octl/query.c`)

| here | there |
| --- | --- |
| `QueryFunc`, `queryCmd` | `query_func_names` (`common.h:59-68`), `query_cmd` (`:28-60`) |
| `Slot` | an element of `args`: its type, and the flags `ORCM_DB_QRY_OPTIONAL` and `ORCM_DB_QRY_NULL` |
| `isDate` .. `isQuantity` | the regular expressions of `query_validate_*` |
| `validateDate` .. `validateBefAft` | `query_validate_date` .. `query_validate_bef_aft` (`:225-425`) |
| `argsPostVal`, `argsList`, `argsAddLimit` | `:81-223` |

A command line is the list of its arguments; each step takes arguments from its front. Where the
program makes a text by means that are not modelled, the text is a parameter (`Env`). A time of
day without a date is written behind a date that `strftime` was to put into a buffer too small for
it: what it leaves there is not determined (`Failure.undefined`). That there is memory is assumed,
also for the last character of an interval that its buffer is too small for
(`doubleToInterval_right_iff`).
-/
namespace Sensys.Octl
open Orte Db Text

structure Slot where
  type     : ArgType
  optional : Bool
  null     : Bool
deriving DecidableEq, Repr

structure QueryCmd where
  sqlFuncName  : Text
  intervalDflt : Char
  args         : List Slot
deriving DecidableEq, Repr

inductive QueryFunc where
  | eventData
  | eventSnsrData
  | idle
  | log
  | nodeStatus
  | history
  | sensor
  | snsrGetInventory
deriving DecidableEq, Repr

def needed (type : ArgType) : Slot := ⟨type, false, false⟩
def optional (type : ArgType) : Slot := ⟨type, true, false⟩
def nulled (type : ArgType) : Slot := ⟨type, false, true⟩

def queryCmd : QueryFunc → QueryCmd
  | .eventData =>
    ⟨"query_event_data".toList, 'M', [optional .date, optional .date, needed .ocommaList]⟩
  | .eventSnsrData =>
    ⟨"query_event_snsr_data".toList, 'M',
      [needed .integer, optional .interval, needed .ocommaList, optional .ocommaList]⟩
  | .idle => ⟨"query_idle".toList, 'S', [optional .interval, needed .ocommaList]⟩
  | .log =>
    ⟨"query_log".toList, 'M',
    [needed .string, optional .date, optional .date, optional .ocommaList]⟩
  | .nodeStatus => ⟨"query_node_status".toList, 'M', [needed .ocommaList]⟩
  | .history =>
    ⟨"query_sensor_history".toList, 'M',
      [nulled .ocommaList, optional .date, optional .date, nulled .string, nulled .string,
      needed .ocommaList]⟩
  | .sensor =>
    ⟨"query_sensor_history".toList, 'M',
      [needed .ocommaList, optional .date, optional .date, needed .string, needed .string,
      optional .ocommaList]⟩
  | .snsrGetInventory => ⟨"query_snsr_get_inventory".toList, 'M', [needed .ocommaList]⟩

/-- One character for each class. -/
def fits : List (Char → Bool) → Text → Bool
  | [], [] => true
  | p :: ps, c :: t => p c && fits ps t
  | _, _ => false

/-- The digits `0` to `d`. -/
def upTo (d : Char) (c : Char) : Bool := '0' ≤ c && c ≤ d

def datePattern : List (Char → Bool) :=
  [Char.isDigit, Char.isDigit, Char.isDigit, Char.isDigit, (· = '-'), upTo '1', Char.isDigit,
    (· = '-'), upTo '3', Char.isDigit]

def timePattern : List (Char → Bool) :=
  [upTo '2', Char.isDigit, (· = ':'), upTo '5', Char.isDigit, (· = ':'), upTo '5', Char.isDigit]

def isDate (t : Text) : Bool := fits datePattern t

def isDateTime (t : Text) : Bool := fits (datePattern ++ isspace :: timePattern) t

def isTimeOfDay (t : Text) : Bool := fits timePattern t

/-- Without a sign in front. -/
def unsigned : Text → Text
  | '+' :: t => t
  | '-' :: t => t
  | t => t

def isDigits (t : Text) : Bool := t ≠ [] && t.all Char.isDigit

def isInteger (t : Text) : Bool := isDigits (unsigned t)

/-- `[[:digit:]]+` or `[[:digit:]]*\.[[:digit:]]+`. -/
def isDecimal (t : Text) : Bool :=
  match t.dropWhile Char.isDigit with
  | [] => t ≠ []
  | '.' :: fraction => isDigits fraction
  | _ => false

def isFloat (t : Text) : Bool := isDecimal (unsigned t)

def isInterval (t : Text) : Bool :=
  2 ≤ ((unsigned t).takeWhile Char.isDigit).length &&
    fits [(· = ':'), upTo '5', Char.isDigit, (· = ':'), upTo '5', Char.isDigit]
    ((unsigned t).dropWhile Char.isDigit)

def isUnit (c : Char) : Bool := c = 'H' || c = 'M' || c = 'S'

/-- The unit of a quantity, if it has one. -/
def unitOf (t : Text) : Option Char := t.getLast?.filter isUnit

/-- The digits of a quantity. -/
def quantityOf (t : Text) : Text := if (unitOf t).isSome then (unsigned t).dropLast else unsigned t

def isQuantity (t : Text) : Bool := isDecimal (quantityOf t)

/-- `^(before)|(after)$`, and whether it is the first one. -/
def befAft (t : Text) : Option Bool :=
  if "before".toList.isPrefixOf t then some true
  else if "after".toList.isSuffixOf t then some false else none

inductive Failure where
  | badParam
  | error
  | undefined
deriving DecidableEq, Repr

/-- What is made of texts by other means. -/
structure Env where
  /-- The double of a text without a sign. -/
  atof       : Text → ℚ
  /-- The hours, minutes and seconds that are printed where an `int` does not hold a quantity. -/
  beyond     : ℚ → Char → Int × Int × Int
  /-- `strcpy` to the second character of its own source. -/
  strcpyNext : Text → Option Text
  /-- `query_comma_list_expand`. -/
  expand     : Text → Except Failure Text

/-- What is asked of the library: an integer that an `int` holds is read as it is, and what
`strcpy` leaves are characters of the text. -/
structure Env.Sound (E : Env) : Prop where
  atof       : ∀ t, isDigits t = true → digitsValue t < 2 ^ 31 → E.atof t = digitsValue t
  strcpyNext : ∀ t u, E.strcpyNext t = some u → ∀ c ∈ u, c ∈ t

/-- The arguments that are left, and the text. -/
abbrev Validation := List Text × Except Failure Text

/-- A date, and the time of day behind it if there is one: both are written over
`0000-00-00 00:00:00`. -/
def withTimeOfDay (date : Text) : List Text → Validation
  | [] => ([], .ok (date ++ " 00:00:00".toList))
  | arg :: argv =>
    if isTimeOfDay arg then (argv, .ok (date ++ ' ' :: arg))
    else (arg :: argv, .ok (date ++ " 00:00:00".toList))

def validateDate : List Text → Validation
  | [] => ([], .error .badParam)
  | arg :: argv =>
    if isDateTime arg then (argv, .ok arg)
    else if isDate arg then withTimeOfDay arg argv
    else if isTimeOfDay arg then (arg :: argv, .error .undefined)
    else (arg :: argv, .error .badParam)

/-- The first argument, if it matches. -/
def validateWith (p : Text → Bool) : List Text → Validation
  | [] => ([], .error .badParam)
  | arg :: argv => if p arg then (argv, .ok arg) else (arg :: argv, .error .badParam)

def validateFloat : List Text → Validation := validateWith isFloat
def validateInteger : List Text → Validation := validateWith isInteger
def validateString : List Text → Validation := validateWith (· ≠ [])

def isNegative (t : Text) : Bool := t.head? = some '-'

section
variable (E : Env)

/-- The text of the quantity `atof(q) * pow(-1, before)`. -/
def quantityInterval (q : Text) (units : Char) (before : Bool) : Option (Bool × Int × Int × Int) :=
  do
  let quantity := if before then -E.atof q else E.atof q
  let (p, _) ← doubleToInterval quantity units
  some (if |quantity| < 2 ^ 31 then p else (p.1, E.beyond quantity units))

def validateBefAftInterval (defaultUnit : Char) (before : Bool) : List Text → Validation
  | [] => ([], .error .badParam)
  | arg :: argv =>
    if isQuantity arg then
      match quantityInterval E (quantityOf arg) ((unitOf arg).getD defaultUnit) (before ^^ isNegative arg) with
      | some p => (argv, .ok (intervalText p))
      | none => (argv, .error .badParam)
    else if isInterval arg then
      if !before then (argv, .ok arg)
      else if isNegative arg then (argv, .ok (unsigned arg))
      else
        match E.strcpyNext (unsigned arg) with
        | some t => (argv, .ok ('-' :: t))
        | none => (argv, .error .undefined)
    else (arg :: argv, .error .badParam)

/-- An interval that is not valid leaves `before` or `after` for the next slot. -/
def validateBefAft (defaultUnit : Char) : List Text → Validation
  | [] => ([], .error .badParam)
  | arg :: argv =>
    match befAft arg with
    | none => validateBefAftInterval E defaultUnit false (arg :: argv)
    | some before =>
      match validateBefAftInterval E defaultUnit before argv with
      | (rest, .error .badParam) =>
        ((arg :: argv).drop (argv.length - rest.length), .error .badParam)
      | v => v

def validateList (argv : List Text) : Validation :=
  match validateString argv with
  | (argv, .ok t) => (argv, E.expand t)
  | v => v

def validate (defaultUnit : Char) : ArgType → List Text → Validation
  | .date => validateDate
  | .float => validateFloat
  | .integer => validateInteger
  | .interval => validateBefAft E defaultUnit
  | .ocommaList => validateList E
  | .string => validateString

def argsPostVal (slot : Slot) : Except Failure Text → Except Failure Arg
  | .ok t => .ok ⟨slot.type, if slot.null then none else some t⟩
  | .error .badParam => if slot.optional then .ok ⟨slot.type, none⟩ else .error .badParam
  | .error e => .error e

def argsSlot (defaultUnit : Char) (argv : List Text) (slot : Slot) :
    Except Failure (List Text × Arg) :=
  if slot.null then (argsPostVal slot (.ok [])).map fun a => (argv, a)
  else
    let v := validate E defaultUnit slot.type argv
    (argsPostVal slot v.2).map fun a => (v.1, a)

/-- Arguments that are left over are reported, and ignored. -/
def argsList (f : QueryFunc) (argv : List Text) : Except Failure (List Arg) :=
  (Lists.mapAccumM (argsSlot E (queryCmd f).intervalDflt) argv (queryCmd f).args).map Prod.snd

end

def dfltLimit : Nat := 50

def argsAddLimit (limit : Nat) (args : List Arg) : List Arg :=
  args ++ [⟨.integer, some (Nat.toDigits 10 limit)⟩]

end Sensys.Octl
