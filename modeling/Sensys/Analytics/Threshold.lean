import Sensys.Analytics.Events
import Sensys.Opal.Argv
/-!
# Policies of thresholds (`orcm/mca/analytics/threshold/analytics_threshold.c`)

| here | there |
| --- | --- |
| `Policy`, `Policy.new` | `orcm_mca_analytics_threshold_policy_t` and its constructor (`:50-58`), the members for `hi` and for `low` side by side |
| `checkThreshold` | `:112-137`, with the severity and the action of the event |
| `getThresholdValue`, `bound`, `parseToken` | `:169-213` |
| `parseTokens`, `getThresholdPolicy` | `get_threshold_policy` (`:215-249`) |
| `analyze` | `:251-291`, with `monitor_threshold` (`:139-167`): the events for the numbers of a sample |

All errors are `ORCM_ERR_BAD_PARAM`. A part of the policy is written as soon as its token is
parsed. An error in the second token leaves the first one in the policy, and with the next sample
the policy is not parsed again. The first of no attributes is the sentinel of the list, whose key
`strcmp` reads through `NULL`; there is no result then. That the message of an event is printed
and the event appended is assumed.
-/
namespace Sensys.Analytics.Threshold
open Orte Opal

inductive Side where
  | hi
  | low
deriving DecidableEq, Repr

structure Bound (R : Type) where
  value    : R
  severity : Int
  action   : Option Text
deriving DecidableEq, Repr

abbrev Policy (R : Type) := Side → Bound R

variable {R : Type}

def Policy.new [Zero R] : Policy R := fun _ => ⟨0, 6, none⟩

section
variable [LE R] [DecidableLE R] [DecidableEq R]

def checkThreshold (p : Policy R) (val : R) : Option (Int × Option Text) :=
  if (p .hi).value ≤ val ∧ (p .hi).action ≠ none then some ((p .hi).severity, (p .hi).action)
  else if val ≤ (p .low).value ∧ (p .low).action ≠ none ∧ (p .low).value ≠ (p .hi).value then
    some ((p .low).severity, (p .low).action)
  else none

end

-- `strtod`, with `none` for 0 and an error
variable (strtod : Text → Option R)

def getThresholdValue (tval : Text) : Option R :=
  if tval.all fun c => c.isDigit || c = '-' || c = '+' || c = '.' then strtod tval else none

/-- What a token says. -/
def bound : List Text → Option (Side × Bound R)
  | [side, tval, severity, action] => do
    let val ← getThresholdValue strtod tval
    let b := ⟨val, Events.getSeverity severity, some action⟩
    if side = ['h', 'i'] then some (.hi, b)
    else if side = ['l', 'o', 'w'] then some (.low, b) else none
  | _ => none

def parseToken (token : List Text) (p : Policy R) : Bool × Policy R :=
  match bound strtod token with
  | some (side, b) => (true, Function.update p side b)
  | none => (false, p)

def parseTokens : List Text → Policy R → Bool × Policy R
  | [], p => (true, p)
  | t :: ts, p =>
    match parseToken strtod (argvSplit '|' t) p with
    | (true, p) => parseTokens ts p
    | (false, p) => (false, p)

def getThresholdPolicy (attributes : List (Text × Text)) (p : Policy R) :
    Option (Bool × Policy R) :=
  match attributes.head? with
  | none => none
  | some (key, value) =>
    let policy := argvSplit ',' value
    if key ≠ ['p', 'o', 'l', 'i', 'c', 'y'] ∨ policy.length = 0 ∨ 2 < policy.length then
      some (false, p)
    else some (parseTokens strtod policy p)

/-- The policy by which the sample is judged, if it is, and the one that is kept. -/
def readyPolicy (attributes : List (Text × Text)) (p : Policy R) : Option (Bool × Policy R) :=
  if (p .hi).action = none ∧ (p .low).action = none then getThresholdPolicy strtod attributes p
  else some (true, p)

section
variable [LE R] [DecidableLE R] [DecidableEq R]

/-- The events, or an error, and the policy afterwards. -/
def analyze (attributes : List (Text × Text)) (p : Policy R) (data : List R) :
    Option (Option (List (Int × Option Text)) × Policy R) :=
  (readyPolicy strtod attributes p).map fun (ok, p) =>
    (if ok then some (data.filterMap (checkThreshold p)) else none, p)

/-- The policy after some samples. -/
def policyAfter [Zero R] (attributes : List (Text × Text)) (samples : List (List R)) :
    Option (Policy R) :=
  samples.foldlM (fun p data => (analyze strtod attributes p data).map Prod.snd) .new

end

/-- The tokens of the policy string, each for a side of its own; a side without a token is as it
was. -/
def Describes (attributes : List (Text × Text)) (old p : Policy R) : Prop :=
  ∃ value bounds, attributes.head? = some (['p', 'o', 'l', 'i', 'c', 'y'], value) ∧
    (argvSplit ',' value).map (fun t => bound strtod (argvSplit '|' t)) = bounds.map some ∧
    bounds ≠ [] ∧ (bounds.map Prod.fst).Nodup ∧
    (∀ side b, (side, b) ∈ bounds → p side = b) ∧ ∀ side, side ∉ bounds.map Prod.fst →
    p side = old side

/-- A policy is parsed as a whole, or not at all. -/
def Atomic (attributes : List (Text × Text)) (old : Policy R) : Prop :=
  match getThresholdPolicy strtod attributes old with
  | some (true, p) => Describes strtod attributes old p
  | some (false, p) => p = old
  | none => False

/-- Behind a good first token there is none, or a good one for the other side. -/
def BothGood (attributes : List (Text × Text)) : Prop :=
  ∀ value t t' side b, attributes.head? = some (['p', 'o', 'l', 'i', 'c', 'y'], value) →
    argvSplit ',' value = [t, t'] →
    bound strtod (argvSplit '|' t) = some (side, b) →
      ∃ side' b', bound strtod (argvSplit '|' t') = some (side', b') ∧ side' ≠ side

/-! ## Parsing -/

section
variable {strtod} {attributes : List (Text × Text)} {p : Policy R}

theorem action_of_bound {token : List Text} {side : Side} {b : Bound R}
    (h : bound strtod token = some (side, b)) : b.action ≠ none := by
  unfold bound at h
  split at h
  · obtain ⟨val, -, h⟩ := Option.bind_eq_some_iff.1 h
    grind
  · cases h

theorem atomic_of_bothGood (hne : attributes ≠ []) (h : BothGood strtod attributes)
    (old : Policy R) :
    Atomic strtod attributes old := by
  rw [Atomic, getThresholdPolicy]
  cases hh : attributes.head? with
  | none => exact absurd (List.head?_eq_none_iff.1 hh) hne
  | some kv =>
    obtain ⟨key, value⟩ := kv
    by_cases hbad : key ≠ ['p', 'o', 'l', 'i', 'c', 'y'] ∨ (argvSplit ',' value).length = 0 ∨
      2 < (argvSplit ',' value).length
    · simp only [if_pos hbad]
    · simp only [if_neg hbad]
      push Not at hbad
      obtain ⟨rfl, hne, hle⟩ := hbad
      match hts : argvSplit ',' value with
      | [] => simp [hts] at hne
      | [t] =>
        cases hb : bound strtod (argvSplit '|' t) with
        | none => simp [parseTokens, parseToken, hb]
        | some sb =>
          obtain ⟨side, b⟩ := sb
          simp only [parseTokens, parseToken, hb]
          refine ⟨value, [(side, b)], hh, by simp [hts, hb], by simp, by simp, by grind, by grind⟩
      | [t, t'] =>
        cases hb : bound strtod (argvSplit '|' t) with
        | none => simp [parseTokens, parseToken, hb]
        | some sb =>
          obtain ⟨side, b⟩ := sb
          obtain ⟨side', b', hb', hsi⟩ := h value t t' side b hh hts hb
          simp only [parseTokens, parseToken, hb, hb']
          refine ⟨value, [(side, b), (side', b')], hh,
            by simp [hts, hb, hb'], by simp, by simp [Ne.symm hsi], by grind, by grind⟩
      | _ :: _ :: _ :: _ => simp [hts] at hle

theorem bothGood_of_atomic (h : ∀ old : Policy R, Atomic strtod attributes old) :
    BothGood strtod attributes := by
  intro value t t' side b hh hts hb
  have h := h fun _ => ⟨b.value, b.severity, none⟩
  have hnew := action_of_bound hb
  simp only [Atomic, getThresholdPolicy, hh, hts, List.length_cons, List.length_nil] at h
  cases hb' : bound strtod (argvSplit '|' t') with
  | none =>
    simp only [parseTokens, parseToken, hb, hb'] at h
    have hsi := congrFun h side
    rw [Function.update_self] at hsi
    exact absurd (congrArg Bound.action hsi) hnew
  | some sb =>
    obtain ⟨side', b'⟩ := sb
    simp only [parseTokens, parseToken, hb, hb'] at h
    obtain ⟨value', bounds, hh', hbo, -, hno, -⟩ := h
    refine ⟨side', b', rfl, ?_⟩
    rintro rfl
    obtain rfl : value = value' := by simpa [hh] using hh'
    rw [hts] at hbo
    obtain rfl : bounds = [(side', b), (side', b')] := by
      apply List.map_injective_iff.2 (Option.some_injective _)
      simpa [hb, hb'] using hbo.symm
    simp at hno

theorem Describes.acts {old : Policy R} (h : Describes strtod attributes old p) :
    ¬ ((p .hi).action = none ∧ (p .low).action = none) := by
  obtain ⟨value, bounds, -, hbo, hne, -, hp, -⟩ := h
  obtain ⟨⟨side, b⟩, rest, rfl⟩ := List.exists_cons_of_ne_nil hne
  obtain ⟨t, -, ht⟩ :=
    List.mem_map.1 (hbo ▸ List.mem_map_of_mem List.mem_cons_self : some (side, b) ∈ _)
  have hac := action_of_bound ht
  rw [← hp side b List.mem_cons_self] at hac
  cases side <;> tauto

/-- The policy of a step: nothing was parsed yet, or all of the string. -/
def Whole [Zero R] (strtod : Text → Option R) (attributes : List (Text × Text)) (p : Policy R) :
    Prop :=
  p = .new ∨ Describes strtod attributes .new p

/-- Where there is a policy to judge by, it is what the string describes. -/
theorem Whole.readyPolicy [Zero R] (h : Atomic strtod attributes (.new : Policy R))
    (hp : Whole strtod attributes p) :
    ∃ ok q, readyPolicy strtod attributes p = some (ok, q) ∧ Whole strtod attributes q ∧
      (ok = true → Describes strtod attributes .new q) := by
  rcases hp with rfl | hp
  · rw [Threshold.readyPolicy, if_pos ⟨rfl, rfl⟩]
    rw [Atomic] at h
    split at h
    · rename_i q hq
      exact ⟨true, q, hq, Or.inr h, fun _ => h⟩
    · rename_i q hq
      exact ⟨false, q, hq, Or.inl h, fun hok => by cases hok⟩
    · exact h.elim
  · rw [Threshold.readyPolicy, if_neg hp.acts]
    exact ⟨true, p, rfl, Or.inr hp, fun _ => hp⟩

variable [LE R] [DecidableLE R] [DecidableEq R]

theorem Whole.analyze [Zero R] (h : Atomic strtod attributes (.new : Policy R))
    (hp : Whole strtod attributes p) (data : List R) :
    ∃ events q, analyze strtod attributes p data = some (events, q) ∧ Whole strtod attributes q ∧
      (events = none ∨ Describes strtod attributes .new q ∧
      events = some (data.filterMap (checkThreshold q))) := by
  obtain ⟨ok, q, hq, hwhole, hok⟩ := hp.readyPolicy h
  refine ⟨_, q, by rw [Threshold.analyze, hq]; rfl, hwhole, ?_⟩
  cases ok with
  | true => exact Or.inr ⟨hok rfl, rfl⟩
  | false => exact Or.inl rfl

theorem exists_policyAfter [Zero R] (h : Atomic strtod attributes (.new : Policy R))
    (samples : List (List R)) :
    ∃ p, policyAfter strtod attributes samples = some p ∧ Whole strtod attributes p := by
  induction samples using List.reverseRecOn with
  | nil => exact ⟨.new, rfl, Or.inl rfl⟩
  | append_singleton samples data ih =>
    obtain ⟨p, hp, hwhole⟩ := ih
    obtain ⟨events, q, hq, hwhole', -⟩ := hwhole.analyze h data
    refine ⟨q, ?_, hwhole'⟩
    rw [policyAfter] at hp
    rw [policyAfter, List.foldlM_append, hp]
    simp [hq]

end

/-- **Policies are parsed as a whole**, and samples are judged only by what the string describes,
if there are attributes and a good first token comes without another one or with a good one for
the other side; and only then. -/
theorem policy_atomic_iff [LE R] [DecidableLE R] [DecidableEq R] [Zero R]
    (attributes : List (Text × Text)) :
    ((∀ old : Policy R, Atomic strtod attributes old) ∧
      ∀ samples : List (List R), ∃ p, policyAfter strtod attributes samples = some p ∧
        ∀ data, ∃ events q, analyze strtod attributes p data = some (events, q) ∧
          (events = none ∨
            Describes strtod attributes .new q ∧
            events = some (data.filterMap (checkThreshold q)))) ↔
      attributes ≠ [] ∧ BothGood strtod attributes := by
  constructor
  · rintro ⟨h, -⟩
    refine ⟨?_, bothGood_of_atomic h⟩
    rintro rfl
    exact h .new
  · rintro ⟨hne, h⟩
    have hall := atomic_of_bothGood hne h
    refine ⟨hall, fun samples => ?_⟩
    obtain ⟨p, hp, hwhole⟩ := exists_policyAfter (hall .new) samples
    refine ⟨p, hp, fun data => ?_⟩
    obtain ⟨events, q, hq, -, hev⟩ := hwhole.analyze (hall .new) data
    exact ⟨events, q, hq, hev⟩

/-- The second token is not one; the first one stays, and the next sample is judged by it. -/
theorem partly_parsed : ∃ p : Policy Int,
    getThresholdPolicy (fun _ => some 90) [("policy".toList, "hi|90|crit|syslog,low".toList)] .new =
    some (false, p) ∧
      analyze (fun _ => some 90) [("policy".toList, "hi|90|crit|syslog,low".toList)] p [95, 80] =
        some (some [(2, some "syslog".toList)], p) ∧ p ≠ .new := by
  refine ⟨Function.update Policy.new .hi ⟨90, 2, some "syslog".toList⟩, ?_, ?_, ?_⟩
  · rfl
  · rfl
  · intro h
    exact absurd (congrArg Bound.action (congrFun h .hi)) (by decide)

end Sensys.Analytics.Threshold
