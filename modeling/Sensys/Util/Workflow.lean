import Sensys.Opal.Dss
import Sensys.Parser.Pugi
/-!
# Workflows on their way to an aggregator

| here | there |
| --- | --- |
| `Item` | an item of the list that the parser returns, by the type of its value |
| `checkNameKey`, `checkFilterStep`, `extractStringType` | `orcm_util_workflow_add_check_name_key`, `.._check_filter_step`, `.._extract_string_type` (`orcm/util/workflow_util.c:44-113`) |
| `extractWorkflowInfo` | `:115-175`: what it packs, and `is_filter_first_step` afterwards |
| `parseAttributes`, `workflowStepAdd`, `workflowAdd` | `orcm_analytics_base_parse_attributes`, `.._workflow_step_add`, `.._workflow_add` (`orcm/mca/analytics/base/analytics_base_stubs.c:192-361`) |

Lengths of lists are numbers, which an `int` is taken to hold.
-/
namespace Sensys.Workflows
open Orte Pugi Results List

inductive Rc where
  | badParam
  | error
  | outOfResource
  /-- From `opal_dss.unpack`. -/
  | unpackFailure
deriving DecidableEq, Repr

abbrev Dss (β : Type) := Opal.Dss β Rc

def stepKey : Text := ['s', 't', 'e', 'p']

def workflowKey : Text := ['w', 'o', 'r', 'k', 'f', 'l', 'o', 'w']

def filterName : Text := ['f', 'i', 'l', 't', 'e', 'r']

section
variable {β : Type} (d : Dss β)

/-- What is packed of the key, after `is_name_first_key` has become true. -/
def checkNameKey (listHeadKey key : Text) (isNameFirstKey : Bool) : Except Rc (List β) :=
  if !isNameFirstKey && key ≠ nameKey then .error .badParam
  else if key ≠ nameKey then
    if listHeadKey = workflowKey then .error .badParam else .ok (d.text.write key)
  else .ok []

def checkFilterStep (key value : Text) (isFilterFirstStep : Bool) : Except Rc Bool :=
  if !isFilterFirstStep && key = stepKey then
    if value = filterName then .ok true else .error .badParam
  else .ok isFilterFirstStep

def extractStringType (key value listHeadKey : Text) (isNameFirstKey isFilterFirstStep : Bool) :
    Except Rc (List β × Bool) := do
  let packed ← checkNameKey d listHeadKey key isNameFirstKey
  let isFilterFirstStep ← checkFilterStep listHeadKey value isFilterFirstStep
  pure (packed ++ d.text.write value, isFilterFirstStep)

/-- The length of a list that is not empty in front of what its items give. -/
def withLength (items : List Pugi.Item) (extracted : Except Rc (List β × Bool)) :
    Except Rc (List β × Bool) := do
  let (packed, isFilterFirstStep) ← extracted
  if items.isEmpty then throw .badParam
  pure (d.count.write (items.length - 1) ++ packed, isFilterFirstStep)

mutual

def extractItem (listHeadKey : Text) (isNameFirstKey isFilterFirstStep : Bool) :
    Pugi.Item → Except Rc (List β × Bool)
  | .string key value => extractStringType d key value listHeadKey isNameFirstKey isFilterFirstStep
  | .list key items =>
    if !isNameFirstKey then .error .badParam
    else if key = stepKey then withLength d items (extractItems key false isFilterFirstStep items)
    else .error .badParam
  | .int _ _ => .error .badParam
  | .other _ => .error .badParam

/-- The loop over a list: after the first item `is_name_first_key` is true. -/
def extractItems (listHeadKey : Text) (isNameFirstKey isFilterFirstStep : Bool) :
    List Pugi.Item → Except Rc (List β × Bool)
  | [] => .ok ([], isFilterFirstStep)
  | item :: rest => do
    let (packed, isFilterFirstStep) ← extractItem listHeadKey isNameFirstKey isFilterFirstStep item
    let (packed', isFilterFirstStep) ← extractItems listHeadKey true isFilterFirstStep rest
    pure (packed ++ packed', isFilterFirstStep)

end

def extractWorkflowInfo (resultList : List Pugi.Item) (listHeadKey : Text)
    (isFilterFirstStep : Bool) : Except Rc (List β × Bool) :=
  withLength d resultList (extractItems d listHeadKey false isFilterFirstStep resultList)

end

structure WorkflowStep where
  analytic   : Text
  attributes : List (Text × Text)
deriving DecidableEq, Repr

structure Workflow where
  name  : Text
  steps : List WorkflowStep
deriving DecidableEq, Repr

structure Env where
  /-- `orcm_analytics_base_select_workflow_step` finds a module for the step. -/
  select    : WorkflowStep → Bool
  /-- `opal_progress_thread_init` gives an event base. -/
  eventBase : Bool

section
variable {β : Type} (d : Dss β) (env : Env)

def parseAttribute : Reader β Rc (Text × Text) :=
  failsWith .error do
    let key ← d.text.read
    let value ← d.text.read
    pure (key, value)

def parseAttributes (numAttributes : Int) : Reader β Rc (List (Text × Text)) :=
  readN (parseAttribute d) numAttributes.toNat

def workflowStepAdd : Reader β Rc WorkflowStep := do
  let numAttributes ← d.count.read
  let stepName ← d.text.read
  let attributes ← parseAttributes d numAttributes
  if env.select ⟨stepName, attributes⟩ then pure ⟨stepName, attributes⟩ else throw .error

def workflowAdd : Reader β Rc Workflow := do
  let numSteps ← d.count.read
  let wfName ← d.text.read
  if env.eventBase then do
    let steps ← readN (workflowStepAdd d env) numSteps.toNat
    pure ⟨wfName, steps⟩
  else throw .outOfResource

end

def WorkflowStep.item (s : WorkflowStep) : Pugi.Item :=
  .list stepKey (.string nameKey s.analytic :: s.attributes.map fun a => .string a.1 a.2)

def Workflow.items (w : Workflow) : List Pugi.Item :=
  .string nameKey w.name :: w.steps.map WorkflowStep.item

/-- An item of a step after the first one. -/
def plainAttribute : Pugi.Item → Bool
  | .string key _ => key ≠ nameKey
  | _ => false

def plainStep : Pugi.Item → Bool
  | .list _ items => items.tail.all plainAttribute
  | _ => false

/-- There is one name, in front, and steps are not inside steps. -/
def plainWorkflow (resultList : List Pugi.Item) : Bool := resultList.tail.all plainStep

/-! ## What is packed -/

section
variable {β : Type} (d : Dss β)

def packAttribute (a : Text × Text) : List β :=
  (if a.1 = nameKey then [] else d.text.write a.1) ++ d.text.write a.2

def packStep (s : WorkflowStep) : List β :=
  d.count.write s.attributes.length ++
    (d.text.write s.analytic ++ s.attributes.flatMap (packAttribute d))

def packWorkflow (w : Workflow) : List β :=
  d.count.write w.steps.length ++ (d.text.write w.name ++ w.steps.flatMap (packStep d))

variable {d} {head : Text} {named f f' : Bool} {packed : List β} {l : List Pugi.Item}
  {items : List Pugi.Item} {i : Pugi.Item}

theorem extractStringType_ok {key value : Text}
    (h : extractStringType d key value head named f = .ok (packed, f')) :
    packed = packAttribute d (key, value) ∧
      (key = nameKey ∨ named = true ∧ head ≠ workflowKey) := by
  obtain ⟨p, hp, h⟩ := exists_of_bind_ok h
  obtain ⟨g, -, h⟩ := exists_of_bind_ok h
  cases h
  unfold checkNameKey at hp
  by_cases hkey : key = nameKey
  · simp_all [packAttribute]
  · cases named <;> by_cases hh : head = workflowKey <;> simp_all [packAttribute]

theorem withLength_ok {r : Except Rc (List β × Bool)}
    (h : withLength d items r = .ok (packed, f')) :
    items ≠ [] ∧ ∃ inside, r = .ok (inside, f') ∧
      packed = d.count.write (items.length - 1) ++ inside := by
  obtain ⟨⟨inside, g⟩, hr, h⟩ := exists_of_bind_ok h
  cases items with
  | nil => cases h
  | cons i items =>
    cases h
    exact ⟨by simp, inside, hr, rfl⟩

theorem extractItems_cons_ok (h : extractItems d head named f (i :: l) = .ok (packed, f')) :
    ∃ first g rest, extractItem d head named f i = .ok (first, g) ∧
      extractItems d head true g l = .ok (rest, f') ∧ packed = first ++ rest := by
  obtain ⟨⟨first, g⟩, hi, h⟩ := exists_of_bind_ok h
  obtain ⟨⟨rest, g'⟩, hl, h⟩ := exists_of_bind_ok h
  cases h
  exact ⟨first, g, rest, hi, hl, rfl⟩

theorem extractItems_map {γ : Type} {l : List γ} {item : γ → Pugi.Item} {pack : γ → List β}
    (h : extractItems d head true f (l.map item) = .ok (packed, f'))
    (hit : ∀ {x f packed f'}, extractItem d head true f (item x) = .ok (packed, f') →
      packed = pack x) : packed = l.flatMap pack := by
  induction l generalizing f packed with
  | nil =>
    cases h
    rfl
  | cons x l ih =>
    obtain ⟨first, g, rest, hi, hl, rfl⟩ := extractItems_cons_ok h
    rw [flatMap_cons, hit hi, ih hl]

theorem extractItem_step {s : WorkflowStep}
    (h : extractItem d head true f s.item = .ok (packed, f')) : packed = packStep d s := by
  obtain ⟨-, inside, hin, rfl⟩ := withLength_ok h
  obtain ⟨first, g, rest, hname, hl, rfl⟩ := extractItems_cons_ok hin
  have hat : rest = s.attributes.flatMap (packAttribute d) :=
    extractItems_map hl fun h => (extractStringType_ok h).1
  rw [(extractStringType_ok hname).1, hat]
  simp [packAttribute, packStep]

theorem extractWorkflowInfo_items {w : Workflow}
    (h : extractWorkflowInfo d w.items head f = .ok (packed, f')) :
    packed = packWorkflow d w := by
  obtain ⟨-, inside, hin, rfl⟩ := withLength_ok h
  obtain ⟨first, g, rest, hname, hl, rfl⟩ := extractItems_cons_ok hin
  rw [(extractStringType_ok hname).1, extractItems_map hl extractItem_step]
  simp [packAttribute, packWorkflow, Workflow.items]

/-! ## Lists that are workflows -/

theorem exists_attributes (hpl : l.all plainAttribute = true) :
    ∃ as : List (Text × Text), l = as.map fun a => .string a.1 a.2 := by
  induction l with
  | nil => exact ⟨[], rfl⟩
  | cons i l ih =>
    rw [all_cons, Bool.and_eq_true] at hpl
    obtain ⟨as, rfl⟩ := ih hpl.2
    cases i with
    | string key value => exact ⟨(key, value) :: as, rfl⟩
    | list key items | int key n | other key => cases hpl.1

theorem exists_name (hne : items ≠ []) (h : extractItems d head false f items = .ok (packed, f')) :
    ∃ value, items = .string nameKey value :: items.tail := by
  obtain ⟨i, l, rfl⟩ := exists_cons_of_ne_nil hne
  obtain ⟨first, g, rest, hi, -, -⟩ := extractItems_cons_ok h
  cases i with
  | string key value =>
    obtain ⟨-, rfl | ⟨hf, -⟩⟩ := extractStringType_ok hi
    · exact ⟨value, rfl⟩
    · cases hf
  | list key items | int key n | other key => cases hi

theorem exists_step (hpl : plainStep i = true)
    (h : extractItem d head true f i = .ok (packed, f')) :
    ∃ s : WorkflowStep, i = s.item := by
  cases i with
  | list key items =>
    rw [extractItem, if_neg (by decide)] at h
    split at h
    · rename_i hkey
      obtain ⟨hne, inside, h, -⟩ := withLength_ok h
      obtain ⟨value, hit⟩ := exists_name hne h
      obtain ⟨as, hta⟩ := exists_attributes hpl
      exact ⟨⟨value, as⟩, by rw [hit, hta, hkey]; rfl⟩
    · cases h
  | string key value | int key n | other key => cases hpl

theorem exists_steps (hpl : l.all plainStep = true)
    (h : extractItems d head true f l = .ok (packed, f')) :
    ∃ ss : List WorkflowStep, l = ss.map WorkflowStep.item := by
  induction l generalizing f packed with
  | nil => exact ⟨[], rfl⟩
  | cons i l ih =>
    rw [all_cons, Bool.and_eq_true] at hpl
    obtain ⟨first, g, rest, hi, hl, -⟩ := extractItems_cons_ok h
    obtain ⟨s, rfl⟩ := exists_step hpl.1 hi
    obtain ⟨ss, rfl⟩ := ih hpl.2 hl
    exact ⟨s :: ss, rfl⟩

theorem exists_workflow {resultList : List Pugi.Item} (hpl : plainWorkflow resultList = true)
    (h : extractWorkflowInfo d resultList head f = .ok (packed, f')) :
    ∃ w : Workflow, resultList = w.items := by
  obtain ⟨hne, inside, h, -⟩ := withLength_ok h
  obtain ⟨value, hit⟩ := exists_name hne h
  rw [hit] at h
  obtain ⟨first, g, rest, -, hl, -⟩ := extractItems_cons_ok h
  obtain ⟨ss, hss⟩ := exists_steps hpl hl
  exact ⟨⟨value, ss⟩, by rw [hit, hss]; rfl⟩

/-- The attributes of a workflow that can be sent have other keys than the name. -/
def WorkflowStep.Plain (s : WorkflowStep) : Prop := ∀ a ∈ s.attributes, a.1 ≠ nameKey

theorem plainWorkflow_items (w : Workflow) :
    plainWorkflow w.items = true ↔ ∀ s ∈ w.steps, s.Plain := by
  simp [plainWorkflow, Workflow.items, plainStep, WorkflowStep.item, plainAttribute,
    WorkflowStep.Plain]

theorem item_injective : Function.Injective WorkflowStep.item := by
  rintro ⟨n, as⟩ ⟨m, bs⟩ h
  have hinj : Function.Injective fun a : Text × Text => Pugi.Item.string a.1 a.2 := by
    rintro ⟨k, v⟩ ⟨k', v'⟩ h
    cases h
    rfl
  injection h with _ hit
  injection hit with hname has
  injection hname with _ hname
  exact congrArg₂ WorkflowStep.mk hname (map_inj_right (fun _ _ h => hinj h) |>.1 has)

end

/-- No string is unpacked where an integer was packed or the buffer ends. -/
def Typed {β : Type} (d : Dss β) : Prop :=
  (∀ n rest q, d.text.read.run (d.count.write n ++ rest) ≠ .ok q) ∧ ∀ q, d.text.read.run [] ≠ .ok q

section
variable {β : Type} {d : Dss β} {env : Env} {a : Text × Text} {l : List (Text × Text)}

theorem reads_attribute (ha : a.1 ≠ nameKey) : Reads (parseAttribute d) (packAttribute d a) a := by
  rw [packAttribute, if_neg ha]
  exact ((d.text.reads a.1).bind (d.text.reads a.2).bind_pure).failsWith .error

theorem reads_attributes (h : ∀ a ∈ l, a.1 ≠ nameKey) :
    Reads (parseAttributes d l.length) (l.flatMap (packAttribute d)) l :=
  reads_readN fun a ha => reads_attribute (h a ha)

variable {s : WorkflowStep} {v rest : List β} {t : WorkflowStep} {w : List β}

theorem reads_step (hs : s.Plain) (hse : env.select s = true) :
    Reads (workflowStepAdd d env) (packStep d s) s := by
  have hlast :
      Reads (if env.select s then pure s else throw .error : Reader β Rc WorkflowStep) [] s := by
    rw [if_pos hse]
    exact reads_pure s
  rw [packStep, ← append_nil (s.attributes.flatMap _)]
  exact (d.count.reads _).bind ((d.text.reads _).bind ((reads_attributes hs).bind hlast))

theorem reads_workflow {w : Workflow} (hpl : ∀ s ∈ w.steps, s.Plain) (hba : env.eventBase = true)
    (hse : ∀ s ∈ w.steps, env.select s = true) :
    Reads (workflowAdd d env) (packWorkflow d w) w := by
  have hst := reads_readN fun s hs => reads_step (d := d) (hpl s hs) (hse s hs)
  simp only [workflowAdd, hba, if_true]
  exact (d.count.reads _).bind ((d.text.reads _).bind hst.bind_pure)

/-! ## Attributes that are called like the name -/

/-- The strings that are packed of an attribute. -/
def attributeTexts (a : Text × Text) : List Text := if a.1 = nameKey then [a.2] else [a.1, a.2]

theorem packAttribute_eq (a : Text × Text) :
    packAttribute d a = (attributeTexts a).flatMap d.text.write := by
  by_cases ha : a.1 = nameKey <;> simp [packAttribute, attributeTexts, ha]

theorem length_attributeTexts_le (l : List (Text × Text)) :
    (l.flatMap attributeTexts).length ≤ 2 * l.length := by
  induction l with
  | nil => exact Nat.le_refl 0
  | cons a l ih =>
    have ha : (attributeTexts a).length ≤ 2 := by
      unfold attributeTexts
      split <;> simp
    rw [flatMap_cons, length_append, length_cons]
    omega

theorem length_attributeTexts_lt (ha : a ∈ l) (hname : a.1 = nameKey) :
    (l.flatMap attributeTexts).length < 2 * l.length := by
  obtain ⟨l₁, l₂, rfl⟩ := append_of_mem ha
  have hone : (attributeTexts a).length = 1 := by rw [attributeTexts, if_pos hname]; rfl
  have h₁ := length_attributeTexts_le l₁
  have h₂ := length_attributeTexts_le l₂
  simp only [flatMap_append, flatMap_cons, length_append, length_cons]
  omega

theorem exists_of_parseAttribute (h : (parseAttribute d).run w = .ok (a, v)) :
    ∃ u, d.text.read.run w = .ok (a.1, u) ∧ d.text.read.run u = .ok (a.2, v) := by
  obtain ⟨key, u, hkey, hre⟩ := exists_of_run_bind (run_of_failsWith h)
  obtain ⟨value, u', hv, hlast⟩ := exists_of_run_bind hre
  cases hlast
  exact ⟨u, hkey, hv⟩

theorem parseAttributes_short (hre : ∀ q, d.text.read.run rest ≠ .ok q) (n : Nat)
    (texts : List Text) (hshort : texts.length < 2 * n) (q : List (Text × Text) × List β) :
    (readN (parseAttribute d) n).run (texts.flatMap d.text.write ++ rest) ≠ .ok q := by
  induction n generalizing texts q with
  | zero => omega
  | succ n ih =>
    intro h
    obtain ⟨a, u, ha, h⟩ := exists_of_run_bind h
    obtain ⟨v, hkey, hv⟩ := exists_of_parseAttribute ha
    match texts with
    | [] => exact hre _ hkey
    | [x] =>
      rw [flatMap_singleton, d.text.reads x rest] at hkey
      cases hkey
      exact hre _ hv
    | x :: y :: texts =>
      rw [flatMap_cons, append_assoc, d.text.reads x _] at hkey
      cases hkey
      rw [flatMap_cons, append_assoc, d.text.reads y _] at hv
      cases hv
      obtain ⟨l, u', hl, -⟩ := exists_of_run_bind h
      exact ih texts (by simp at hshort; omega) _ hl

theorem exists_of_workflowStepAdd (h : (workflowStepAdd d env).run w = .ok (s, v)) :
    env.select s = true ∧ ∃ n u u', d.count.read.run w = .ok (n, u) ∧
      d.text.read.run u = .ok (s.analytic, u') ∧
      (parseAttributes d n).run u' = .ok (s.attributes, v) := by
  obtain ⟨n, u, hn, h⟩ := exists_of_run_bind h
  obtain ⟨name, u', hname, h⟩ := exists_of_run_bind h
  obtain ⟨as, u'', has, h⟩ := exists_of_run_bind h
  cases hse : env.select ⟨name, as⟩ with
  | false =>
    rw [hse] at h
    cases h
  | true =>
    rw [hse] at h
    cases h
    exact ⟨hse, n, u, u', hn, hname, has⟩

/-- Where a step was packed its name and then its attributes are unpacked. -/
theorem exists_of_packStep (h : (workflowStepAdd d env).run (packStep d s ++ rest) = .ok (t, v)) :
    t.analytic = s.analytic ∧
      (parseAttributes d s.attributes.length).run (s.attributes.flatMap (packAttribute d) ++ rest) =
      .ok (t.attributes, v) := by
  obtain ⟨-, n, u, u', hn, hname, has⟩ := exists_of_workflowStepAdd h
  rw [packStep, append_assoc, d.count.reads _ _] at hn
  cases hn
  rw [append_assoc, d.text.reads _ _] at hname
  injection hname with hname
  injection hname with hname hu
  subst hu
  exact ⟨hname.symm, has⟩

theorem workflowStepAdd_packStep (hs : s.Plain)
    (h : (workflowStepAdd d env).run (packStep d s ++ rest) = .ok (t, v)) : t = s ∧ v = rest := by
  obtain ⟨hname, has⟩ := exists_of_packStep h
  rw [reads_attributes hs rest] at has
  injection has with has
  injection has with has hv
  exact ⟨congrArg₂ WorkflowStep.mk hname has.symm, hv.symm⟩

/-- A step that is unpacked has no attribute that is called like the name. -/
theorem plain_of_workflowStepAdd (hre : ∀ q, d.text.read.run rest ≠ .ok q)
    (h : (workflowStepAdd d env).run (packStep d s ++ rest) = .ok (t, v)) : s.Plain := by
  intro a ha hkey
  have hte : s.attributes.flatMap (packAttribute d) =
      (s.attributes.flatMap attributeTexts).flatMap d.text.write := by
    rw [flatMap_assoc, funext packAttribute_eq]
  have has := (exists_of_packStep h).2
  rw [hte] at has
  exact parseAttributes_short hre _ _ (length_attributeTexts_lt ha hkey) _ has

theorem plain_of_steps (hty : Typed d) {l : List WorkflowStep} {q : List WorkflowStep × List β}
    (h : (readN (workflowStepAdd d env) l.length).run (l.flatMap (packStep d)) = .ok q) :
    ∀ s ∈ l, s.Plain := by
  induction l generalizing q with
  | nil => simp
  | cons s l ih =>
    -- behind a step there is the number of attributes of the next one, or nothing
    have hre : ∀ q, d.text.read.run (l.flatMap (packStep d)) ≠ .ok q := by
      intro q
      cases l with
      | nil => exact hty.2 q
      | cons t l =>
        rw [flatMap_cons, packStep, append_assoc]
        exact hty.1 _ _ q
    obtain ⟨t, u, hs, h⟩ := exists_of_run_bind h
    obtain ⟨ts, u', hl, -⟩ := exists_of_run_bind h
    have hpl := plain_of_workflowStepAdd hre hs
    obtain ⟨-, rfl⟩ := workflowStepAdd_packStep hpl hs
    exact forall_mem_cons.2 ⟨hpl, ih hl⟩

theorem exists_of_workflowAdd {w v : Workflow}
    (h : (workflowAdd d env).run (packWorkflow d w) = .ok (v, rest)) :
    env.eventBase = true ∧
      (readN (workflowStepAdd d env) w.steps.length).run (w.steps.flatMap (packStep d)) =
      .ok (v.steps, rest) := by
  obtain ⟨n, u, hn, h⟩ := exists_of_run_bind h
  obtain ⟨name, u', hname, h⟩ := exists_of_run_bind h
  rw [packWorkflow, d.count.reads _ _] at hn
  cases hn
  rw [d.text.reads _ _] at hname
  cases hname
  cases hba : env.eventBase with
  | false =>
    rw [hba] at h
    cases h
  | true =>
    rw [hba] at h
    obtain ⟨steps, u', hst, h⟩ := exists_of_run_bind h
    cases h
    exact ⟨rfl, hst⟩

/-- A workflow arrives as it was sent, and all of the buffer is unpacked, if and only if it has
one name, its attributes have other keys, no step is inside another one, and the receiver can run
its steps. -/
theorem workflowAdd_extractWorkflowInfo (htyped : Typed d) {resultList : List Pugi.Item}
    {buf : List β} {isFilterFirstStep : Bool}
    (h : extractWorkflowInfo d resultList workflowKey false = .ok (buf, isFilterFirstStep)) :
    (∃ w : Workflow, (workflowAdd d env).run buf = .ok (w, []) ∧ w.items = resultList) ↔
      plainWorkflow resultList = true ∧ env.eventBase = true ∧ ∀ s : WorkflowStep,
      s.item ∈ resultList → env.select s = true := by
  have hmem : ∀ (w : Workflow) (s : WorkflowStep), s.item ∈ w.items ↔ s ∈ w.steps := by
    intro w s
    have hname : s.item ≠ .string nameKey w.name := by simp [WorkflowStep.item]
    rw [Workflow.items, mem_cons, or_iff_right hname, mem_map]
    exact ⟨fun ⟨t, ht, heq⟩ => item_injective heq ▸ ht, fun hs => ⟨s, hs, rfl⟩⟩
  constructor
  · rintro ⟨w, hrun, rfl⟩
    rw [extractWorkflowInfo_items h] at hrun
    obtain ⟨hba, hst⟩ := exists_of_workflowAdd hrun
    refine ⟨(plainWorkflow_items w).2 (plain_of_steps htyped hst), hba, fun s hs => ?_⟩
    exact forall_of_readN (fun _ _ _ hadd => (exists_of_workflowStepAdd hadd).1) hst s
      ((hmem w s).1 hs)
  · rintro ⟨hpl, hba, hse⟩
    obtain ⟨w, rfl⟩ := exists_workflow hpl h
    refine ⟨w, ?_, rfl⟩
    have hre :=
      reads_workflow (d := d) ((plainWorkflow_items w).1 hpl) hba fun s hs =>
      hse s ((hmem w s).2 hs)
    rw [extractWorkflowInfo_items h, ← append_nil (packWorkflow d w)]
    exact hre []

end

/-! ## A buffer of whole values -/

def tokens : Dss (Opal.Item Empty) := Opal.items Empty .unpackFailure

theorem tokens_typed : Typed tokens := by
  constructor
  · intro n rest q h
    cases h
  · intro q h
    cases h

def anyStep : Env := ⟨fun _ => true, true⟩

/-- A workflow `w` with the step `filter`, which has one attribute. -/
def filterWorkflow (key : Text) : List Pugi.Item :=
  [.string nameKey ['w'], .list stepKey [.string nameKey filterName, .string key ['v']]]

theorem filterWorkflow_arrives :
    extractWorkflowInfo tokens (filterWorkflow ['k']) workflowKey false =
        .ok ([.count 1, .string (some ['w']), .count 1, .string (some filterName),
        .string (some ['k']), .string (some ['v'])], true) ∧
      ∃ w : Workflow, (workflowAdd tokens anyStep).run
          [.count 1, .string (some ['w']), .count 1, .string (some filterName),
            .string (some ['k']), .string (some ['v'])] = .ok (w, []) ∧
        w.items = filterWorkflow ['k'] :=
  (and_iff_left_of_imp fun hpa => (workflowAdd_extractWorkflowInfo tokens_typed hpa).2
    ⟨rfl, rfl, fun _ _ => rfl⟩).2 rfl

/-- The key of an attribute `name` is not packed. -/
theorem filterWorkflow_lost :
    extractWorkflowInfo tokens (filterWorkflow nameKey) workflowKey false =
        .ok ([.count 1, .string (some ['w']), .count 1, .string (some filterName),
        .string (some ['v'])], true) ∧
      ¬ ∃ w : Workflow, (workflowAdd tokens anyStep).run [.count 1, .string (some ['w']), .count 1,
      .string (some filterName), .string (some ['v'])] = .ok (w, []) ∧
        w.items = filterWorkflow nameKey := by
  refine ⟨rfl, ?_⟩
  rintro ⟨w, hrun, -⟩
  cases hrun

end Sensys.Workflows
