import Sensys.Orte.Extract
/-!
# Removing workflows (`orcm/mca/analytics/base/analytics_base_stubs.c:363-410`)

`orcm_analytics_base_workflow_remove` behind the unpacking of the two texts. The id is read as a
number if its last character is a digit; of an empty text that is the byte before it, which is a
parameter. The name `*` decides alone, whatever the id is.
-/
namespace Sensys.Analytics
open Text Orte List

/-- What a workflow of the list is told apart by. -/
structure Active where
  name       : Text
  workflowId : Int32
deriving DecidableEq

section
variable (before : Char) (name id : Text)

def workflowNumId : Int32 :=
  if id ≠ ['*'] ∧ (id.getLastD before).isDigit = true then
    Int32.ofInt (max (-2 ^ 63) (min (Orte.strtol 10 id) longMax)) else -1

def isRemoved (wf : Active) : Bool :=
  name = ['*'] ∨ name = wf.name ∧ (workflowNumId before id = wf.workflowId ∨ id = ['*'])

/-- `is_workflow_deleted` and the list behind the loop. -/
def workflowRemove : List Active → Bool × List Active
  | [] => (false, [])
  | wf :: rest =>
    if isRemoved before name id wf then (true, (workflowRemove rest).2)
    else ((workflowRemove rest).1, wf :: (workflowRemove rest).2)

/-- The id that is asked for. -/
def HasId (wf : Active) : Prop :=
  id = ['*'] ∨ IsNumber id ∧ (digitsValue id : Int) = wf.workflowId.toInt
deriving Decidable

/-- The workflow has the name and the id that are asked for. -/
def isAsked (wf : Active) : Bool := (name = ['*'] ∨ name = wf.name) ∧ HasId id wf

variable {before name id} {wfs : List Active}

theorem workflowRemove_eq : workflowRemove before name id wfs =
    (wfs.any (isRemoved before name id), wfs.filter fun wf => !isRemoved before name id wf) := by
  induction wfs with
  | nil => rfl
  | cons wf rest ih =>
    rw [workflowRemove, ih]
    split <;> simp_all

theorem workflowNumId_of_number {wf : Active} (hid : IsNumber id)
    (hv : (digitsValue id : Int) = wf.workflowId.toInt) :
    workflowNumId before id = wf.workflowId := by
  have hlast : (id.getLastD before).isDigit = true := by
    rw [getLastD_eq_getLast?, getLast?_eq_some_getLast hid.1, Option.getD_some]
    exact hid.2 _ (getLast_mem hid.1)
  have hst : id ≠ ['*'] := by
    rintro rfl
    exact absurd hid (by decide)
  have hlt := wf.workflowId.toInt_lt
  rw [workflowNumId, if_pos ⟨hst, hlast⟩, strtol_number hid, hv,
    show max (-2 ^ 63) (min wf.workflowId.toInt (longMax : Int)) =
    wf.workflowId.toInt by unfold longMax; omega, Int32.ofInt_toInt]

theorem isRemoved_eq_isAsked_iff (wf : Active) : isRemoved before name id wf = isAsked name id wf ↔
    (¬ HasId id wf → name ≠ ['*'] ∧
    (name = wf.name → workflowNumId before id ≠ wf.workflowId)) := by
  have hnum : HasId id wf → workflowNumId before id = wf.workflowId ∨ id = ['*'] := by
    rintro (hst | ⟨hid, hv⟩)
    · exact Or.inr hst
    · exact Or.inl (workflowNumId_of_number hid hv)
  rw [isRemoved, isAsked, decide_eq_decide]
  tauto

/-- **Exactly the workflows that are asked for are removed** unless another one has the name `*`
asked of it, or its name and the number that is read from the text of the id. -/
theorem workflowRemove_asked_iff (before : Char) (name id : Text) (wfs : List Active) :
    workflowRemove before name id wfs =
      (wfs.any (isAsked name id), wfs.filter fun wf => !isAsked name id wf) ↔
      ∀ wf ∈ wfs, ¬ HasId id wf →
      name ≠ ['*'] ∧ (name = wf.name → workflowNumId before id ≠ wf.workflowId) := by
  simp only [← isRemoved_eq_isAsked_iff, workflowRemove_eq]
  constructor
  · intro h wf hwf
    have hk : wf ∈ wfs.filter (fun wf => !isRemoved before name id wf) ↔
        wf ∈ wfs.filter fun wf => !isAsked name id wf := by
      rw [(Prod.mk.inj h).2]
    simp only [mem_filter, hwf, true_and] at hk
    simpa using Bool.eq_iff_iff.2 hk
  · intro h
    have hany : wfs.any (isRemoved before name id) = wfs.any (isAsked name id) := by
      rw [Bool.eq_iff_iff, any_eq_true, any_eq_true]
      exact exists_congr fun wf => and_congr_right fun hwf => by rw [h wf hwf]
    rw [hany, filter_congr fun wf hwf => by rw [h wf hwf]]

/-- Both workflows are gone where only the second one is asked for. -/
theorem first_workflow_removed :
    workflowRemove '0' "*".toList "2".toList [⟨"a".toList, 1⟩, ⟨"b".toList, 2⟩] = (true, []) ∧
      [⟨"a".toList, 1⟩, ⟨"b".toList, 2⟩].filter (fun wf => !isAsked "*".toList "2".toList wf) =
      [⟨"a".toList, 1⟩] := by
  decide

end

end Sensys.Analytics
