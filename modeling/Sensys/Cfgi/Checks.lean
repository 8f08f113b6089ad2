import Sensys.Cfgi.Augment
import Sensys.Orte.Extract
/-!
# The version of the configuration file

`checkVersion` is the loop of `file30_init` (`orcm/mca/cfgi/file30/cfgi_file30.c:334-361`). On a
version that is not 3 the items are released inside the loop, which goes on. `xml_tree_destroy`
sets their number to 0, which the index is past: it is never met again, and the next item is read
where no items are.
-/
namespace Sensys.Cfgi
open Orte

def checkVersion : List (List Char) → Bool → Except Fault Unit
  | [], found => if found then .ok () else .error .badParam
  | t :: rest, found =>
    if strcaseeq t "version".toList then
      match rest.head? with
      | some ('\t' :: value) =>
        if value.head? = some '3' then checkVersion rest true else .error .outside
      | _ => .error .badParam
    else checkVersion rest found

/-- The value of a field from what is behind its tag. -/
def fieldData : List (List Char) → Option (List Char)
  | ('\t' :: value) :: _ => some value
  | _ => none

/-- The values of all fields for the version. -/
def versions : List (List Char) → List (Option (List Char))
  | [] => []
  | t :: rest =>
    if strcaseeq t "version".toList then fieldData rest :: versions rest else versions rest

def isThree (v : Option (List Char)) : Bool := v.any (·.head? = some '3')

theorem checkVersion_eq (items : List (List Char)) (found : Bool) : checkVersion items found =
    match (versions items).find? (!isThree ·) with
    | none => if found || !(versions items).isEmpty then .ok () else .error .badParam
    | some none => .error .badParam
    | some (some _) => .error .outside := by
  induction items generalizing found with
  | nil => simp [checkVersion, versions]
  | cons t rest ih =>
    rw [checkVersion, versions]
    split
    · split
      · rename_i value hre
        obtain ⟨more, rfl⟩ : ∃ more, rest = ('\t' :: value) :: more := by
          cases rest <;> simp_all
        by_cases hv : value.head? = some '3'
        · simp [hv, ih, fieldData, isThree]
        · simp [hv, fieldData, isThree]
      · rename_i hre
        have hda : fieldData rest = none := by
          unfold fieldData
          split
          · exact absurd rfl (hre _)
          · rfl
        simp [hda, isThree]
    · exact ih found

/-- **No item outside is read, and exactly the files with versions 3 are accepted**, if the first
version that is not 3 has no value. -/
theorem checkVersion_right_iff (items : List (List Char)) :
    (checkVersion items false ≠ .error .outside ∧
      (checkVersion items false = .ok () ↔
      versions items ≠ [] ∧ ∀ v ∈ versions items, isThree v = true)) ↔
      ∀ value, (versions items).find? (!isThree ·) ≠ some (some value) := by
  rw [checkVersion_eq]
  cases hf : (versions items).find? (!isThree ·) with
  | none =>
    have hall : ∀ v ∈ versions items, isThree v = true := by simpa using hf
    by_cases hem : versions items = []
    · simp [hem]
    · simpa [hem] using hall
  | some v =>
    have hnot : ¬ ∀ v ∈ versions items, isThree v = true := by
      intro hall
      have hv := List.find?_some hf
      rw [hall v (List.mem_of_find?_eq_some hf)] at hv
      cases hv
    cases v <;> simp [hnot]

/-- The version 2 is followed by another item. -/
theorem version2_reads_outside :
    checkVersion ["version".toList, "\t2".toList, "/version".toList] false = .error .outside ∧
      versions ["version".toList, "\t2".toList, "/version".toList] = [some ['2']] := by
  decide

end Sensys.Cfgi
