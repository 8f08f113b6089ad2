import Sensys.Parser.Pugi
/-!
# What the file holds after items were saved

Every string but a name becomes a leaf and every list a section with the names in it as attributes
(`savedItems`); that is what is loaded of the nodes that `convertOpalListToXmlNodes` makes
(`convert_saved`).
-/
namespace Sensys.Pugi
open Orte List

/-- The names in a list. -/
def nameAttributes (l : List Item) : List (Text × Text) :=
  l.filterMap fun i => match i with
    | .string key value => if key = nameKey then some (key, value) else none
    | _ => none

mutual

def savedItem : Item → List Xml
  | .string key value =>
    if key = nameKey then []
    else [.element (shown key) [] (if blank value then [] else [.pcdata value])]
  | .list key items => [.element (shown key) (nameAttributes items) (savedItems items)]
  | .int _ _ => []
  | .other _ => []

def savedItems : List Item → List Xml
  | [] => []
  | i :: rest => savedItem i ++ savedItems rest

end

theorem exists_of_isName {i : Item} (h : i.isName = true) : ∃ value, i = .string nameKey value := by
  cases i with
  | string key value =>
    have hkey : key = nameKey := by simpa [Item.isName] using h
    exact ⟨value, by rw [hkey]⟩
  | _ => cases h

theorem nameAttributes_append (l m : List Item) :
    nameAttributes (l ++ m) = nameAttributes l ++ nameAttributes m :=
  filterMap_append

theorem nameAttributes_eq_nil {l : List Item} (h : ∀ i ∈ l, i.isName = false) :
    nameAttributes l = [] := by
  rw [nameAttributes, filterMap_eq_nil_iff]
  intro i hi
  have hi := h i hi
  cases i with
  | string key value => simpa [Item.isName] using hi
  | _ => rfl

theorem savedItems_eq (l : List Item) : savedItems l = l.flatMap savedItem := by
  induction l with
  | nil => rfl
  | cons i l ih => rw [savedItems, ih, flatMap_cons]

theorem savedItems_append (l m : List Item) :
    savedItems (l ++ m) = savedItems l ++ savedItems m := by
  simp only [savedItems_eq, flatMap_append]

theorem savedItem_of_isName {i : Item} (h : i.isName = true) : savedItem i = [] := by
  obtain ⟨value, rfl⟩ := exists_of_isName h
  rw [savedItem, if_pos rfl]

theorem savedItems_of_isName {l : List Item} (h : ∀ i ∈ l, i.isName = true) :
    savedItems l = [] := by
  rw [savedItems_eq, flatMap_eq_nil_iff]
  exact fun i hi => savedItem_of_isName (h i hi)

theorem reloadNodes_append (xs ys : List Xml) :
    reloadNodes (xs ++ ys) = reloadNodes xs ++ reloadNodes ys := by
  induction xs with
  | nil => rfl
  | cons x xs ih => rw [cons_append, reloadNodes, reloadNodes, ih, append_assoc]

mutual

theorem convertItem_saved (i : Item) {c : Content} (h : convertItem i = .ok c) :
    c.attributes = nameAttributes [i] ∧ reloadNodes c.children = savedItem i ∧ ∀ x ∈ c.children,
      x.isElement = true := by
  match i with
  | .string key value =>
    by_cases hkey : key = nameKey
    · rw [convertItem, if_pos hkey] at h
      cases h
      simp [nameAttributes, hkey, reloadNodes, savedItem]
    · rw [convertItem, if_neg hkey] at h
      cases h
      simp [nameAttributes, hkey, reloadNodes, reloadNode, savedItem, Xml.isElement]
  | .list key items =>
    cases hit : convertOpalListToXmlNodes items with
    | error rc =>
      rw [convertItem, hit] at h
      cases h
    | ok d =>
      obtain ⟨hat, hch, -⟩ := convert_saved items hit
      rw [convertItem, hit] at h
      cases h
      refine ⟨rfl, ?_, by simp [Xml.isElement]⟩
      simp only [reloadNodes, reloadNode, append_nil, savedItem, hat, hch]
  | .int _ _ => cases h
  | .other _ =>
    cases h
    simp [nameAttributes, reloadNodes, savedItem]

theorem convert_saved (l : List Item) {c : Content} (h : convertOpalListToXmlNodes l = .ok c) :
    c.attributes = nameAttributes l ∧ reloadNodes c.children = savedItems l ∧ ∀ x ∈ c.children,
      x.isElement = true := by
  match l with
  | [] =>
    cases h
    simp [nameAttributes, reloadNodes, savedItems]
  | i :: rest =>
    cases hi : convertItem i with
    | error rc =>
      rw [convertOpalListToXmlNodes, hi] at h
      cases h
    | ok d =>
      cases hre : convertOpalListToXmlNodes rest with
      | error rc =>
        rw [convertOpalListToXmlNodes, hi, hre] at h
        cases h
      | ok e =>
        obtain ⟨hat, hch, hel⟩ := convertItem_saved i hi
        obtain ⟨hat', hch', hel'⟩ := convert_saved rest hre
        rw [convertOpalListToXmlNodes, hi, hre] at h
        cases h
        refine ⟨?_, ?_, forall_mem_append.2 ⟨hel, hel'⟩⟩
        · change d.attributes ++ e.attributes = nameAttributes ([i] ++ rest)
          rw [hat, hat', nameAttributes_append]
        · change reloadNodes (d.children ++ e.children) = savedItem i ++ savedItems rest
          rw [reloadNodes_append, hch, hch']

end

end Sensys.Pugi
