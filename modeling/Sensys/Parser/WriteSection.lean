import Mathlib.Algebra.Order.Group.Multiset
import Mathlib.Tactic.Abel
import Sensys.Parser.Pugi
/-!
# A section after it was written

`writeToTree` replaces the contents of one section (`findSection`), the first one with the key and
the name, and `search` finds every item of the tree that it looks for (`search_perm`), also those
inside others that are found.
-/
namespace Sensys.Pugi
open Orte

/-! ## What is searched -/

mutual

/-- An item and all that is inside it. -/
def Item.nested : Item → List Item
  | .list key items => .list key items :: allNested items
  | i => [i]

/-- The items of a list at any depth. -/
def allNested : List Item → List Item
  | [] => []
  | i :: rest => i.nested ++ allNested rest

end

/-- A string `name` inside the item is the name. -/
def Item.named (name : Text) : Item → Bool
  | .list _ items => hasName name items
  | _ => false

/-- The item has the key, and the name if one is given. -/
def wanted (key name : Text) (i : Item) : Bool := i.key = key && (name = [] || i.named name)

mutual

theorem searchItem_add (p : Item → Bool) (i : Item) :
    (searchItem p i : Multiset Item) + ([i].filter p : List Item) =
    (i.nested.filter p : List Item) := by
  match i with
  | .list key items =>
    have hse := search_add p items (items.filter p)
    rw [add_comm] at hse
    rw [searchItem, add_left_cancel hse, Item.nested, add_comm, Multiset.coe_add,
      ← List.filter_append]
    rfl
  | .string _ _ | .int _ _ | .other _ => exact zero_add _

/-- What is further down comes to what was found. -/
theorem search_add (p : Item → Bool) (l found : List Item) :
    (search p l found : Multiset Item) + (l.filter p : List Item) =
    (found : Multiset Item) + ((allNested l).filter p : List Item) := by
  match l with
  | [] => rfl
  | i :: rest =>
    have hre := search_add p rest (searchItem p i ++ found)
    have hf : (i :: rest).filter p = [i].filter p ++ rest.filter p := List.filter_append [i] rest
    rw [search, hf, allNested, List.filter_append, ← Multiset.coe_add, ← Multiset.coe_add,
      ← searchItem_add p i, add_left_comm, hre, ← Multiset.coe_add]
    abel

end

theorem search_perm (p : Item → Bool) (l : List Item) :
    (search p l (l.filter p)).Perm ((allNested l).filter p) := by
  have hse := search_add p l (l.filter p)
  rw [add_comm] at hse
  exact Multiset.coe_eq_coe.1 (add_left_cancel hse)

theorem searchInTree_eq (key name : Text) (tree : List Item) :
    searchInTree key name tree = search (wanted key name) tree (tree.filter (wanted key name)) := by
  rw [searchInTree]
  split
  · rename_i hname
    have hp : (fun i : Item => decide (i.key = key)) = wanted key name := by
      funext i
      simp [wanted, hname]
    rw [hp]
  · rename_i hname
    have hp : itemMatchesKeyAndName key name = wanted key name := by
      funext i
      cases i <;> simp [wanted, itemMatchesKeyAndName, hname, Item.named, Item.key, eq_comm]
    rw [hp]

/-- **A section that is retrieved** consists of one copy of each item at any depth with the key,
and the name if one is given. -/
theorem retrieveSection_perm (key name : Text) (root : List Item) (hkey : key ≠ []) :
    (retrieveSection key name root).Perm ((allNested root).filter (wanted key name)) := by
  rw [retrieveSection, if_neg hkey, searchInTree_eq]
  exact search_perm _ root

theorem retrieveSection_perm_nested :
    (retrieveSection ['s'] [] [.list ['s'] [.list ['s'] []]]).Perm [.list ['s'] [.list ['s'] []],
      .list ['s'] []] :=
  retrieveSection_perm ['s'] [] [.list ['s'] [.list ['s'] []]] (by decide)

/-- `<a><b/>t</a>`: the key of the list for `t` is the empty text, and no section is retrieved
with it. -/
theorem emptyKey_not_retrieved :
    ∃ root, loadFile [.element ['a'] [] [.element ['b'] [] [], .pcdata ['t']]] = some root ∧
      (allNested root).filter (wanted [] []) ≠ [] ∧ retrieveSection [] [] root = [] :=
  ⟨_, rfl, by decide, rfl⟩

/-- The item is in the list or in a list further down. -/
inductive Inside (x : Item) : List Item → Prop
  | here {l : List Item} (h : x ∈ l) : Inside x l
  | deeper {l items : List Item} {key : Text} (h : .list key items ∈ l)
      (h' : Inside x items) : Inside x l

theorem Inside.mem_allNested {x : Item} {l : List Item} (h : Inside x l) : x ∈ allNested l := by
  have hall (l : List Item) : allNested l = l.flatMap Item.nested := by
    induction l with
    | nil => rfl
    | cons i l ih => rw [allNested, ih, List.flatMap_cons]
  induction h with
  | here h =>
    rw [hall]
    refine List.mem_flatMap.2 ⟨x, h, ?_⟩
    cases x <;> exact List.mem_cons_self
  | deeper h _ ih =>
    rw [hall]
    exact List.mem_flatMap.2 ⟨_, h, List.mem_cons_of_mem _ ih⟩

/-! ## What is written -/

mutual

/-- The contents that `writeToTree` replaces. -/
def findInItem (key name : Text) : Item → Option (List Item)
  | .list k items =>
    if itemMatchesKeyAndName key name (.list k items) then some items
    else findSection key name items
  | _ => none

def findSection (key name : Text) : List Item → Option (List Item)
  | [] => none
  | i :: rest => (findInItem key name i).or (findSection key name rest)

end

variable {items : List Item}

theorem key_of_matches {key name k : Text}
    (h : itemMatchesKeyAndName key name (.list k items) = true) : k = key := by
  rw [itemMatchesKeyAndName, Bool.and_eq_true] at h
  exact (of_decide_eq_true h.1).symm

theorem Inside.mono {x : Item} {l m : List Item} (h : Inside x l) (hsub : ∀ i ∈ l, i ∈ m) :
    Inside x m := by
  cases h with
  | here hx => exact .here (hsub x hx)
  | deeper hi hin => exact .deeper (hsub _ hi) hin

section
variable (write : List Item → List Item) (key name : Text)

mutual

/-- Nothing is found and written, or one section is. -/
theorem writeToItem_cases (i : Item) :
    (findInItem key name i = none ∧ writeToItem write key name i = none) ∨
    ∃ old i', findInItem key name i = some old ∧ writeToItem write key name i = some i' ∧
      itemMatchesKeyAndName key name (.list key old) = true ∧
      Inside (.list key (write old)) [i'] := by
  match i with
  | .list k items =>
    rw [findInItem, writeToItem]
    by_cases hm : itemMatchesKeyAndName key name (.list k items) = true
    · have hk := key_of_matches hm
      subst hk
      rw [if_pos hm, if_pos hm]
      exact Or.inr ⟨items, _, rfl, rfl, hm, .here List.mem_cons_self⟩
    · rw [if_neg hm, if_neg hm]
      rcases writeToTree_cases items with ⟨hf, hwr⟩ | ⟨old, items', hf, hwr, hold, hin⟩
      · rw [hwr]
        exact Or.inl ⟨hf, rfl⟩
      · rw [hwr]
        exact Or.inr ⟨old, _, hf, rfl, hold, .deeper List.mem_cons_self hin⟩
  | .string _ _ | .int _ _ | .other _ => exact Or.inl ⟨rfl, rfl⟩

theorem writeToTree_cases (l : List Item) :
    (findSection key name l = none ∧ writeToTree write key name l = none) ∨
    ∃ old l', findSection key name l = some old ∧ writeToTree write key name l = some l' ∧
      itemMatchesKeyAndName key name (.list key old) = true ∧
      Inside (.list key (write old)) l' := by
  match l with
  | [] => exact Or.inl ⟨rfl, rfl⟩
  | i :: rest =>
    rw [findSection, writeToTree]
    rcases writeToItem_cases i with ⟨hf, hwr⟩ | ⟨old, i', hf, hwr, hold, hin⟩
    · rw [hf, hwr, Option.none_or]
      rcases writeToTree_cases rest with ⟨hf, hwr⟩ | ⟨old, rest', hf, hwr, hold, hin⟩
      · rw [hwr]
        exact Or.inl ⟨hf, rfl⟩
      · rw [hwr]
        exact Or.inr ⟨old, _, hf, rfl, hold, hin.mono fun _ => List.mem_cons_of_mem _⟩
    · rw [hf, hwr]
      refine Or.inr ⟨old, _, rfl, rfl, hold, hin.mono fun j hj => ?_⟩
      rw [List.mem_singleton.1 hj]
      exact List.mem_cons_self

end

end

/-! ## What is retrieved -/

/-- What the section with the key and the name holds, where the empty key stands for the document.
-/
def oldContents (key name : Text) (root : List Item) : List Item :=
  if key = [] then root else (findSection key name root).getD []

/-- A section that was written successfully is retrieved with the contents. -/
def Gives (key name : Text) (contents : List Item) : Outcome → Prop
  | .success root _ =>
    if key = [] then retrieveDocument root = contents
    else .list key contents ∈ retrieveSection key name root
  | .failed _ _ => True
  | .undefined => False

theorem list_mem_retrieveSection {key name : Text} {items root : List Item} (hkey : key ≠ [])
    (h : Inside (.list key items) root) :
    .list key items ∈ retrieveSection key name root ↔ name = [] ∨ hasName name items = true := by
  rw [retrieveSection, if_neg hkey, searchInTree_eq, (search_perm _ _).mem_iff, List.mem_filter,
    and_iff_right h.mem_allNested]
  simp [wanted, Item.key, Item.named]

theorem hasName_of_matches {key name : Text}
    (h : itemMatchesKeyAndName key name (.list key items) = true) :
    name = [] ∨ hasName name items = true := by
  by_cases hname : name = []
  · exact Or.inl hname
  · rw [itemMatchesKeyAndName, if_neg hname, Bool.and_eq_true] at h
    exact Or.inr h.2

theorem saveSection_cases (saved : Bool) (r : List Item) :
    (∃ rc, saveSection saved r = .failed rc r) ∨
    ∃ c, saveSection saved r = .success r c.children ∧ convertOpalListToXmlNodes r = .ok c := by
  rw [saveSection]
  split
  · exact Or.inl ⟨_, rfl⟩
  · rename_i c hc
    split
    · exact Or.inr ⟨c, rfl, hc⟩
    · exact Or.inl ⟨_, rfl⟩

/-- **When a section is retrieved as it was written.** -/
theorem writeSection_gives_iff (saved : Bool) (root input : List Item) (key name : Text)
    (overwrite : Bool) :
    Gives key name (appendToList input overwrite (oldContents key name root))
      (writeSection saved root input key name overwrite) ↔
      (∃ rc root', writeSection saved root input key name overwrite = .failed rc root') ∨
      overwrite = false ∨
        (key ≠ [] ∧ (name = [] ∨ hasName name input = true)) := by
  rw [oldContents, writeSection]
  by_cases hkey : key = []
  · rw [if_pos hkey, if_pos hkey]
    cases overwrite with
    | true => simp [Gives, hkey]
    | false =>
      rcases saveSection_cases saved (root ++ input) with ⟨rc, hr⟩ | ⟨c, hr, -⟩
      · simp [hr, Gives]
      · simp [hr, Gives, hkey, appendToList, retrieveDocument]
  · rw [if_neg hkey, if_neg hkey]
    rcases writeToTree_cases (appendToList input overwrite) key name root with ⟨hf, hwr⟩ |
      ⟨old, root', hf, hwr, hold, hin⟩
    · simp [hwr, Gives]
    · rw [hf, hwr, Option.getD_some]
      rcases saveSection_cases saved root' with ⟨rc, hr⟩ | ⟨c, hr, -⟩
      · simp [hr, Gives]
      · simp only [hr, Gives, if_neg hkey, list_mem_retrieveSection hkey hin]
        cases overwrite with
        | true => simp [hkey, appendToList]
        | false =>
          refine iff_of_true ((hasName_of_matches hold).imp id fun h => ?_) (Or.inr (Or.inl rfl))
          change hasName name (old ++ input) = true
          rw [hasName, List.any_append, Bool.or_eq_true]
          exact Or.inl h

/-- A section with a name. -/
def namedSection : List Item := [.list ['s'] [.string nameKey ['n'], .string ['a'] ['x']]]

/-- The name is overwritten as well, and nothing is found by it. -/
theorem namedSection_overwritten :
    writeSection true namedSection [.string ['b'] ['y']] ['s'] ['n'] true =
      .success [.list ['s'] [.string ['b'] ['y']]]
      [.element ['s'] [] [.element ['b'] [] [.pcdata ['y']]]] ∧
    retrieveSection ['s'] ['n'] [.list ['s'] [.string ['b'] ['y']]] = [] := by
  exact ⟨rfl, rfl⟩

end Sensys.Pugi
