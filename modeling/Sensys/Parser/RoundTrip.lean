import Sensys.Parser.Saved
/-!
# A tree that is written and loaded again

Two kinds of items do not come back: a string without characters, which is written as an element
without a text and loaded as a section, and a name at the top, for which the document has no
attribute.
-/
namespace Sensys.Pugi
open Orte List

/-! ## Trees of sections -/

def nameStart (c : Char) : Bool := c.isAlpha || c = '_' || c = ':' || 0x80 ≤ c.toNat

def nameChar (c : Char) : Bool := nameStart c || c.isDigit || c = '-' || c = '.'

/-- A name of an element. -/
def XmlName : Text → Prop
  | [] => False
  | c :: rest => nameStart c = true ∧ ∀ d ∈ rest, nameChar d = true

/-- The text neither begins nor ends with white space. -/
def Trimmed (v : Text) : Prop :=
  (∀ c ∈ v.head?, isspace c = false) ∧ ∀ c ∈ v.getLast?, isspace c = false

mutual

def Item.WellFormed : Item → Prop
  | .string key value => XmlName key ∧ Trimmed value
  | .list key items =>
    XmlName key ∧ WellFormedItems items ∧ items.tail.all (fun i => !i.isName) = true
  | .int _ _ => False
  | .other _ => False

def WellFormedItems : List Item → Prop
  | [] => True
  | i :: rest => i.WellFormed ∧ WellFormedItems rest

end

/-- Keyed strings and lists; a name comes first. -/
structure SectionTree where
  items      : List Item
  wellFormed : WellFormedItems items
  nameFirst  : items.tail.all (fun i => !i.isName) = true

/-- What is loaded from the file to which the items were written. -/
def roundTrip (items : List Item) : Option (List Item) :=
  match saveSection true items with
  | .success _ doc => (reload doc).bind loadFile
  | _ => none

mutual

/-- No string but a name is without characters. -/
def Item.Filled : Item → Prop
  | .string key value => key = nameKey ∨ value ≠ []
  | .list _ items => FilledItems items
  | _ => True

def FilledItems : List Item → Prop
  | [] => True
  | i :: rest => i.Filled ∧ FilledItems rest

end

theorem isspace_of_nameChar {c : Char} (h : nameChar c = true) : isspace c = false := by
  by_contra hsp
  have hs : isspace c = true := by simpa using hsp
  rcases of_decide_eq_true hs with rfl | rfl | rfl | rfl | rfl | rfl <;> exact absurd h (by decide)

variable {v : Text} (acc : List Item) (l : List Item)

theorem ltrim_eq (h : ∀ c ∈ v.head?, isspace c = false) : ltrim v = v := by
  cases v with
  | nil => rfl
  | cons c v => exact dropWhile_cons_of_neg (by simp [h c rfl])

theorem rtrim_eq (h : ∀ c ∈ v.getLast?, isspace c = false) : rtrim v = v := by
  have hrev : ltrim v.reverse = v.reverse := ltrim_eq (by simpa using h)
  rw [rtrim, ← ltrim, hrev, reverse_reverse]

theorem Trimmed.trim_eq (h : Trimmed v) : trim v = v := by
  rw [trim, rtrim_eq h.2, ltrim_eq h.1]

theorem Trimmed.blank_iff (h : Trimmed v) : blank v = true ↔ v = [] := by
  cases v with
  | nil => simp [blank]
  | cons c v =>
    have hc := h.1 c rfl
    refine iff_of_false (fun hbl => ?_) (by simp)
    simp only [blank, all_cons, Bool.and_eq_true, decide_eq_true_eq] at hbl
    rcases hbl.1 with rfl | rfl | rfl | rfl <;> exact absurd hc (by decide)

theorem XmlName.trimmed {key : Text} (h : XmlName key) : Trimmed key := by
  cases key with
  | nil => cases h
  | cons c rest =>
    have hall : ∀ d ∈ c :: rest, isspace d = false :=
      forall_mem_cons.2 ⟨isspace_of_nameChar (by simp [nameChar, h.1]),
        fun d hd => isspace_of_nameChar (h.2 d hd)⟩
    exact ⟨fun d hd => hall d (mem_of_mem_head? hd), fun d hd => hall d (mem_of_getLast? hd)⟩

theorem XmlName.ne_nil {key : Text} (h : XmlName key) : key ≠ [] := by
  rintro rfl
  exact h

/-! ## What comes back -/

mutual

def Item.reloaded : Item → Item
  | .string key value => if key ≠ nameKey ∧ value = [] then .list key [] else .string key value
  | .list key items => .list key (reloadedItems items)
  | .int key n => .int key n
  | .other key => .other key

def reloadedItems : List Item → List Item
  | [] => []
  | i :: rest => i.reloaded :: reloadedItems rest

end

theorem reloadedItems_eq_map : reloadedItems l = l.map Item.reloaded := by
  induction l with
  | nil => rfl
  | cons i l ih => rw [reloadedItems, ih, map_cons]

theorem addNodeToList_section (name : Text) (attributes : List (Text × Text)) {children : List Xml}
    (h : ∀ x ∈ children, x.isElement = true) :
    addNodeToList acc (.element name attributes children) =
      acc ++ [.list (trim name)
      (addNodeChildrenToList (addNodeAttributesToList [] attributes) children)] := by
  match children with
  | [] => rfl
  | .element _ _ _ :: _ => rfl
  | .pcdata t :: _ => cases h (.pcdata t) mem_cons_self
  | .cdata t :: _ => cases h (.cdata t) mem_cons_self

theorem addNodeChildrenToList_append (xs ys : List Xml) :
    addNodeChildrenToList acc (xs ++ ys) =
      addNodeChildrenToList (addNodeChildrenToList acc xs) ys := by
  induction xs generalizing acc with
  | nil => rfl
  | cons x xs ih =>
    exact ih _

/-- The attribute for the name in front of a list. -/
theorem addNodeAttributes_names {l : List Item} (hwe : WellFormedItems l)
    (h : l.tail.all (fun i => !i.isName) = true) :
    addNodeAttributesToList [] (nameAttributes l) ++ reloadedItems (l.filter fun i => !i.isName) =
      reloadedItems l := by
  cases l with
  | nil => rfl
  | cons i rest =>
    have hno : ∀ j ∈ rest, j.isName = false := by simpa using h
    have hf : rest.filter (fun i => !i.isName) = rest := filter_eq_self.2 (by simpa using h)
    have hat : nameAttributes rest = [] := nameAttributes_eq_nil hno
    cases hname : i.isName with
    | true =>
      obtain ⟨value, rfl⟩ := exists_of_isName hname
      have hco : nameAttributes (.string nameKey value :: rest) = [(nameKey, value)] := by
        rw [nameAttributes, filterMap_cons, ← nameAttributes, hat]
        simp
      rw [hco, filter_cons_of_neg (by simp [hname]), hf, addNodeAttributesToList,
        foldl_cons, foldl_nil, hwe.1.1.trimmed.trim_eq, hwe.1.2.trim_eq, addValuesToList,
        if_pos rfl, reloadedItems, Item.reloaded, if_neg fun hbo => hbo.1 rfl]
      rfl
    | false =>
      rw [nameAttributes_eq_nil (forall_mem_cons.2 ⟨hname, hno⟩),
        filter_cons_of_pos (by simp [hname]), hf]
      rfl

mutual

theorem convertItem_isOk (i : Item) (h : i.WellFormed) : ∃ c, convertItem i = .ok c := by
  match i with
  | .string key value => exact ⟨_, rfl⟩
  | .list key items =>
    obtain ⟨c, hc⟩ := convert_isOk items h.2.1
    rw [convertItem, hc]
    exact ⟨_, rfl⟩
  | .int _ _ | .other _ => cases h

theorem convert_isOk (l : List Item) (h : WellFormedItems l) :
    ∃ c, convertOpalListToXmlNodes l = .ok c := by
  match l with
  | [] => exact ⟨_, rfl⟩
  | i :: rest =>
    obtain ⟨c, hc⟩ := convertItem_isOk i h.1
    obtain ⟨d, hd⟩ := convert_isOk rest h.2
    rw [convertOpalListToXmlNodes, hc, hd]
    exact ⟨_, rfl⟩

end

theorem isElement_savedItem (i : Item) : ∀ x ∈ savedItem i, x.isElement = true := by
  cases i with
  | string key value =>
    rw [savedItem]
    split <;> simp [Xml.isElement]
  | list key items => simp [savedItem, Xml.isElement]
  | int key n | other key => simp [savedItem]

theorem isElement_savedItems : ∀ x ∈ savedItems l, x.isElement = true := by
  rw [savedItems_eq, forall_mem_flatMap]
  exact fun i _ => isElement_savedItem i

mutual

theorem load_savedItem (i : Item) (h : i.WellFormed) (hname : i.isName = false) (acc : List Item) :
    addNodeChildrenToList acc (savedItem i) = acc ++ [i.reloaded] := by
  match i with
  | .string key value =>
    have hkey : key ≠ nameKey := by simpa [Item.isName] using hname
    have hsh : shown key = key := if_neg h.1.ne_nil
    rw [savedItem, if_neg hkey, hsh, addNodeChildrenToList, addNodeChildrenToList]
    by_cases hv : value = []
    · have hb : blank value = true := h.2.blank_iff.2 hv
      rw [if_pos hb, addNodeToList_section acc key [] (by simp), h.1.trimmed.trim_eq, Item.reloaded,
        if_pos ⟨hkey, hv⟩]
      rfl
    · have hb : ¬ blank value = true := fun hb => hv (h.2.blank_iff.1 hb)
      rw [if_neg hb, addNodeToList, h.1.trimmed.trim_eq, h.2.trim_eq, addValuesToList, if_neg hkey,
        Item.reloaded, if_neg fun hbo => hv hbo.2]
  | .list key items =>
    obtain ⟨hkey, hit, hta⟩ := h
    have hsh : shown key = key := if_neg hkey.ne_nil
    rw [savedItem, hsh, addNodeChildrenToList, addNodeChildrenToList,
      addNodeToList_section acc key _ (isElement_savedItems items), hkey.trimmed.trim_eq,
      load_savedItems items hit, addNodeAttributes_names hit hta]
    rfl
  | .int _ _ | .other _ => cases h

theorem load_savedItems (l : List Item) (h : WellFormedItems l) (acc : List Item) :
    addNodeChildrenToList acc (savedItems l) =
      acc ++ reloadedItems (l.filter fun i => !i.isName) := by
  match l with
  | [] => rw [savedItems, addNodeChildrenToList, filter_nil, reloadedItems, append_nil]
  | i :: rest =>
    rw [savedItems, addNodeChildrenToList_append]
    cases hname : i.isName with
    | true =>
      rw [savedItem_of_isName hname, addNodeChildrenToList, load_savedItems rest h.2,
        filter_cons_of_neg (by simp [hname])]
    | false =>
      rw [load_savedItem i h.1 hname, load_savedItems rest h.2,
        filter_cons_of_pos (by simp [hname]), reloadedItems, append_assoc]
      rfl

end

mutual

theorem reloaded_eq_iff (i : Item) : i.reloaded = i ↔ i.Filled := by
  match i with
  | .string key value =>
    rw [Item.reloaded, Item.Filled]
    by_cases hkey : key = nameKey
    · simp [hkey]
    · by_cases hv : value = [] <;> simp [hkey, hv]
  | .list key items =>
    rw [Item.reloaded, Item.Filled, ← reloadedItems_eq_iff items]
    simp
  | .int _ _ | .other _ => exact iff_of_true rfl trivial

theorem reloadedItems_eq_iff (l : List Item) : reloadedItems l = l ↔ FilledItems l := by
  match l with
  | [] => exact iff_of_true rfl trivial
  | i :: rest =>
    rw [reloadedItems, FilledItems, List.cons.injEq, reloaded_eq_iff i, reloadedItems_eq_iff rest]

end

theorem roundTrip_eq {items : List Item} (h : WellFormedItems items) : roundTrip items =
    if items.filter (fun i => !i.isName) = [] then none
    else some (reloadedItems (items.filter fun i => !i.isName)) := by
  obtain ⟨c, hco⟩ := convert_isOk items h
  obtain ⟨-, hch, hel⟩ := convert_saved items hco
  have hl := load_savedItems items h []
  have hsa : saveSection true items = .success items c.children := by rw [saveSection, hco]; rfl
  rw [roundTrip, hsa]
  change (reload c.children).bind loadFile = _
  cases hno : c.children with
  | nil =>
    rw [hno, reloadNodes] at hch
    rw [← hch, addNodeChildrenToList, nil_append, reloadedItems_eq_map] at hl
    rw [if_pos (map_eq_nil_iff.1 hl.symm)]
    rfl
  | cons x xs =>
    rw [hno] at hch hel
    have hany : (x :: xs).any Xml.isElement = true := by
      rw [any_cons, hel x mem_cons_self, Bool.true_or]
    have hf : loadFile (savedItems items) = some (addNodeChildrenToList [] (savedItems items)) := by
      have hel' := isElement_savedItems items
      match hr : savedItems items with
      | [] => rfl
      | .element _ _ _ :: _ => rfl
      | .cdata _ :: _ => rfl
      | .pcdata t :: _ =>
        rw [hr] at hel'
        cases hel' (.pcdata t) mem_cons_self
    have hne : items.filter (fun i => !i.isName) ≠ [] := by
      intro hnil
      have hna : ∀ i ∈ items, i.isName = true := by simpa [filter_eq_nil_iff] using hnil
      rw [savedItems_of_isName hna] at hch
      cases x with
      | element name attributes children => cases hch
      | pcdata t | cdata t => cases hel _ mem_cons_self
    rw [reload, if_pos hany, if_neg hne, Option.bind_some, hch, hf, hl, nil_append]

/-- **Which trees come back.** -/
theorem roundTrip_iff (t : SectionTree) :
    roundTrip t.items = some t.items ↔
      t.items ≠ [] ∧ t.items.all (fun i => !i.isName) = true ∧ FilledItems t.items := by
  rw [roundTrip_eq t.wellFormed, all_eq_true]
  constructor
  · intro h
    have hne : t.items.filter (fun i => !i.isName) ≠ [] := by
      intro hnil
      rw [if_pos hnil] at h
      cases h
    rw [if_neg hne] at h
    have hit := Option.some.inj h
    have hlen := congrArg List.length hit
    rw [reloadedItems_eq_map, length_map] at hlen
    have hall := filter_eq_self.1 (filter_sublist.eq_of_length hlen)
    rw [filter_eq_self.2 hall] at hit hne
    exact ⟨hne, hall, (reloadedItems_eq_iff _).1 hit⟩
  · rintro ⟨hne, hall, hf⟩
    rw [filter_eq_self.2 hall, if_neg hne, (reloadedItems_eq_iff _).2 hf]

/-- A section with a string without characters. -/
def emptyValue : SectionTree where
  items := [.list ['s'] [.string ['a'] []]]
  wellFormed :=
    ⟨⟨⟨by decide, by simp⟩, ⟨⟨⟨by decide, by simp⟩, by simp [Trimmed]⟩, trivial⟩, rfl⟩, trivial⟩
  nameFirst := rfl

/-- The string comes back as a section. -/
theorem emptyValue_reloaded : roundTrip emptyValue.items = some [.list ['s'] [.list ['a'] []]] := by
  rfl

end Sensys.Pugi
