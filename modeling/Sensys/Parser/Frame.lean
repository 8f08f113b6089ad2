import Sensys.Parser.RoundTrip
import Sensys.Parser.WriteSection
/-!
# What writing a section does to the rest of the file

An element outside the section that is written is kept if it is a leaf with nothing but a text, or
a section with nothing but a name and elements (`Xml.Plain`). Attributes of leaves are lost, other
attributes of sections become elements, elements `name` attributes, and texts between elements are
replaced by elements without a name.
-/
namespace Sensys.Pugi
open Orte List

mutual

/-- What pugixml loads: names have characters and no white space around them, the attributes of an
element have different names, and no text is of white space only. -/
def Xml.Loaded : Xml → Prop
  | .element name attributes children =>
    name ≠ [] ∧ trim name = name ∧ (∀ a ∈ attributes, trim a.1 = a.1) ∧
      (attributes.map Prod.fst).Nodup ∧ LoadedNodes children
  | .pcdata t => blank t = false
  | .cdata _ => True

def LoadedNodes : List Xml → Prop
  | [] => True
  | x :: rest => x.Loaded ∧ LoadedNodes rest

end

structure XmlFile where
  nodes    : List Xml
  loaded   : LoadedNodes nodes
  elements : ∀ x ∈ nodes, x.isElement = true

mutual

/-- The nodes are the same but for white space around texts. -/
def Xml.Same : Xml → Xml → Prop
  | .element name attributes children, .element name' attributes' children' =>
    name = name' ∧ attributes = attributes' ∧ SameNodes children children'
  | .pcdata t, .pcdata t' => trim t = trim t'
  | .cdata t, .cdata t' => trim t = trim t'
  | _, _ => False

def SameNodes : List Xml → List Xml → Prop
  | [], [] => True
  | x :: xs, y :: ys => x.Same y ∧ SameNodes xs ys
  | _, _ => False

end

/-- The item that is made of a node. -/
def itemOf : Xml → Item
  | .element name _ (.pcdata t :: _) => .string (trim name) (trim t)
  | .element name attributes children =>
    .list (trim name) (addNodeChildrenToList (addNodeAttributesToList [] attributes) children)
  | .pcdata _ => .list [] []
  | .cdata _ => .list [] []

/-- The section that is written is this node or inside it. -/
def holdsSection (key name : Text) (x : Xml) : Bool := (findInItem key name (itemOf x)).isSome

mutual

/-- Outside the section that is written, which is in the node, nothing is changed. -/
def Xml.Kept (key name : Text) : Xml → Xml → Prop
  | .element n attributes children, .element n' attributes' children' =>
    n = n' ∧ (itemMatchesKeyAndName key name (itemOf (.element n attributes children)) = false →
      attributes = attributes' ∧ KeptNodes key name children children')
  | _, _ => False

def KeptNodes (key name : Text) : List Xml → List Xml → Prop
  | [], [] => True
  | x :: xs, y :: ys =>
    if holdsSection key name x then x.Kept key name y ∧ SameNodes xs ys else x.Same y ∧
      KeptNodes key name xs ys
  | _, _ => False

end

/-- Outside the section with the key and the name a file is as it was. With the empty key nothing
is outside. -/
def Frame (key name : Text) (before : List Xml) : Outcome → Prop
  | .success _ doc => key = [] ∨ KeptNodes key name before (reloadNodes doc)
  | .failed _ _ => True
  | .undefined => False

/-! ## What is kept -/

/-- At most a name, without white space around it. -/
def PlainAttributes (attributes : List (Text × Text)) : Prop :=
  attributes = [] ∨ ∃ value, attributes = [(nameKey, value)] ∧ trim value = value

mutual

def Xml.Plain : Xml → Prop
  | .element name attributes (.pcdata t :: rest) =>
    name ≠ nameKey ∧ attributes = [] ∧ rest = [] ∧ blank (trim t) = false
  | .element _ attributes children => PlainAttributes attributes ∧ PlainNodes children
  | .pcdata _ => False
  | .cdata _ => False

def PlainNodes : List Xml → Prop
  | [] => True
  | x :: xs => x.Plain ∧ PlainNodes xs

end

mutual

/-- The node is plain outside the section that is written. -/
def Xml.PlainAround (key name : Text) : Xml → Prop
  | .element n attributes children =>
    itemMatchesKeyAndName key name (itemOf (.element n attributes children)) = false →
      PlainAttributes attributes ∧ PlainAroundNodes key name children
  | _ => False

def PlainAroundNodes (key name : Text) : List Xml → Prop
  | [] => True
  | x :: xs =>
    if holdsSection key name x then x.PlainAround key name ∧ PlainNodes xs else x.Plain ∧
    PlainAroundNodes key name xs

end

/-! ## The lists of a file -/

variable (l : List Item)

theorem addNodeToList_eq (x : Xml) :
    addNodeToList l x = if (itemOf x).isName then itemOf x :: l else l ++ [itemOf x] := by
  match x with
  | .element name attributes [] => rfl
  | .element name attributes (.element _ _ _ :: _) => rfl
  | .element name attributes (.cdata _ :: _) => rfl
  | .element name attributes (.pcdata t :: _) =>
    rw [addNodeToList, addValuesToList, itemOf, Item.isName]
    simp
  | .pcdata _ => rfl
  | .cdata _ => rfl

/-- The items of nodes that are no names, in their order. -/
def plainItems (xs : List Xml) : List Item := (xs.map itemOf).filter fun i => !i.isName

theorem addNodeChildrenToList_eq (xs : List Xml) :
    addNodeChildrenToList l xs = ((xs.map itemOf).filter Item.isName).reverse ++ l ++
      plainItems xs := by
  induction xs generalizing l with
  | nil => simp [addNodeChildrenToList, plainItems]
  | cons x xs ih =>
    rw [addNodeChildrenToList, ih, addNodeToList_eq]
    cases hname : (itemOf x).isName <;> simp [plainItems, hname]

def attributeItem (a : Text × Text) : Item := .string (trim a.1) (trim a.2)

theorem addNodeAttributesToList_eq (attributes : List (Text × Text)) :
    addNodeAttributesToList l attributes =
      ((attributes.map attributeItem).filter Item.isName).reverse ++ l ++
      (attributes.map attributeItem).filter fun i => !i.isName := by
  induction attributes generalizing l with
  | nil => simp [addNodeAttributesToList]
  | cons a attributes ih =>
    have hco : addNodeAttributesToList l (a :: attributes) =
      addNodeAttributesToList (addValuesToList l (trim a.1) (trim a.2)) attributes := rfl
    rw [hco, ih, addValuesToList]
    by_cases hkey : trim a.1 = nameKey <;> simp [hkey, attributeItem, Item.isName]

/-- The strings in front of the items of a section: its names, and its other attributes. -/
def sectionStrings (attributes : List (Text × Text)) (children : List Xml) : List Item :=
  ((children.map itemOf).filter Item.isName).reverse ++
    (((attributes.map attributeItem).filter Item.isName).reverse ++
    (attributes.map attributeItem).filter fun i => !i.isName)

theorem sectionItems_eq (attributes : List (Text × Text)) (children : List Xml) :
    addNodeChildrenToList (addNodeAttributesToList [] attributes) children =
      sectionStrings attributes children ++ plainItems children := by
  rw [addNodeChildrenToList_eq, addNodeAttributesToList_eq, append_nil, sectionStrings]

variable {attributes : List (Text × Text)} {children xs : List Xml} {x : Xml} {l : List Item}
  {i : Item} (name : Text)

theorem isString_sectionStrings (h : i ∈ sectionStrings attributes children) :
    ∃ key value, i = .string key value := by
  rw [sectionStrings, ← append_assoc, ← reverse_append, ← filter_append, mem_append,
    mem_reverse] at h
  rcases h with h | h
  · obtain ⟨value, rfl⟩ := exists_of_isName (mem_filter.1 h).2
    exact ⟨_, _, rfl⟩
  · obtain ⟨a, -, rfl⟩ := mem_map.1 (mem_filter.1 h).1
    exact ⟨_, _, rfl⟩

/-- No node is loaded as a name. -/
def NoNames (xs : List Xml) : Prop := ∀ x ∈ xs, (itemOf x).isName = false

theorem nameAttributes_names (h : ∀ i ∈ l, i.isName = true) :
    (nameAttributes l).length = l.length ∧ ∀ a ∈ nameAttributes l, a.1 = nameKey := by
  induction l with
  | nil => simp [nameAttributes]
  | cons i l ih =>
    obtain ⟨value, rfl⟩ := exists_of_isName (h i mem_cons_self)
    obtain ⟨hlen, hk⟩ := ih (forall_mem_cons.1 h).2
    have hco : nameAttributes (.string nameKey value :: l) = (nameKey, value) :: nameAttributes l :=
      by simp [nameAttributes]
    rw [hco]
    exact ⟨by rw [length_cons, length_cons, hlen], forall_mem_cons.2 ⟨rfl, hk⟩⟩

/-- The attributes of a section that is saved are those it had if it had no others than a name. -/
theorem attributes_kept_iff (htri : ∀ a ∈ attributes, trim a.1 = a.1)
    (hnod : (attributes.map Prod.fst).Nodup) :
    attributes = nameAttributes (sectionStrings attributes children) ↔
      PlainAttributes attributes ∧ NoNames children := by
  obtain ⟨names, hna⟩ : ∃ l, l = ((children.map itemOf).filter Item.isName).reverse := ⟨_, rfl⟩
  obtain ⟨own, hown⟩ : ∃ l, l = ((attributes.map attributeItem).filter Item.isName).reverse :=
    ⟨_, rfl⟩
  have his : ∀ i ∈ names, i.isName = true := by simp [hna]
  have his' : ∀ i ∈ own, i.isName = true := by simp [hown]
  have hre : nameAttributes ((attributes.map attributeItem).filter fun i => !i.isName) = [] :=
    nameAttributes_eq_nil fun i hi => by simpa using (mem_filter.1 hi).2
  have hall : nameAttributes (sectionStrings attributes children) =
      nameAttributes names ++ nameAttributes own := by
    rw [sectionStrings, nameAttributes_append, nameAttributes_append, hre, append_nil,
      ← hna, ← hown]
  have hno : names = [] ↔ NoNames children := by
    rw [hna, reverse_eq_nil_iff, filter_eq_nil_iff, NoNames]
    simp
  obtain ⟨hlen, hk⟩ := nameAttributes_names his
  rw [hall, ← hno]
  constructor
  · intro heq
    have hkey : ∀ a ∈ attributes, a.1 = nameKey := by
      intro a ha
      rw [heq] at ha
      rcases mem_append.1 ha with ha | ha
      · exact hk a ha
      · exact (nameAttributes_names his').2 a ha
    -- two attributes of one name are excluded
    match attributes with
    | [] =>
      have hnil := append_eq_nil_iff.1 heq.symm
      rw [hnil.1] at hlen
      exact ⟨Or.inl rfl, length_eq_zero_iff.1 hlen.symm⟩
    | [(k, value)] =>
      obtain rfl : k = nameKey := hkey (k, value) mem_cons_self
      have htr : trim nameKey = nameKey := htri (nameKey, value) mem_cons_self
      have hown' : own = [.string nameKey (trim value)] := by
        rw [hown]
        simp [attributeItem, htr, Item.isName]
      rw [hown'] at heq
      have hnil : nameAttributes names = [] := by
        have := congrArg length heq
        simpa [nameAttributes] using this
      rw [hnil] at hlen heq
      refine ⟨Or.inr ⟨value, rfl, ?_⟩, length_eq_zero_iff.1 hlen.symm⟩
      simpa [nameAttributes] using heq.symm
    | a :: b :: _ =>
      have ha := hkey a mem_cons_self
      have hb := hkey b (mem_cons_of_mem _ mem_cons_self)
      simp [ha, hb] at hnod
  · rintro ⟨hpl, hnil⟩
    rw [hnil]
    rcases hpl with rfl | ⟨value, rfl, hv⟩
    · rw [hown]
      rfl
    · have htr : trim nameKey = nameKey := htri (nameKey, value) mem_cons_self
      rw [hown]
      simp [attributeItem, htr, hv, Item.isName, nameAttributes]

theorem savedItems_sectionStrings (h : PlainAttributes attributes) :
    savedItems (sectionStrings attributes children) = [] := by
  have hre : (attributes.map attributeItem).filter (fun i => !i.isName) = [] := by
    rcases h with rfl | ⟨value, rfl, -⟩
    · rfl
    · have htr : trim nameKey = nameKey := by decide
      simp [attributeItem, htr, Item.isName]
  apply savedItems_of_isName
  intro i hi
  rw [sectionStrings, hre, append_nil, mem_append, mem_reverse, mem_reverse] at hi
  rcases hi with hi | hi <;> exact (mem_filter.1 hi).2

/-! ## Nodes without the section -/

theorem SameNodes.length_eq : ∀ {xs ys : List Xml}, SameNodes xs ys → xs.length = ys.length
  | [], [], _ => rfl
  | [], _ :: _, h | _ :: _, [], h => h.elim
  | _ :: _, _ :: _, h => congrArg (· + 1) h.2.length_eq

theorem KeptNodes.length_eq {key name : Text} :
    ∀ {xs ys : List Xml}, KeptNodes key name xs ys → xs.length = ys.length
  | [], [], _ => rfl
  | [], _ :: _, h | _ :: _, [], h => h.elim
  | _ :: _, _ :: _, h => by
    rw [KeptNodes] at h
    split at h <;> exact congrArg (· + 1) h.2.length_eq

theorem length_plainItems_le (xs : List Xml) : (plainItems xs).length ≤ xs.length := by
  refine Nat.le_trans (length_filter_le _ _) ?_
  rw [length_map]

theorem plainItems_cons_name (xs : List Xml) (h : (itemOf x).isName = true) :
    plainItems (x :: xs) = plainItems xs := by
  simp [plainItems, h]

theorem plainItems_cons (xs : List Xml) (h : (itemOf x).isName = false) :
    plainItems (x :: xs) = itemOf x :: plainItems xs := by
  simp [plainItems, h]

theorem length_savedItems (h : ∀ i ∈ l, (savedItem i).length = 1) :
    (savedItems l).length = l.length := by
  rw [savedItems_eq, length_flatMap, map_congr_left h]
  simp

/-- The node is no leaf. -/
def NotLeaf (children : List Xml) : Prop := ∀ t rest, children ≠ .pcdata t :: rest

theorem itemOf_section (attributes : List (Text × Text)) (h : NotLeaf children) :
    itemOf (.element name attributes children) =
      .list (trim name) (sectionStrings attributes children ++ plainItems children) := by
  rw [← sectionItems_eq]
  match children with
  | [] => rfl
  | .element _ _ _ :: _ => rfl
  | .cdata _ :: _ => rfl
  | .pcdata t :: rest => exact absurd rfl (h t rest)

theorem plain_section_iff (attributes : List (Text × Text)) (h : NotLeaf children) :
    (Xml.element name attributes children).Plain ↔
      PlainAttributes attributes ∧ PlainNodes children := by
  match children with
  | [] => rfl
  | .element _ _ _ :: _ => rfl
  | .cdata _ :: _ => rfl
  | .pcdata t :: rest => exact absurd rfl (h t rest)

theorem leaf_or_section (children : List Xml) :
    (∃ t rest, children = .pcdata t :: rest) ∨ NotLeaf children := by
  by_cases h : ∃ t rest, children = .pcdata t :: rest
  · exact Or.inl h
  · exact Or.inr fun t rest heq => h ⟨t, rest, heq⟩

theorem itemOf_cases (x : Xml) :
    (∃ key value, itemOf x = .string key value) ∨ ∃ key items, itemOf x = .list key items := by
  match x with
  | .element name attributes children =>
    rcases leaf_or_section children with ⟨t, rest, rfl⟩ | h
    · exact Or.inl ⟨_, _, rfl⟩
    · exact Or.inr ⟨_, _, itemOf_section name attributes h⟩
  | .pcdata _ | .cdata _ => exact Or.inr ⟨_, _, rfl⟩

theorem length_savedItem_itemOf (h : (itemOf x).isName = false) :
    (savedItem (itemOf x)).length = 1 := by
  rcases itemOf_cases x with ⟨key, value, hx⟩ | ⟨key, items, hx⟩
  · rw [hx] at h ⊢
    have hkey : key ≠ nameKey := by simpa [Item.isName] using h
    rw [savedItem, if_neg hkey]
    rfl
  · rw [hx]
    rfl

theorem isName_plainItems (h : i ∈ plainItems xs) : i.isName = false := by
  simpa using (mem_filter.1 h).2

theorem length_savedItem_plainItems (h : i ∈ plainItems xs) : (savedItem i).length = 1 := by
  obtain ⟨x, -, rfl⟩ := mem_map.1 (mem_filter.1 h).1
  exact length_savedItem_itemOf (isName_plainItems h)

theorem nameAttributes_section (attributes : List (Text × Text)) (children : List Xml)
    (hl : ∀ i ∈ l, i.isName = false) :
    nameAttributes (sectionStrings attributes children ++ l) =
      nameAttributes (sectionStrings attributes children) := by
  rw [nameAttributes_append, nameAttributes_eq_nil hl, append_nil]

/-- A section is kept if its attributes are and its nodes are, for any way in which nodes may be
kept. -/
theorem section_kept_iff {saved : List Xml} {K : List Xml → Prop} {Q : Prop}
    (htr : ∀ a ∈ attributes, trim a.1 = a.1) (hno : (attributes.map Prod.fst).Nodup)
    (hQ : Q → NoNames children) (hK : K saved ↔ Q) :
    (attributes = nameAttributes (sectionStrings attributes children) ∧
      K (savedItems (sectionStrings attributes children) ++ saved)) ↔
      PlainAttributes attributes ∧ Q := by
  rw [attributes_kept_iff htr hno]
  constructor
  · rintro ⟨⟨hpl, -⟩, hk⟩
    rw [savedItems_sectionStrings hpl, nil_append, hK] at hk
    exact ⟨hpl, hk⟩
  · rintro ⟨hpl, hq⟩
    rw [savedItems_sectionStrings hpl, nil_append, hK]
    exact ⟨⟨hpl, hQ hq⟩, hq⟩

theorem Xml.Plain.isName_eq_false (h : x.Plain) (hloa : x.Loaded) : (itemOf x).isName = false := by
  match x with
  | .element name attributes children =>
    rcases leaf_or_section children with ⟨t, rest, rfl⟩ | hse
    · have hname : trim name ≠ nameKey := by
        rw [hloa.2.1]
        exact h.1
      simpa [itemOf, Item.isName] using hname
    · rw [itemOf_section name attributes hse]
      rfl
  | .pcdata _ => rfl
  | .cdata _ => rfl

theorem PlainNodes.noNames (h : PlainNodes xs) (hloa : LoadedNodes xs) : NoNames xs := by
  induction xs with
  | nil => exact fun x hx => by cases hx
  | cons x xs ih => exact forall_mem_cons.2 ⟨h.1.isName_eq_false hloa.1, ih h.2 hloa.2⟩

theorem not_sameNodes_of_name (xs : List Xml) (h : (itemOf x).isName = true) :
    ¬ SameNodes (x :: xs) (savedItems (plainItems (x :: xs))) := by
  intro hsa
  have hlen := hsa.length_eq
  rw [plainItems_cons_name xs h, length_savedItems fun i => length_savedItem_plainItems,
    length_cons] at hlen
  have hle := length_plainItems_le xs
  omega

theorem isspace_head_ltrim {t : Text} {c : Char} (h : c ∈ (ltrim t).head?) : isspace c = false := by
  have hh := head?_dropWhile_not isspace t
  rw [← ltrim, Option.mem_def.1 h] at hh
  exact hh

theorem trim_trim (t : Text) : trim (trim t) = trim t := by
  refine Trimmed.trim_eq ⟨fun c hc => isspace_head_ltrim hc, fun c hc => ?_⟩
  obtain ⟨front, hf⟩ : ltrim (rtrim t) <:+ rtrim t := dropWhile_suffix _
  have hlast : (rtrim t).getLast? = some c := by
    rw [trim] at hc
    rw [← hf, getLast?_append, Option.mem_def.1 hc, Option.some_or]
  rw [rtrim, getLast?_reverse] at hlast
  exact isspace_head_ltrim hlast

mutual

theorem same_iff (x : Xml) (h : x.Loaded) (hname : (itemOf x).isName = false) :
    ∃ y, savedItem (itemOf x) = [y] ∧ (x.Same y ↔ x.Plain) := by
  match x with
  | .element name attributes children =>
    obtain ⟨hne, hname', htr, hno, hch⟩ := h
    rcases leaf_or_section children with ⟨t, rest, rfl⟩ | hse
    · have hkey : name ≠ nameKey := by simpa [itemOf, Item.isName, hname'] using hname
      refine ⟨.element name [] (if blank (trim t) then [] else [.pcdata (trim t)]), ?_, ?_⟩
      · rw [itemOf, savedItem, hname', if_neg hkey, shown, if_neg hne]
      · rw [Xml.Same, Xml.Plain]
        cases hb : blank (trim t) with
        | true => simp [SameNodes]
        | false =>
          cases rest with
          | nil => simp [SameNodes, Xml.Same, trim_trim, hkey]
          | cons y rest => simp [SameNodes]
    · refine ⟨.element name
        (nameAttributes (sectionStrings attributes children ++ plainItems children))
        (savedItems (sectionStrings attributes children ++ plainItems children)), ?_, ?_⟩
      · rw [itemOf_section name attributes hse, savedItem, hname', shown, if_neg hne]
      · rw [Xml.Same, plain_section_iff name attributes hse,
          nameAttributes_section attributes children fun i => isName_plainItems, savedItems_append]
        rw [← section_kept_iff (K := SameNodes children) htr hno (fun hpl => hpl.noNames hch)
          (sameNodes_iff children hch)]
        simp
  | .pcdata t | .cdata t => exact ⟨_, rfl, iff_of_false id id⟩

theorem sameNodes_iff (xs : List Xml) (h : LoadedNodes xs) :
    SameNodes xs (savedItems (plainItems xs)) ↔ PlainNodes xs := by
  match xs with
  | [] => exact iff_of_true trivial trivial
  | x :: rest =>
    cases hname : (itemOf x).isName with
    | true =>
      refine iff_of_false (not_sameNodes_of_name rest hname) fun hpl => ?_
      rw [hpl.1.isName_eq_false h.1] at hname
      cases hname
    | false =>
      obtain ⟨y, hy, hsa⟩ := same_iff x h.1 hname
      rw [plainItems_cons rest hname, savedItems, hy, singleton_append, SameNodes, hsa,
        sameNodes_iff rest h.2]
      rfl

end

/-! ## Nodes with the section -/

section
variable {write : List Item → List Item} {key name : Text}

theorem writeToTree_strings {l m : List Item} (h : ∀ i ∈ l, ∃ k v, i = .string k v) :
    writeToTree write key name (l ++ m) = (writeToTree write key name m).map (l ++ ·) ∧
      findSection key name (l ++ m) = findSection key name m := by
  induction l with
  | nil => simp
  | cons i l ih =>
    obtain ⟨k, v, rfl⟩ := h i mem_cons_self
    obtain ⟨hwr, hf⟩ := ih (forall_mem_cons.1 h).2
    refine ⟨?_, ?_⟩
    · change (writeToTree write key name (l ++ m)).map (Item.string k v :: ·) = _
      rw [hwr, Option.map_map]
      rfl
    · exact hf

theorem writeToItem_isList {i i' : Item} (h : writeToItem write key name i = some i') :
    ∃ k items, i' = .list k items := by
  cases i with
  | list k items =>
    rw [writeToItem] at h
    split at h
    · exact ⟨_, _, (Option.some.inj h).symm⟩
    · obtain ⟨items', -, rfl⟩ := Option.map_eq_some_iff.1 h
      exact ⟨_, _, rfl⟩
  | _ => cases h

/-- An item is replaced by a list, and the others are there as before. -/
theorem writeToTree_forall {P : Item → Prop} (hP : ∀ k items, P (.list k items)) {l l' : List Item}
    (h : writeToTree write key name l = some l') (hl : ∀ i ∈ l, P i) :
    (∀ i ∈ l', P i) ∧ l'.length = l.length := by
  induction l generalizing l' with
  | nil => cases h
  | cons i l ih =>
    obtain ⟨hi, hre⟩ := forall_mem_cons.1 hl
    rw [writeToTree] at h
    cases hit : writeToItem write key name i with
    | some i' =>
      rw [hit] at h
      cases h
      obtain ⟨k, items, rfl⟩ := writeToItem_isList hit
      exact ⟨forall_mem_cons.2 ⟨hP k items, hre⟩, rfl⟩
    | none =>
      rw [hit] at h
      obtain ⟨m, hm, rfl⟩ := Option.map_eq_some_iff.1 h
      obtain ⟨hall, hlen⟩ := ih hm hre
      exact ⟨forall_mem_cons.2 ⟨hi, hall⟩, by rw [length_cons, length_cons, hlen]⟩

theorem writeToItem_saved {x : Xml} (h : holdsSection key name x = true) :
    ∃ i y, writeToItem write key name (itemOf x) = some i ∧ savedItem i = [y] := by
  rcases writeToItem_cases write key name (itemOf x) with ⟨hno, -⟩ | ⟨old, i, -, hwr, -⟩
  · rw [holdsSection, hno] at h
    cases h
  · obtain ⟨k, items, rfl⟩ := writeToItem_isList hwr
    exact ⟨_, _, hwr, rfl⟩

theorem isName_of_holdsSection {x : Xml} (h : holdsSection key name x = true) :
    (itemOf x).isName = false := by
  rcases itemOf_cases x with ⟨k, value, hx⟩ | ⟨k, items, hx⟩
  · rw [holdsSection, hx] at h
    cases h
  · rw [hx]
    rfl

theorem PlainAroundNodes.noNames {xs : List Xml} (h : PlainAroundNodes key name xs)
    (hloa : LoadedNodes xs) : NoNames xs := by
  induction xs with
  | nil => exact fun x hx => by cases hx
  | cons x xs ih =>
    rw [PlainAroundNodes] at h
    split at h
    · rename_i hh
      exact forall_mem_cons.2 ⟨isName_of_holdsSection hh, h.2.noNames hloa.2⟩
    · exact forall_mem_cons.2 ⟨h.1.isName_eq_false hloa.1, ih h.2 hloa.2⟩

variable (write) (key name)

mutual

theorem kept_iff (x : Xml) (h : x.Loaded) (hh : holdsSection key name x = true) :
    ∃ i y, writeToItem write key name (itemOf x) = some i ∧ savedItem i = [y] ∧
      (x.Kept key name y ↔ x.PlainAround key name) := by
  match x with
  | .element n attributes children =>
    obtain ⟨hne, hn, htr, hnod, hch⟩ := h
    have hsh : shown n = n := if_neg hne
    rcases leaf_or_section children with ⟨t, rest, rfl⟩ | hse
    · cases hh
    · have hit := itemOf_section n attributes hse
      rw [hn] at hit
      cases hm : itemMatchesKeyAndName key name (itemOf (.element n attributes children)) with
      | true =>
        rw [hit] at hm
        refine ⟨.list n (write (sectionStrings attributes children ++ plainItems children)),
          _, ?_, rfl, ?_⟩
        · rw [hit, writeToItem, if_pos hm]
        · rw [Xml.Kept, Xml.PlainAround, hit, hm, hsh]
          simp
      | false =>
        have hst : ∀ i ∈ sectionStrings attributes children, ∃ k v, i = .string k v :=
          fun i hi => isString_sectionStrings hi
        rw [holdsSection, hit, findInItem, if_neg (by rw [← hit, hm]; simp),
          (@writeToTree_strings write _ _ _ _ hst).2] at hh
        obtain ⟨l, hwr, hk⟩ := keptNodes_iff children hch hh
        have hno :=
          (writeToTree_forall (P := fun i => i.isName = false) (fun _ _ => rfl) hwr fun i =>
          isName_plainItems).1
        refine ⟨.list n (sectionStrings attributes children ++ l), _, ?_, rfl, ?_⟩
        · rw [hit, writeToItem, if_neg (by rw [← hit, hm]; simp), (writeToTree_strings hst).1, hwr]
          rfl
        · rw [Xml.Kept, Xml.PlainAround, hm, hsh, nameAttributes_section attributes children hno,
            savedItems_append,
            ← section_kept_iff (K := KeptNodes key name children) htr hnod
            (fun hpl => hpl.noNames hch) hk]
          simp
  | .pcdata t | .cdata t =>
    obtain ⟨i, y, hwr, hy⟩ := @writeToItem_saved write _ _ _ hh
    exact ⟨i, y, hwr, hy, iff_of_false id id⟩

theorem keptNodes_iff (xs : List Xml) (h : LoadedNodes xs)
    (hf : (findSection key name (plainItems xs)).isSome = true) :
    ∃ l, writeToTree write key name (plainItems xs) = some l ∧
      (KeptNodes key name xs (savedItems l) ↔ PlainAroundNodes key name xs) := by
  match xs with
  | [] => cases hf
  | x :: rest =>
    cases hname : (itemOf x).isName with
    | true =>
      rw [plainItems_cons_name rest hname] at hf ⊢
      obtain ⟨l, hwr, -⟩ := keptNodes_iff rest h.2 hf
      refine ⟨l, hwr, iff_of_false (fun hk => ?_) fun hpl => ?_⟩
      · -- the name is no element any more
        obtain ⟨hall, hlen⟩ :=
          writeToTree_forall (P := fun i => (savedItem i).length = 1) (fun _ _ => rfl) hwr
          fun i => length_savedItem_plainItems
        have hle := length_plainItems_le rest
        have heq := hk.length_eq
        rw [length_savedItems hall, hlen, length_cons] at heq
        omega
      · have hno := hpl.noNames h x mem_cons_self
        rw [hname] at hno
        cases hno
    | false =>
      rw [plainItems_cons rest hname] at hf ⊢
      cases hh : holdsSection key name x with
      | true =>
        obtain ⟨i, y, hwr, hy, hk⟩ := kept_iff x h.1 hh
        refine ⟨i :: plainItems rest, ?_, ?_⟩
        · rw [writeToTree, hwr]
        · rw [savedItems, hy, singleton_append, KeptNodes, PlainAroundNodes, if_pos hh,
            if_pos hh, hk, sameNodes_iff rest h.2]
      | false =>
        have hnon : findInItem key name (itemOf x) = none := by simpa [holdsSection] using hh
        have hwr : writeToItem write key name (itemOf x) = none := by
          rcases writeToItem_cases write key name (itemOf x) with ⟨-, hwr⟩ | ⟨old, i, hso, -⟩
          · exact hwr
          · rw [hnon] at hso
            cases hso
        rw [findSection, hnon, Option.none_or] at hf
        obtain ⟨l, hl, hk⟩ := keptNodes_iff rest h.2 hf
        obtain ⟨y, hy, hsa⟩ := same_iff x h.1 hname
        refine ⟨itemOf x :: l, ?_, ?_⟩
        · rw [writeToTree, hwr, hl]
          rfl
        · rw [savedItems, hy, singleton_append, KeptNodes, PlainAroundNodes, if_neg (by simp [hh]),
            if_neg (by simp [hh]), hsa, hk]

end

end

def XmlFile.root (file : XmlFile) : List Item := (loadFile file.nodes).getD []

theorem XmlFile.root_eq (file : XmlFile) :
    file.root = sectionStrings [] file.nodes ++ plainItems file.nodes := by
  have hl : loadFile file.nodes = some (addNodeChildrenToList [] file.nodes) := by
    have hel := file.elements
    match hno : file.nodes with
    | [] => rfl
    | .element _ _ _ :: _ => rfl
    | .cdata _ :: _ => rfl
    | .pcdata t :: _ =>
      rw [hno] at hel
      cases hel (.pcdata t) mem_cons_self
  rw [XmlFile.root, hl, Option.getD_some, ← sectionItems_eq]
  rfl

/-- **When the rest of the file is kept.** -/
theorem writeSection_frame_iff (saved : Bool) (file : XmlFile) (input : List Item) (key name : Text)
    (overwrite : Bool) :
    Frame key name file.nodes (writeSection saved file.root input key name overwrite) ↔
      (∃ rc root, writeSection saved file.root input key name overwrite = .failed rc root) ∨
      (key = [] ∧ overwrite = false) ∨
        (key ≠ [] ∧ PlainAroundNodes key name file.nodes) := by
  rw [writeSection]
  by_cases hkey : key = []
  · rw [if_pos hkey]
    cases overwrite with
    | true => simp [Frame, hkey]
    | false =>
      rcases saveSection_cases saved (file.root ++ input) with ⟨rc, hr⟩ | ⟨c, hr, -⟩
      · simp [hr, Frame]
      · simp [hr, Frame, hkey]
  · rw [if_neg hkey]
    have hst : ∀ i ∈ sectionStrings [] file.nodes, ∃ k v, i = .string k v :=
      fun i hi => isString_sectionStrings hi
    rcases writeToTree_cases (appendToList input overwrite) key name file.root with ⟨-, hwr⟩ |
      ⟨old, root, hf, hwr, -, -⟩
    · simp [hwr, Frame]
    · rw [hwr]
      rcases saveSection_cases saved root with ⟨rc, hr⟩ | ⟨c, hr, hc⟩
      · simp [hr, Frame]
      · rw [file.root_eq, (@writeToTree_strings (appendToList input overwrite) _ _ _ _ hst).2] at hf
        obtain ⟨l, hl, hk⟩ :=
          keptNodes_iff (appendToList input overwrite) key name file.nodes file.loaded
          (by rw [hf]; rfl)
        have hro : root = sectionStrings [] file.nodes ++ l := by
          rw [file.root_eq, (writeToTree_strings hst).1, hl] at hwr
          exact (Option.some.inj hwr).symm
        have hsa : reloadNodes c.children = savedItems l := by
          rw [(convert_saved root hc).2.1, hro, savedItems_append,
            savedItems_sectionStrings (Or.inl rfl), nil_append]
        simp [hr, Frame, hkey, hsa, hk]

/-- `<s><a x="1">t</a><w></w></s>`. -/
def attributeFile : XmlFile where
  nodes :=
    [.element ['s'] [] [.element ['a'] [(['x'], ['1'])] [.pcdata ['t']], .element ['w'] [] []]]
  loaded := by simp [LoadedNodes, Xml.Loaded, trim, ltrim, rtrim, blank, isspace]
  elements := by simp [Xml.isElement]

theorem attribute_lost :
    writeSection true attributeFile.root [.string ['b'] ['y']] ['w'] [] false =
        .success [.list ['s'] [.string ['a'] ['t'], .list ['w'] [.string ['b'] ['y']]]]
          [.element ['s'] [] [.element ['a'] [] [.pcdata ['t']],
            .element ['w'] [] [.element ['b'] [] [.pcdata ['y']]]]] ∧
      ¬ Frame ['w'] [] attributeFile.nodes
      (writeSection true attributeFile.root [.string ['b'] ['y']] ['w'] [] false) := by
  refine ⟨rfl, ?_⟩
  rintro (hkey | hk)
  · cases hkey
  · cases hk.1.2 rfl |>.2.1.2.1

end Sensys.Pugi
