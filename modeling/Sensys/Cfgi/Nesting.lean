import Sensys.Cfgi.SectionRows
/-!
# Nested sections and their rows

A file is a section: its tag, what stands in it (`Body`), and its closing tag. `readSections` has
to succeed on the items of such files only, with the rows of the tree, and to fail on all others
(`Faithful`).

It does with every file (`readSections_items`), but it also succeeds where the tags have the right
numbers and are not nested: closing tags are counted and never compared with what they close
(`readSections_faithful_iff`).
-/
namespace Sensys.Cfgi
open Lockstep List

/-- What stands between the tags of a section. -/
inductive Body where
  | nil
  | field (name value close : List Char) (rest : Body)
  | sub (name : List Char) (body : Body) (close : List Char) (rest : Body)

/-- The tags are what they should be, and closing tags name what they close. -/
def Body.Valid : Body → Prop
  | .nil => True
  | .field name _ close rest =>
    kind name = .opening name ∧ isSectionalItem name = false ∧
      strcaseeq close name = true ∧ rest.Valid
  | .sub name body close rest =>
    isSectionalItem name = true ∧ strcaseeq close name = true ∧ body.Valid ∧ rest.Valid

def Body.items : Body → List (List Char)
  | .nil => []
  | .field name value close rest => name :: ('\t' :: value) :: ('/' :: close) :: rest.items
  | .sub name body close rest => name :: (body.items ++ ('/' :: close) :: rest.items)

/-- The number of sections. -/
def Body.count : Body → Nat
  | .nil => 0
  | .field _ _ _ rest => rest.count
  | .sub _ body _ rest => body.count + 1 + rest.count

/-- Where the fields start that are not in a section inside; the body starts at `pos`. -/
def Body.fieldStarts : Nat → Body → List Nat
  | _, .nil => []
  | pos, .field _ _ _ rest => pos :: rest.fieldStarts (pos + 3)
  | pos, .sub _ body _ rest => rest.fieldStarts (pos + body.items.length + 2)

/-- The numbers of the sections that are not in a section inside; the first has the number `row`. -/
def Body.childRows : Nat → Body → List Nat
  | _, .nil => []
  | row, .field _ _ _ rest => rest.childRows row
  | row, .sub _ body _ rest => row :: rest.childRows (row + body.count + 1)

/-- The rows of the sections. -/
def Body.rows : Nat → Nat → Body → List Row
  | _, _, .nil => []
  | pos, row, .field _ _ _ rest => rest.rows (pos + 3) row
  | pos, row, .sub _ body _ rest =>
    ⟨pos, body.fieldStarts (pos + 1), body.childRows (row + 1), true⟩ ::
      body.rows (pos + 1) (row + 1) ++
      rest.rows (pos + body.items.length + 2) (row + body.count + 1)

/-- A file is one section. -/
structure File where
  name   : List Char
  body   : Body
  close  : List Char
  opens  : isSectionalItem name = true
  closes : strcaseeq close name = true
  valid  : body.Valid

def File.items (f : File) : List (List Char) := f.name :: (f.body.items ++ ['/' :: f.close])

def File.rows (f : File) : List Row :=
  ⟨0, f.body.fieldStarts 1, f.body.childRows 1, true⟩ :: f.body.rows 1 1

/-- The rows of the file, if the items are one, and a failure if they are not. -/
def Faithful (items : List (List Char)) : Prop :=
  match readSections items with
  | .ok rows => ∃ f : File, f.items = items ∧ rows = f.rows.map Row.entries
  | .error .badParam => ¬ ∃ f : File, f.items = items
  | .error .outside => False

theorem strcaseeq_iff {a b : List Char} :
    strcaseeq a b = true ↔ a.map Char.toLower = b.map Char.toLower := by
  simp [strcaseeq]

theorem isSectionalItem_congr {a b : List Char} (h : strcaseeq a b = true) :
    isSectionalItem a = isSectionalItem b := by
  unfold isSectionalItem strcaseeq
  rw [strcaseeq_iff.1 h]

@[simp]
theorem kind_data (value : List Char) : kind ('\t' :: value) = .data := rfl

@[simp]
theorem kind_closing (name : List Char) : kind ('/' :: name) = .closing name := rfl

/-- The names of sections start with letters. -/
theorem kind_of_isSectionalItem {name : List Char} (h : isSectionalItem name = true) :
    kind name = .opening name := by
  unfold kind
  split
  · exact absurd h (by simp [isSectionalItem, sectionNames, strcaseeq])
  · exact absurd h (by simp [isSectionalItem, sectionNames, strcaseeq])
  · rfl

section
variable {rows : List Row} {name close value : List Char} {i x : Nat}

theorem turn_begin (h : isSectionalItem name = true) :
    turn rows (name, i) =
      .ok (rows.modify ((openRow rows).getD 0) (Row.add [] [rows.length]) ++ [Row.new i]) := by
  simp [turn, kind_of_isSectionalItem h, h]

theorem turn_end (h : isSectionalItem close = true) (hopen : openRow rows = some x) :
    turn rows ('/' :: close, i) = .ok (rows.modify x Row.close) := by
  simp [turn, h, innermost, hopen, Except.map]

theorem turn_field (h : kind name = .opening name) (hname : isSectionalItem name = false)
    (hopen : openRow rows = some x) :
    turn rows (name, i) = .ok (rows.modify x (Row.add [i] [])) := by
  have hnil : rows ≠ [] := ne_nil_of_length_pos (Nat.zero_lt_of_lt (openRow_lt hopen))
  simp [turn, h, hname, hnil, innermost, hopen, Except.map]

theorem turn_data : turn rows ('\t' :: value, i) = .ok rows := rfl

theorem turn_fieldEnd (h : isSectionalItem close = false) :
    turn rows ('/' :: close, i) = .ok rows := by
  simp [turn, h]

end

/-! ## The rows of a file -/

variable (b : Body) (f : File) {rows : List Row} (pos row : Nat)

theorem Body.rows_closed : ∀ r ∈ b.rows pos row, r.closed = true := by
  induction b generalizing pos row with
  | nil => simp [Body.rows]
  | field name value close rest ih => exact ih _ _
  | sub name body close rest ihb ihr =>
    exact forall_mem_append.2 ⟨forall_mem_cons.2 ⟨rfl, ihb _ _⟩, ihr _ _⟩

theorem Body.length_rows : (b.rows pos row).length = b.count := by
  induction b generalizing pos row with
  | nil => rfl
  | field name value close rest ih => exact ih _ _
  | sub name body close rest ihb ihr =>
    simp [Body.rows, Body.count, ihb, ihr]
    omega

theorem foldlM_cons_of_ok {c : List Char × Nat} {rest : List (List Char × Nat)}
    {rows rows' : List Row} (h : turn rows c = .ok rows') :
    (c :: rest).foldlM turn rows = rest.foldlM turn rows' := by
  rw [foldlM_cons, h]
  rfl

theorem modify_add (rows : List Row) (x : Nat) (fs cs fs' cs' : List Nat) :
    (rows.modify x (Row.add fs cs)).modify x (Row.add fs' cs') =
      rows.modify x (Row.add (fs ++ fs') (cs ++ cs')) := by
  rw [modify_modify_eq]
  congr 1
  funext r
  simp [Row.add]

/-- The body of the open section `x` adds to its row and brings the rows inside. -/
theorem foldlM_body (hv : b.Valid) {x : Nat} (hopen : openRow rows = some x) (pos : Nat)
    (rest : List (List Char × Nat)) :
    (b.items.zipIdx pos ++ rest).foldlM turn rows =
      rest.foldlM turn (rows.modify x (Row.add (b.fieldStarts pos) (b.childRows rows.length)) ++
      b.rows pos rows.length) := by
  induction b generalizing rows x pos rest with
  | nil =>
    have hid : Row.add [] [] = id := by
      funext r
      simp [Row.add]
    simp [Body.items, Body.fieldStarts, Body.childRows, Body.rows, hid]
  | field name value close more ih =>
    obtain ⟨hk, hname, hcl, hm⟩ := hv
    have hend : isSectionalItem close = false := by rw [isSectionalItem_congr hcl, hname]
    have hopen' : openRow (rows.modify x (Row.add [pos] [])) = some x := by rw [openRow_add, hopen]
    simp only [Body.items, zipIdx_cons, cons_append]
    rw [foldlM_cons_of_ok (turn_field hk hname hopen), foldlM_cons_of_ok turn_data,
      foldlM_cons_of_ok (turn_fieldEnd hend), ih hm hopen', modify_add, length_modify]
    rfl
  | sub name body close more ihb ihr =>
    obtain ⟨hname, hcl, hbo, hm⟩ := hv
    have hx := openRow_lt hopen
    have hend : isSectionalItem close = true := by rw [isSectionalItem_congr hcl, hname]
    -- the rows before, with the new section among the children of `x`
    obtain ⟨before, hbe⟩ : ∃ before, before = rows.modify x (Row.add [] [rows.length]) := ⟨_, rfl⟩
    have hlen : before.length = rows.length := by rw [hbe, length_modify]
    have hinner : openRow (before ++ [Row.new pos]) = some before.length := openRow_append_open rfl
    -- the rows of the new section, once it has its end
    obtain ⟨inside, hin⟩ : ∃ inside,
      inside = (⟨pos, body.fieldStarts (pos + 1), body.childRows (rows.length + 1), true⟩ : Row) ::
      body.rows (pos + 1) (rows.length + 1) := ⟨_, rfl⟩
    have hclo : ∀ r ∈ inside, r.closed = true := by
      rw [hin]
      exact forall_mem_cons.2 ⟨rfl, body.rows_closed _ _⟩
    have haf : openRow (before ++ inside) = some x := by
      rw [openRow_append_closed hclo, hbe, openRow_add, hopen]
    have hco : (before ++ inside).length = rows.length + body.count + 1 := by
      rw [length_append, hlen, hin, length_cons, body.length_rows]
      rfl
    simp only [Body.items, zipIdx_cons, cons_append, zipIdx_append, append_assoc]
    rw [foldlM_cons_of_ok (turn_begin hname), hopen, Option.getD_some, ← hbe, ihb hbo hinner,
      Lists.modify_append_cons, length_append, length_singleton, hlen]
    have hst :
      openRow (before ++ [Row.add (body.fieldStarts (pos + 1)) (body.childRows (rows.length + 1))
      (Row.new pos)] ++
        body.rows (pos + 1) (rows.length + 1)) = some before.length := by
      rw [openRow_append_closed (body.rows_closed _ _), openRow_append_open rfl]
    rw [foldlM_cons_of_ok (turn_end hend hst), append_assoc, singleton_append,
      Lists.modify_append_cons]
    have hrow :
      (Row.add (body.fieldStarts (pos + 1)) (body.childRows (rows.length + 1))
      (Row.new pos)).close ::
      body.rows (pos + 1) (rows.length + 1) = inside := hin.symm
    rw [hrow, ihr hm haf, Lists.modify_append_left (by rw [hlen]; exact hx), hco, hbe, modify_add,
      show pos + 1 + body.items.length + 1 = pos + body.items.length + 2 by omega, hin]
    simp only [Body.fieldStarts, Body.childRows, Body.rows, append_assoc, nil_append,
      singleton_append]

theorem foldlM_items : (f.items.zipIdx 0).foldlM turn [] = .ok f.rows := by
  have hopen : openRow [Row.new 0] = some 0 := rfl
  have hend : isSectionalItem f.close = true := by rw [isSectionalItem_congr f.closes, f.opens]
  have hst :
      openRow ([Row.add (f.body.fieldStarts 1) (f.body.childRows 1) (Row.new 0)] ++
      f.body.rows 1 1) = some 0 := by
    rw [openRow_append_closed (f.body.rows_closed _ _)]
    rfl
  rw [File.items, zipIdx_cons, zipIdx_append, foldlM_cons_of_ok (turn_begin f.opens)]
  rw [show ([] : List Row).modify ((openRow []).getD 0) (Row.add [] [([] : List Row).length]) ++
    [Row.new 0] = [Row.new 0] from rfl, foldlM_body f.body f.valid hopen]
  exact foldlM_cons_of_ok (turn_end hend hst)

/-! ## The numbers of tags -/

def isOpening (t : List Char) : Bool :=
  match kind t with
  | .opening _ => true
  | _ => false

def isClosing (t : List Char) : Bool :=
  match kind t with
  | .closing _ => true
  | _ => false

def isFieldTag (t : List Char) : Bool :=
  match kind t with
  | .opening name => !isSectionalItem name
  | _ => false

/-- Data and a closing tag stand behind every field's tag. -/
def FieldsFollowed : List (List Char) → Prop
  | [] => True
  | t :: rest =>
    (isFieldTag t = true → startsWith '\t' rest[0]? = true ∧ startsWith '/' rest[1]? = true) ∧
    FieldsFollowed rest

/-- The first item is the tag of a section, the fields have what stands behind them, and there are
as many closing as opening tags, of sections and in all. -/
structure Counted (items : List (List Char)) : Prop where
  first    : isSectionalItem (items.getD 0 []) = true
  fields   : FieldsFollowed items
  tags     : items.countP isOpening = items.countP isClosing
  sections : items.countP isBegin = items.countP isEnd

variable {items : List (List Char)} {t name : List Char}

theorem scanTags_followed (h : FieldsFollowed items) (m n : Nat) :
    scanTags items m n = .ok (m + items.countP isOpening, n + items.countP isClosing) := by
  fun_induction scanTags items m n with
  | case1 => rfl
  | case2 t rest m n hk ih => simp [isOpening, isClosing, hk, ih h.2]
  | case3 t rest m n name hk ih =>
    simp [isOpening, isClosing, hk, ih h.2, Nat.add_comm, Nat.add_left_comm]
  | case4 t rest m n name hk _ ih | case5 t rest m n name hk _ _ ih =>
    simp [isOpening, isClosing, hk, ih h.2, Nat.add_comm, Nat.add_left_comm]
  | case6 t rest m n name hk hname hbe => exact absurd (h.1 (by simp [isFieldTag, hk, hname])) hbe

theorem scanTags_not_followed (h : ¬ FieldsFollowed items) (m n : Nat) :
    scanTags items m n = .error .badParam := by
  fun_induction scanTags items m n with
  | case1 => exact absurd trivial h
  | case2 t rest m n hk ih | case3 t rest m n name hk ih =>
    exact ih (by simpa [FieldsFollowed, isFieldTag, hk] using h)
  | case4 t rest m n name hk hname ih =>
    exact ih (by simpa [FieldsFollowed, isFieldTag, hk, hname] using h)
  | case5 t rest m n name hk hname hbe ih => exact ih fun hre => h ⟨fun _ => hbe, hre⟩
  | case6 => rfl

section
variable {items : List (List Char)}

theorem Counted.ne_nil (h : Counted items) : items ≠ [] := by
  rintro rfl
  exact absurd h.first (by decide)

theorem Counted.begins (h : Counted items) : items.countP isBegin ≠ 0 := by
  cases items with
  | nil => exact absurd rfl h.ne_nil
  | cons t rest =>
    have ht : isSectionalItem t = true := h.first
    have hbe : isBegin t = true := by simp [isBegin, kind_of_isSectionalItem ht, ht]
    simp [hbe]

theorem countP_zipIdx (items : List (List Char)) (p : List Char → Bool) :
    (items.zipIdx 0).countP (fun t => p t.1) = items.countP p := by
  rw [show (fun t : List Char × Nat => p t.1) = p ∘ Prod.fst from rfl, ← countP_map, zipIdx_map_fst]

theorem zipIdx_tail_pos (items : List (List Char)) : ∀ t ∈ (items.zipIdx 0).tail, 0 < t.2 := by
  cases items with
  | nil => simp
  | cons t rest =>
    intro u hu
    exact le_snd_of_mem_zipIdx hu

/-- **With the right numbers of tags, the rows are read.** -/
theorem readSections_counted (h : Counted items) :
    readSections items = ((items.zipIdx 0).foldlM turn []).map (List.map Row.entries) := by
  have hlen : ¬ (items.length ≤ 0 ∨ items.length ≤ 0 ∨ items.length < items.length) := by
    have := length_pos_iff.2 h.ne_nil
    omega
  have hse : ¬ (items.countP isBegin ≠ items.countP isEnd ∨ items.countP isBegin = 0) := by
    rintro (hne | hz)
    · exact hne h.sections
    · exact h.begins hz
  rw [readSections, checkLexOpenCloseTagsMatching, if_neg h.ne_nil, scanTags_followed h.fields]
  simp only [Except.bind, Nat.zero_add, h.tags, ne_eq, not_true, if_false]
  rw [structureLexedItems, if_neg h.ne_nil, if_neg hlen, h.first]
  simp only [Bool.not_true, Bool.false_eq_true, if_false, take_length, drop_zero, if_neg hse]
  exact loops_eq (zipIdx_tail_pos items) (countP_zipIdx items isBegin)

theorem readSections_not_counted (h : ¬ Counted items) : readSections items = .error .badParam := by
  rw [readSections, checkLexOpenCloseTagsMatching]
  by_cases hnil : items = []
  · rw [if_pos hnil]
    rfl
  rw [if_neg hnil]
  by_cases hfi : FieldsFollowed items
  · rw [scanTags_followed hfi]
    by_cases hta : items.countP isOpening = items.countP isClosing
    · simp only [Except.bind, Nat.zero_add, hta, ne_eq, not_true, if_false]
      rw [structureLexedItems, if_neg hnil]
      split
      · rfl
      cases hf : isSectionalItem (items.getD 0 []) with
      | false => rfl
      | true =>
        simp only [Bool.not_true, Bool.false_eq_true, if_false, take_length, drop_zero]
        refine if_pos (Or.inl fun hse => h ⟨hf, hfi, hta, hse⟩)
    · simp [Except.bind, hta]
  · rw [scanTags_not_followed hfi]
    rfl

end

/-- With a section to begin with, the rows fail only outside the arrays. -/
theorem foldlM_turn_ne_badParam (l : List (List Char × Nat)) (h : rows ≠ []) :
    l.foldlM turn rows ≠ .error .badParam := by
  induction l generalizing rows with
  | nil =>
    intro heq
    cases heq
  | cons c rest ih =>
    have hinner : ∀ g : Row →
      Row, ((innermost rows).map fun x => rows.modify x g) = .error .outside ∨
        ∃ x, ((innermost rows).map fun x => rows.modify x g) = .ok (rows.modify x g) := by
      intro g
      rw [innermost]
      cases openRow rows with
      | none => exact Or.inl rfl
      | some x => exact Or.inr ⟨x, rfl⟩
    have htu : turn rows c = .error .outside ∨ ∃ rows', turn rows c = .ok rows' ∧ rows' ≠ [] := by
      have hm : ∀ x g, rows.modify x g ≠ [] :=
        fun x g hnil => h (by simpa using congrArg List.length hnil)
      unfold turn
      split
      · exact Or.inr ⟨rows, rfl, h⟩
      · split
        · rcases hinner Row.close with hout | ⟨x, hx⟩
          · exact Or.inl hout
          · exact Or.inr ⟨_, hx, hm _ _⟩
        · exact Or.inr ⟨rows, rfl, h⟩
      · split
        · exact Or.inr ⟨_, rfl, by simp⟩
        · rcases hinner (Row.add [c.2] []) with hout | ⟨x, hx⟩
          · exact Or.inl hout
          · exact Or.inr ⟨_, hx, hm _ _⟩
    rcases htu with hout | ⟨rows', hr', hne⟩
    · rw [foldlM_cons, hout]
      intro heq
      cases heq
    · rw [foldlM_cons_of_ok hr']
      exact ih hne

theorem Counted.ne_badParam (h : Counted items) : readSections items ≠ .error .badParam := by
  rw [readSections_counted h]
  cases items with
  | nil => exact absurd rfl h.ne_nil
  | cons name rest =>
    have hname : isSectionalItem name = true := h.first
    rw [zipIdx_cons, foldlM_cons_of_ok (turn_begin hname)]
    have hre := foldlM_turn_ne_badParam (rest.zipIdx 1) (cons_ne_nil (Row.new 0) [])
    intro heq
    change ((rest.zipIdx 1).foldlM turn [Row.new 0]).map (List.map Row.entries) =
      .error .badParam at heq
    cases hro : (rest.zipIdx 1).foldlM turn [Row.new 0] with
    | ok rows =>
      rw [hro] at heq
      cases heq
    | error e =>
      rw [hro] at heq hre
      cases heq
      exact hre rfl

/-! ## Pairs of tags -/

/-- The closing tag of `name`. -/
def closes (name t : List Char) : Bool :=
  match kind t with
  | .closing close => strcaseeq close name
  | _ => false

/-- Every closing tag names the last section on the stack, which it takes off, or the field it
follows; there is no other data, and nothing behind the last section. -/
def paired : List (List Char) → List (List Char) → Bool
  | stack, [] => stack = []
  | [], _ :: _ => false
  | top :: stack, t :: rest =>
    match kind t with
    | .data => false
    | .closing close => strcaseeq close top && paired stack rest
    | .opening name =>
      if isSectionalItem name then paired (name :: top :: stack) rest
      else
        match rest with
        | d :: c :: rest => kind d = .data && closes name c && paired (top :: stack) rest
        | _ => false

/-- The first item is the tag of a section, and the tags behind it are in pairs. -/
def nested : List (List Char) → Bool
  | [] => false
  | name :: rest => isSectionalItem name && paired [name] rest

theorem eq_of_kind_data {t : List Char} (h : kind t = .data) : ∃ value, t = '\t' :: value := by
  unfold kind at h
  split at h
  · exact ⟨_, rfl⟩
  · cases h
  · cases h

theorem eq_of_kind_closing (h : kind t = .closing name) : t = '/' :: name := by
  unfold kind at h
  split at h
  · cases h
  · cases h
    rfl
  · cases h

theorem eq_of_kind_opening (h : kind t = .opening name) : t = name := by
  unfold kind at h
  split at h
  · cases h
  · cases h
  · cases h
    rfl

section
variable {top : List Char} {stack rest : List (List Char)}

theorem paired_body (hv : b.Valid) (h : paired (top :: stack) rest = true) :
    paired (top :: stack) (b.items ++ rest) = true := by
  induction b generalizing top stack rest with
  | nil => exact h
  | field name value close more ih =>
    obtain ⟨hk, hname, hcl, hm⟩ := hv
    simp [Body.items, paired, hk, hname, closes, hcl, ih hm h]
  | sub name body close more ihb ihr =>
    obtain ⟨hname, hcl, hbo, hm⟩ := hv
    have hend : paired (name :: top :: stack) (('/' :: close) :: (more.items ++ rest)) = true := by
      simp [paired, hcl, ihr hm h]
    simp only [Body.items, cons_append, append_assoc, paired, kind_of_isSectionalItem hname,
      hname, if_true]
    exact ihb hbo hend

/-- What stands before the closing tag of the section on top is a body. -/
theorem exists_body (h : paired (top :: stack) items = true) :
    ∃ b : Body, b.Valid ∧ ∃ close rest, items = b.items ++ ('/' :: close) :: rest ∧
      strcaseeq close top = true ∧
      paired stack rest = true := by
  -- the items behind a section inside are fewer than all
  induction hn : items.length using Nat.strongRecOn generalizing top stack items with
  | ind n ih =>
    subst hn
    cases items with
    | nil => simp [paired] at h
    | cons t rest =>
      rw [paired] at h
      cases hk : kind t with
      | data => simp [hk] at h
      | closing close =>
        simp only [hk, Bool.and_eq_true] at h
        exact ⟨.nil, trivial, close, rest, by rw [eq_of_kind_closing hk]; rfl, h.1, h.2⟩
      | opening name =>
        obtain rfl := eq_of_kind_opening hk
        simp only [hk] at h
        by_cases hname : isSectionalItem t = true
        · rw [if_pos hname] at h
          obtain ⟨body, hbo, close, behind, rfl, hcl, hbe⟩ := ih _ (Nat.lt_succ_self _) h rfl
          obtain ⟨more, hm, close', rest', rfl, hcl', hre'⟩ := ih _ (by simp; omega) hbe rfl
          exact ⟨.sub t body close more, ⟨hname, hcl, hbo, hm⟩, close', rest',
            by simp [Body.items], hcl', hre'⟩
        · rw [if_neg hname] at h
          match rest, h with
          | d :: c :: rest, h =>
            simp only [Bool.and_eq_true, decide_eq_true_eq] at h
            obtain ⟨⟨hda, hclo⟩, hre⟩ := h
            obtain ⟨value, rfl⟩ := eq_of_kind_data hda
            cases hc : kind c with
            | data | opening _ => simp [closes, hc] at hclo
            | closing close =>
              obtain rfl := eq_of_kind_closing hc
              obtain ⟨more, hm, close', rest', rfl, hcl', hre'⟩ := ih _ (by simp; omega) hre rfl
              exact ⟨.field t value close more, ⟨hk, by simpa using hname, hclo, hm⟩, close', rest',
                by simp [Body.items], hcl', hre'⟩

end

/-- **The nested items are those of files.** -/
theorem nested_iff : nested items = true ↔ ∃ f : File, f.items = items := by
  constructor
  · intro h
    cases items with
    | nil => cases h
    | cons name rest =>
      obtain ⟨hname, hpa⟩ := Bool.and_eq_true_iff.1 h
      obtain ⟨b, hb, close, behind, rfl, hcl, hbe⟩ := exists_body hpa
      have hnil : behind = [] := by
        cases behind with
        | nil => rfl
        | cons t ts => cases hbe
      subst hnil
      exact ⟨⟨name, b, close, hname, hcl, hb⟩, rfl⟩
  · rintro ⟨f, rfl⟩
    refine Bool.and_eq_true_iff.2 ⟨f.opens, paired_body f.body f.valid ?_⟩
    simp [paired, f.closes]

/-! ## Files have the right numbers of tags -/

/-- What a tag adds to the numbers of opening and closing tags, of tags of sections, and of those
closing them. -/
theorem counts_opening {name : List Char} (h : kind name = .opening name) :
    isOpening name = true ∧ isClosing name = false ∧ isBegin name = isSectionalItem name ∧
      isEnd name = false := by
  simp [isOpening, isClosing, isBegin, isEnd, h]

theorem counts_closing (close : List Char) :
    isOpening ('/' :: close) = false ∧ isClosing ('/' :: close) = true ∧
      isBegin ('/' :: close) = false ∧
      isEnd ('/' :: close) = isSectionalItem close :=
  ⟨rfl, rfl, rfl, rfl⟩

theorem counts_data (value : List Char) :
    isOpening ('\t' :: value) = false ∧ isClosing ('\t' :: value) = false ∧
      isBegin ('\t' :: value) = false ∧
      isEnd ('\t' :: value) = false :=
  ⟨rfl, rfl, rfl, rfl⟩

/-- There are as many closing as opening tags in a body, of sections and in all. -/
theorem Body.countP_eq (hv : b.Valid) :
    b.items.countP isOpening = b.items.countP isClosing ∧
      b.items.countP isBegin = b.items.countP isEnd := by
  induction b with
  | nil => exact ⟨rfl, rfl⟩
  | field name value close more ih =>
    obtain ⟨hk, hname, hcl, hm⟩ := hv
    have hend : isSectionalItem close = false := by rw [isSectionalItem_congr hcl, hname]
    simpa only [Body.items, countP_cons, counts_opening hk, counts_closing, counts_data, hname,
      hend, if_true, Bool.false_eq_true, if_false, Nat.add_zero,
      Nat.add_right_cancel_iff] using ih hm
  | sub name body close more ihb ihr =>
    obtain ⟨hname, hcl, hbo, hm⟩ := hv
    have hend : isSectionalItem close = true := by rw [isSectionalItem_congr hcl, hname]
    have hb := ihb hbo
    have hr := ihr hm
    simp only [Body.items, countP_cons, countP_append,
      counts_opening (kind_of_isSectionalItem hname), counts_closing, hname, hend, if_true,
      Bool.false_eq_true, if_false]
    omega

theorem Body.fieldsFollowed (hv : b.Valid) {rest : List (List Char)} (h : FieldsFollowed rest) :
    FieldsFollowed (b.items ++ rest) := by
  induction b generalizing rest with
  | nil => exact h
  | field name value close more ih =>
    obtain ⟨hk, hname, hcl, hm⟩ := hv
    refine ⟨fun _ => ⟨rfl, rfl⟩, fun ht => ?_, fun ht => ?_, ih hm h⟩
    · simp [isFieldTag] at ht
    · simp [isFieldTag] at ht
  | sub name body close more ihb ihr =>
    obtain ⟨hname, hcl, hbo, hm⟩ := hv
    simp only [Body.items, cons_append, append_assoc]
    refine ⟨fun ht => ?_, ihb hbo ⟨fun ht => ?_, ihr hm h⟩⟩
    · simp [isFieldTag, kind_of_isSectionalItem hname, hname] at ht
    · simp [isFieldTag] at ht

theorem File.counted : Counted f.items := by
  -- a file is a section with nothing behind it
  have hv : (Body.sub f.name f.body f.close .nil).Valid := ⟨f.opens, f.closes, f.valid, trivial⟩
  have hco := Body.countP_eq _ hv
  have hf : FieldsFollowed (f.items ++ []) := Body.fieldsFollowed _ hv trivial
  rw [append_nil] at hf
  exact ⟨f.opens, hf, hco.1, hco.2⟩

theorem readSections_items : readSections f.items = .ok (f.rows.map Row.entries) := by
  rw [readSections_counted f.counted, foldlM_items]
  rfl

/-- **The sections are read as they are, and nothing else is, exactly if the items with the right
numbers of tags are nested.** -/
theorem readSections_faithful_iff (items : List (List Char)) :
    Faithful items ↔ (Counted items → nested items = true) := by
  constructor
  · intro h hco
    rw [nested_iff]
    unfold Faithful at h
    split at h
    · obtain ⟨f, hf, -⟩ := h
      exact ⟨f, hf⟩
    · rename_i hbad
      exact absurd hbad hco.ne_badParam
    · exact h.elim
  · intro h
    by_cases hco : Counted items
    · obtain ⟨f, rfl⟩ := nested_iff.1 (h hco)
      unfold Faithful
      rw [readSections_items]
      exact ⟨f, rfl, rfl⟩
    · unfold Faithful
      rw [readSections_not_counted hco]
      rintro ⟨f, rfl⟩
      exact hco f.counted

def crossedItems : List (List Char) :=
  ["configuration".toList, "role".toList, "\tx".toList, "/port".toList, "/junction".toList]

/-- Closing tags that name neither the field nor the section. -/
theorem crossedItems_read :
    readSections crossedItems = .ok [[0, 1]] ∧ ¬ ∃ f : File, f.items = crossedItems := by
  refine ⟨by decide +kernel, fun h => ?_⟩
  exact absurd (nested_iff.2 h) (by decide +kernel)

end Sensys.Cfgi
