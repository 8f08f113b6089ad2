import Sensys.Lib.Lockstep
import Sensys.Lib.Results
import Sensys.Lib.Text
import Sensys.Cfgi.Structure
/-!
# The rows of the sections, in one pass

`structureLexedItems` goes through the items twice and keeps its sections in four arrays. `turn`
goes through them once and keeps a list of rows. The first loop has the lengths of these rows
(`firstTurn_rel`), the second their contents (`secondTurn_rel`), so that the result is the list of
rows (`loops_eq`).
-/
namespace Sensys.Cfgi
open Buffer Lockstep List

/-- A section: where it starts, its fields, its child sections, and whether it has an end. -/
structure Row where
  start    : Nat
  fields   : List Nat
  children : List Nat
  closed   : Bool
deriving DecidableEq, Repr

def Row.new (i : Nat) : Row := ⟨i, [], [], false⟩

def Row.add (fields children : List Nat) (r : Row) : Row :=
  { r with fields := r.fields ++ fields, children := r.children ++ children }

def Row.close (r : Row) : Row := { r with closed := true }

/-- The row of `hierarchy`. -/
def Row.entries (r : Row) : List Int :=
  (r.start : Int) :: r.fields.map Nat.cast ++ r.children.map fun (k : Nat) => -(k : Int)

def endOf (rows : List Row) (k : Nat) : Nat := if rows[k]?.any Row.closed then 1 else 0

/-- The last section without an end. -/
def openRow (rows : List Row) : Option Nat := emptyEnding (endOf rows) rows.length

def innermost (rows : List Row) : Except Fault Nat :=
  match openRow rows with
  | none => .error .outside
  | some x => .ok x

/-- One item. A section with no section around it is a child of the first. -/
def turn (rows : List Row) (t : List Char × Nat) : Except Fault (List Row) :=
  match kind t.1 with
  | .data => .ok rows
  | .closing name => if isSectionalItem name then (innermost rows).map fun x =>
    rows.modify x Row.close else .ok rows
  | .opening name =>
    if isSectionalItem name then
      .ok (rows.modify ((openRow rows).getD 0) (Row.add [] [rows.length]) ++ [Row.new t.2])
    else if rows = [] then .error .badParam
    else (innermost rows).map fun x => rows.modify x (Row.add [t.2] [])

variable {m : Nat}

/-! ## The section that is open -/

section
variable {ends ends' : Nat → Nat} {n x : Nat} {rows : List Row}

theorem emptyEnding_congr (h : ∀ k < n, ends k = 0 ↔ ends' k = 0) :
    emptyEnding ends n = emptyEnding ends' n := by
  induction n with
  | zero => rfl
  | succ n ih =>
    simp only [emptyEnding, h n (Nat.lt_succ_self n), ih fun k hk => h k (Nat.lt_succ_of_lt hk)]

theorem emptyEnding_eq_some (h : emptyEnding ends n = some x) : x < n ∧ ends x = 0 := by
  induction n with
  | zero => cases h
  | succ n ih =>
    rw [emptyEnding] at h
    split at h
    · rename_i hn
      cases h
      exact ⟨Nat.lt_succ_self _, hn⟩
    · exact ⟨Nat.lt_succ_of_lt (ih h).1, (ih h).2⟩

theorem emptyEnding_add (h : ∀ k, n ≤ k → k < n + m → ends k ≠ 0) :
    emptyEnding ends (n + m) = emptyEnding ends n := by
  induction m with
  | zero => rfl
  | succ m ih =>
    rw [← Nat.add_assoc, emptyEnding, if_neg (h _ (Nat.le_add_right n m) (by omega))]
    exact ih fun k hk hlt => h k hk (by omega)

theorem openRow_lt (h : openRow rows = some x) : x < rows.length := (emptyEnding_eq_some h).1

theorem innermost_lt (h : innermost rows = .ok x) : x < rows.length := by
  rw [innermost] at h
  split at h
  · cases h
  · rename_i hopen
    cases h
    exact openRow_lt hopen

/-- Sections that have their ends are passed over. -/
theorem openRow_append_closed {new : List Row} (h : ∀ r ∈ new, r.closed = true) :
    openRow (rows ++ new) = openRow rows := by
  rw [openRow, length_append, emptyEnding_add]
  · refine emptyEnding_congr fun k hk => ?_
    rw [endOf, getElem?_append_left hk, endOf]
  · intro k hk hlt
    have hlt' : k - rows.length < new.length := by omega
    rw [endOf, getElem?_append_right hk, getElem?_eq_getElem hlt', Option.any_some,
      if_pos (h _ (getElem_mem hlt'))]
    exact Nat.one_ne_zero

theorem openRow_append_open {r : Row} (h : r.closed = false) :
    openRow (rows ++ [r]) = some rows.length := by
  rw [openRow, length_append, length_singleton, emptyEnding, if_pos]
  simp [endOf, h]

theorem openRow_add (rows : List Row) (x : Nat) (fields children : List Nat) :
    openRow (rows.modify x (Row.add fields children)) = openRow rows := by
  rw [openRow, length_modify]
  refine emptyEnding_congr fun k hk => ?_
  rw [endOf, endOf, getElem?_modify, getElem?_eq_getElem hk]
  by_cases hx : x = k <;> simp [hx, Row.add]

theorem forall_modify {f : Row → Row} {P : Nat → Row → Prop}
    (h : ∀ k r, rows[k]? = some r → P k (if x = k then f r else r)) :
    ∀ k r, (rows.modify x f)[k]? = some r → P k r := by
  intro k r' hr'
  rw [getElem?_modify] at hr'
  obtain ⟨r, hr, rfl⟩ := Option.map_eq_some_iff.1 hr'
  exact h k r hr

theorem forall_concat {new : Row} {P : Nat → Row → Prop} (h : ∀ k r, rows[k]? = some r → P k r)
    (hnew : P rows.length new) :
    ∀ k r, (rows ++ [new])[k]? = some r → P k r := by
  intro k r hr
  rcases Lists.concat_eq_some hr with ⟨-, hr⟩ | ⟨rfl, rfl⟩
  · exact h k r hr
  · exact hnew

theorem index_lt {k : Nat} {r : Row} (h : rows[k]? = some r) : k < rows.length :=
  (List.getElem?_eq_some_iff.1 h).1

end

/-- The array of ends says which rows are open. -/
def EndsOf (ends : Nat → Nat) (rows : List Row) : Prop :=
  ∀ k r, rows[k]? = some r → (ends k = 0 ↔ r.closed = false)

section
variable {ends : Nat → Nat} {rows : List Row} {x : Nat} (h : EndsOf ends rows)
include h

theorem EndsOf.emptyEnding_eq : emptyEnding ends rows.length = openRow rows := by
  refine emptyEnding_congr fun k hk => ?_
  rw [h k _ (getElem?_eq_getElem hk), endOf, getElem?_eq_getElem hk, Option.any_some]
  cases (rows[k]).closed <;> decide

theorem EndsOf.foundEnding_eq : foundEnding ends rows.length = innermost rows := by
  rw [foundEnding, innermost, h.emptyEnding_eq]
  cases hopen : openRow rows with
  | none => rfl
  | some x =>
    rw [← h.emptyEnding_eq] at hopen
    have hx : ¬ (x = 0 ∧ ends 0 ≠ 0) := by
      rintro ⟨rfl, hne⟩
      exact hne (emptyEnding_eq_some hopen).2
    exact if_neg hx

theorem EndsOf.close {i : Nat} (hi : 0 < i) : EndsOf (put ends x i) (rows.modify x Row.close) := by
  refine forall_modify fun k r hr => ?_
  by_cases hx : x = k
  · subst hx
    simp [Row.close, put_self, Nat.pos_iff_ne_zero.1 hi]
  · rw [put_of_ne _ (Ne.symm hx), if_neg hx]
    exact h k r hr

theorem EndsOf.modify {f : Row → Row} (hf : ∀ r, (f r).closed = r.closed) :
    EndsOf ends (rows.modify x f) := by
  refine forall_modify fun k r hr => ?_
  rw [h k r hr]
  split
  · rw [hf]
  · rfl

theorem EndsOf.push (i : Nat) : EndsOf (put ends rows.length 0) (rows ++ [Row.new i]) := by
  refine forall_concat (fun k r hr => ?_) ?_
  · rw [put_of_ne _ (Nat.ne_of_lt (index_lt hr))]
    exact h k r hr
  · simp [put_self, Row.new]

end

/-! ## The first loop -/

/-- The arrays of the first loop and the rows. -/
structure Counts (s : Sections) (rows : List Row) : Prop where
  sz_eq       : s.sz = rows.length
  ends_of     : EndsOf s.ends rows
  starts_eq   : ∀ k r, rows[k]? = some r → s.starts k = r.start
  counts_eq   : ∀ k r, rows[k]? = some r → s.counts k = r.fields.length
  counts_new  : ∀ k, rows.length ≤ k → s.counts k = 0
  children_eq : ∀ k r, rows[k]? = some r → r.children = (List.range rows.length).filter fun j =>
    s.parents j = some k
  parents_lt  : ∀ j < rows.length, ∀ k, s.parents j = some k → k < rows.length
  parents_new : ∀ j, rows.length ≤ j → s.parents j = if j = 0 then none else some 0

section
variable {s : Sections} {rows : List Row} {size x i : Nat}

theorem Counts.close (h : Counts s rows) (hi : 0 < i) :
    Counts { s with ends := put s.ends x i } (rows.modify x Row.close) := by
  refine ⟨by simp [h.sz_eq], h.ends_of.close hi, forall_modify fun k r hr => ?_,
    forall_modify fun k r hr => ?_,
    by simpa using h.counts_new, forall_modify fun k r hr => ?_, by simpa using h.parents_lt, by simpa using h.parents_new⟩
  · rw [h.starts_eq k r hr]
    split <;> rfl
  · rw [h.counts_eq k r hr]
    split <;> rfl
  · rw [length_modify, ← h.children_eq k r hr]
    split <;> rfl

theorem Counts.field (h : Counts s rows) (hx : x < rows.length) :
    Counts { s with counts := put s.counts x (s.counts x + 1) }
      (rows.modify x (Row.add [i] [])) := by
  refine ⟨by simp [h.sz_eq], h.ends_of.modify fun _ => rfl, forall_modify fun k r hr => ?_,
    forall_modify fun k r hr => ?_, ?_, forall_modify fun k r hr => ?_,
    by simpa using h.parents_lt, by simpa using h.parents_new⟩
  · rw [h.starts_eq k r hr]
    split <;> rfl
  · by_cases hxk : x = k
    · subst hxk
      simp [put_self, Row.add, h.counts_eq x r hr]
    · rw [if_neg hxk, ← h.counts_eq k r hr]
      exact put_of_ne _ (Ne.symm hxk) _
  · intro k hk
    rw [length_modify] at hk
    rw [← h.counts_new k hk]
    exact put_of_ne _ (Nat.ne_of_gt (Nat.lt_of_lt_of_le hx hk)) _
  · rw [length_modify, ← h.children_eq k r hr]
    split
    · simp [Row.add]
    · rfl

/-- What `beginSection` leaves in the parent of the new section. -/
theorem Counts.begin (h : Counts s rows) (p : Nat) (parents : Nat → Option Nat)
    (hp : rows ≠ [] → p < rows.length) (hold : ∀ j, j ≠ rows.length → parents j = s.parents j)
    (hnew : parents rows.length = if rows = [] then none else some p) :
    Counts { s with sz := s.sz + 1, starts := put s.starts s.sz i, ends := put s.ends s.sz 0, parents := parents }
      (rows.modify p (Row.add [] [rows.length]) ++ [Row.new i]) := by
  have hlen : (rows.modify p (Row.add [] [rows.length])).length = rows.length := length_modify _ _ _
  have hlen' : (rows.modify p (Row.add [] [rows.length]) ++ [Row.new i]).length = rows.length + 1 :=
    by simp
  have hlt : ∀ k, parents rows.length = some k → k = p ∧ k < rows.length := by
    intro k hk
    by_cases hnil : rows = []
    · rw [hnew, if_pos hnil] at hk
      cases hk
    · rw [hnew, if_neg hnil] at hk
      cases hk
      exact ⟨rfl, hp hnil⟩
  have hf : ∀ k, (range (rows.length + 1)).filter (fun j => parents j = some k) =
      (range rows.length).filter (fun j => s.parents j = some k) ++
      if parents rows.length = some k then [rows.length] else [] := by
    intro k
    rw [range_succ, filter_append]
    congr 1
    · refine filter_congr fun j hj => ?_
      rw [hold j (Nat.ne_of_lt (mem_range.1 hj))]
    · by_cases hk : parents rows.length = some k <;> simp [hk]
  rw [h.sz_eq]
  refine ⟨hlen'.symm, ?_, forall_concat (forall_modify fun k r hr => ?_) ?_,
    forall_concat (forall_modify fun k r hr => ?_) ?_, ?_,
    forall_concat (forall_modify fun k r hr => ?_) ?_, ?_, ?_⟩
  · have hen := (@EndsOf.modify _ _ p h.ends_of (Row.add [] [rows.length]) fun _ => rfl).push i
    rw [hlen] at hen
    exact hen
  · show put s.starts rows.length i k = _
    rw [put_of_ne _ (Nat.ne_of_lt (index_lt hr)), h.starts_eq k r hr]
    split <;> rfl
  · rw [hlen]
    exact put_self _ _ _
  · rw [h.counts_eq k r hr]
    split <;> simp [Row.add]
  · exact h.counts_new _ (Nat.le_of_eq hlen.symm)
  · intro k hk
    exact h.counts_new k (by omega)
  · rw [hlen', hf, ← h.children_eq k r hr, hnew,
      if_neg (ne_nil_of_length_pos (Nat.zero_lt_of_lt (index_lt hr)))]
    by_cases hpk : p = k <;> simp [hpk, Row.add]
  · have hno : (range rows.length).filter (fun j => s.parents j = some rows.length) = [] := by
      refine filter_eq_nil_iff.2 fun j hj => ?_
      have := h.parents_lt j (mem_range.1 hj) rows.length
      simpa using this
    rw [hlen', hf, hlen, hno, if_neg fun hk => Nat.lt_irrefl _ (hlt _ hk).2]
    rfl
  · intro j hj k hk
    rw [hlen'] at hj ⊢
    by_cases hjn : j = rows.length
    · subst hjn
      exact Nat.lt_succ_of_lt (hlt k hk).2
    · have := h.parents_lt j (by omega) k (by rw [← hold j hjn]; exact hk)
      omega
  · intro j hj
    show parents j = _
    rw [hold j (by omega)]
    exact h.parents_new j (by omega)

/-- The first loop follows the rows; `size` sections are begun in all, and the only item with
index 0 is the first. -/
structure Tracks (size : Nat) (rest : List (List Char × Nat)) (s : Sections)
    (rows : List Row) : Prop where
  counts  : Counts s rows
  size_eq : rows.length + rest.countP (fun t => isBegin t.1) = size
  later   : rows = [] ∨ ∀ t ∈ rest, 0 < t.2
  tail    : ∀ t ∈ rest.tail, 0 < t.2

theorem beginSection_eq (h : Counts s rows) (hlt : rows.length < size) (i : Nat) :
    ∃ s', beginSection size s i = .ok s' ∧
      Counts s' (rows.modify ((openRow rows).getD 0) (Row.add [] [rows.length]) ++ [Row.new i]) := by
  have hse : emptyEnding (put s.ends rows.length 0) rows.length = openRow rows := by
    rw [← h.ends_of.emptyEnding_eq]
    exact emptyEnding_congr fun k hk => by rw [put_of_ne _ (Nat.ne_of_lt hk)]
  have hpa : s.parents rows.length = if rows = [] then none else some 0 := by
    simp [h.parents_new _ (Nat.le_refl _)]
  have hbe := @Counts.begin _ _ i h
  rw [h.sz_eq] at hbe
  rw [beginSection, h.sz_eq, if_pos hlt]
  by_cases hnil : rows = []
  · rw [if_pos (by simp [hnil])]
    refine ⟨_, rfl, hbe _ s.parents (fun hne => absurd hnil hne) (fun _ _ => rfl) ?_⟩
    rw [hpa, if_pos hnil, if_pos hnil]
  · have hpos := length_pos_iff.2 hnil
    rw [if_neg (Nat.ne_of_gt hpos)]
    simp only [hse]
    cases hopen : openRow rows with
    | none =>
      exact ⟨_, rfl, hbe 0 s.parents (fun _ => hpos) (fun _ _ => rfl) hpa⟩
    | some x =>
      rw [← hse] at hopen
      have hx : ¬ (x = 0 ∧ put s.ends rows.length 0 0 ≠ 0) := by
        rintro ⟨rfl, hne⟩
        exact hne (emptyEnding_eq_some hopen).2
      refine ⟨_, if_neg hx,
        hbe x _ (fun _ => (emptyEnding_eq_some hopen).1) (fun j hj => put_of_ne _ hj _) ?_⟩
      rw [put_self, if_neg hnil]

theorem firstTurn_rel {c : List Char × Nat} {rest : List (List Char × Nat)}
    (h : Tracks size (c :: rest) s rows) :
    Rel (Tracks size rest) (firstTurn size s c) (turn rows c) := by
  have hla : ∀ t ∈ rest, 0 < t.2 := h.tail
  have hta : ∀ t ∈ rest.tail, 0 < t.2 := fun t ht => hla t (mem_of_mem_tail ht)
  have hsi := h.size_eq
  rw [countP_cons] at hsi
  have hf := h.counts.ends_of.foundEnding_eq
  rw [← h.counts.sz_eq] at hf
  cases hk : kind c.1 with
  | data =>
    rw [show isBegin c.1 = false by simp [isBegin, hk]] at hsi
    simp only [firstTurn, turn, hk]
    exact .ok ⟨h.counts, hsi, Or.inr hla, hta⟩
  | closing name =>
    rw [show isBegin c.1 = false by simp [isBegin, hk]] at hsi
    simp only [firstTurn, turn, hk]
    by_cases hname : isSectionalItem name = true
    · rw [if_pos hname, if_pos hname, endSection, hf, innermost]
      cases hopen : openRow rows with
      | none => exact .error _
      | some x =>
        have hi :=
          h.later.resolve_left
          (ne_nil_of_length_pos (Nat.zero_lt_of_lt (openRow_lt hopen))) c mem_cons_self
        exact .ok ⟨h.counts.close hi, by rwa [length_modify], Or.inr hla, hta⟩
    · rw [if_neg hname, if_neg hname]
      exact .ok ⟨h.counts, hsi, Or.inr hla, hta⟩
  | opening name =>
    rw [show isBegin c.1 = isSectionalItem name by simp [isBegin, hk]] at hsi
    simp only [firstTurn, turn, hk]
    by_cases hname : isSectionalItem name = true
    · rw [if_pos hname] at hsi
      rw [if_pos hname, if_pos hname]
      obtain ⟨s', hs', hco⟩ := beginSection_eq h.counts (show rows.length < size by omega) c.2
      rw [hs']
      refine .ok ⟨hco, ?_, Or.inr hla, hta⟩
      rw [length_append, length_modify, length_singleton]
      omega
    · rw [if_neg hname] at hsi
      rw [if_neg hname, if_neg hname, countField, h.counts.sz_eq]
      by_cases hnil : rows = []
      · rw [if_pos hnil, if_pos (by simp [hnil])]
        exact .error _
      · rw [if_neg hnil, if_neg (by simpa using hnil), ← h.counts.sz_eq, hf, innermost]
        cases hopen : openRow rows with
        | none => exact .error _
        | some x =>
          exact .ok ⟨h.counts.field (openRow_lt hopen), by rwa [length_modify], Or.inr hla, hta⟩

end

/-! ## The second loop -/

/-- Every row has a length of its own; `pre` are its entries so far. -/
def Filled (len : Nat → Nat) (pre : Nat → List Int) (f : Filling) : Prop :=
  ∀ k, f.counts k = (pre k).length ∧ (pre k).length ≤ len k ∧
    f.rows k = pre k ++ List.replicate (len k - (pre k).length) 0

section
variable {len : Nat → Nat} {pre : Nat → List Int} {f : Filling} {x : Nat}

theorem addEntry_eq (h : Filled len pre f) (hx : (pre x).length < len x) (v : Int) :
    ∃ f', addEntry f x v = .ok f' ∧ Filled len (put pre x (pre x ++ [v])) f' ∧ f'.sz = f.sz ∧
      f'.ends = f.ends := by
  obtain ⟨hco, -, hrow⟩ := h x
  have hroom : f.counts x < (f.rows x).length := by
    rw [hco, hrow, length_append, length_replicate]
    omega
  refine ⟨_, if_pos hroom, fun k => ?_, rfl, rfl⟩
  by_cases hk : k = x
  · subst hk
    simp only [put_self, length_append, length_singleton]
    refine ⟨by rw [hco], hx, ?_⟩
    rw [hco, hrow, show len k - (pre k).length = len k - ((pre k).length + 1) +
      1 by omega, replicate_succ]
    simp
  · simp only [put_of_ne _ hk]
    exact h k

end

def fieldsAt (rows : List Row) (k : Nat) : List Nat := (rows[k]?.map Row.fields).getD []

section
variable {s : Sections} {rows final : List Row} {size x i : Nat} {f : Filling} {c : List Char × Nat}

theorem fieldsAt_modify {g : Row → Row} (hg : ∀ r, (g r).fields = r.fields) (k : Nat) :
    fieldsAt (rows.modify x g) k = fieldsAt rows k := by
  rw [fieldsAt, fieldsAt, getElem?_modify]
  cases rows[k]? with
  | none => rfl
  | some r => by_cases hx : x = k <;> simp [hx, hg]

theorem fieldsAt_close (rows : List Row) (x k : Nat) :
    fieldsAt (rows.modify x Row.close) k = fieldsAt rows k :=
  fieldsAt_modify (g := Row.close) (fun _ => rfl) k

theorem fieldsAt_child (rows : List Row) (x j k : Nat) :
    fieldsAt (rows.modify x (Row.add [] [j])) k = fieldsAt rows k :=
  fieldsAt_modify (fun r => append_nil r.fields) k

theorem fieldsAt_field (hx : x < rows.length) :
    fieldsAt (rows.modify x (Row.add [i] [])) = put (fieldsAt rows) x (fieldsAt rows x ++ [i]) := by
  funext k
  by_cases hk : k = x
  · subst hk
    simp [fieldsAt, put_self, getElem?_eq_getElem hx, Row.add]
  · rw [put_of_ne _ hk, fieldsAt, fieldsAt, getElem?_modify]
    simp [Ne.symm hk]

theorem fieldsAt_push (rows : List Row) (i k : Nat) :
    fieldsAt (rows ++ [Row.new i]) k = fieldsAt rows k := by
  rcases Nat.lt_trichotomy k rows.length with hk | rfl | hk
  · rw [fieldsAt, getElem?_append_left hk, fieldsAt]
  · simp [fieldsAt, Row.new]
  · rw [fieldsAt, fieldsAt, getElem?_eq_none (by simp; omega), getElem?_eq_none (by omega)]

theorem turn_fields {rows' : List Row} (h : turn rows c = .ok rows') (k : Nat) :
    (fieldsAt rows k).length ≤ (fieldsAt rows' k).length := by
  unfold turn at h
  split at h
  · cases h
    exact Nat.le_refl _
  · split at h
    · obtain ⟨x, -, rfl⟩ := Results.map_eq_ok h
      rw [fieldsAt_close]
    · cases h
      exact Nat.le_refl _
  · split at h
    · cases h
      rw [fieldsAt_push, fieldsAt_child]
    · split at h
      · cases h
      · obtain ⟨x, hx, rfl⟩ := Results.map_eq_ok h
        have hlt := innermost_lt hx
        rw [fieldsAt_field hlt]
        by_cases hk : k = x
        · subst hk
          simp [put_self]
        · rw [put_of_ne _ hk]

theorem Counts.counts_fieldsAt (h : Counts s rows) (k : Nat) :
    s.counts k = (fieldsAt rows k).length := by
  rw [fieldsAt]
  cases hr : rows[k]? with
  | none => exact h.counts_new k (getElem?_eq_none_iff.1 hr)
  | some r => exact h.counts_eq k r hr

/-- The start and the fields of a row. -/
def startFields (s : Sections) (rows : List Row) (k : Nat) : List Int :=
  (s.starts k : Int) :: (fieldsAt rows k).map Nat.cast

/-- The second loop follows the rows up to those the first loop ended with. -/
structure Fills (s : Sections) (size : Nat) (final : List Row) (rest : List (List Char × Nat))
    (f : Filling) (rows : List Row) :
    Prop where
  sz_eq   : f.sz = rows.length
  ends_of : EndsOf f.ends rows
  filled  : Filled (rowLength s size) (startFields s rows) f
  ends_at : rest.foldlM turn rows = .ok final
  later   : rows = [] ∨ ∀ t ∈ rest, 0 < t.2
  tail    : ∀ t ∈ rest.tail, 0 < t.2

theorem Filled.congr {len : Nat → Nat} {pre pre' : Nat → List Int} {f f' : Filling}
    (h : Filled len pre f) (hpre : pre' = pre) (hco : f'.counts = f.counts)
    (hro : f'.rows = f.rows) : Filled len pre' f' := by
  subst hpre
  unfold Filled
  rw [hco, hro]
  exact h

theorem secondTurn_rel (hs : Counts s final) {rest : List (List Char × Nat)}
    (h : Fills s size final (c :: rest) f rows) :
    Rel (Fills s size final rest) (secondTurn f c) (turn rows c) := by
  obtain ⟨rows', htu, hre⟩ := Results.exists_of_bind_ok h.ends_at
  have hla : ∀ t ∈ rest, 0 < t.2 := h.tail
  have hta : ∀ t ∈ rest.tail, 0 < t.2 := fun t ht => hla t (mem_of_mem_tail ht)
  have hf := h.ends_of.foundEnding_eq
  rw [← h.sz_eq] at hf
  have hend :=
    foldlM_invariant (P := fun r => ∀ k, (fieldsAt rows' k).length ≤ (fieldsAt r k).length)
    (fun a c a' ha hc k => Nat.le_trans (ha k) (turn_fields hc k)) (fun _ => Nat.le_refl _) hre
  rw [htu]
  cases hki : kind c.1 with
  | data =>
    simp only [secondTurn, turn, hki] at htu ⊢
    cases htu
    exact .ok ⟨h.sz_eq, h.ends_of, h.filled, hre, Or.inr hla, hta⟩
  | closing name =>
    simp only [secondTurn, turn, hki] at htu ⊢
    by_cases hname : isSectionalItem name = true
    · rw [if_pos hname] at htu ⊢
      rw [hf]
      obtain ⟨x, hx, rfl⟩ := Results.map_eq_ok htu
      have hi :=
        h.later.resolve_left
        (ne_nil_of_length_pos (Nat.zero_lt_of_lt (innermost_lt hx))) c mem_cons_self
      rw [hx]
      refine .ok ⟨by simpa using h.sz_eq, h.ends_of.close hi, h.filled.congr ?_ rfl rfl, hre,
        Or.inr hla, hta⟩
      funext k
      rw [startFields, startFields, fieldsAt_close]
    · rw [if_neg hname] at htu ⊢
      cases htu
      exact .ok ⟨h.sz_eq, h.ends_of, h.filled, hre, Or.inr hla, hta⟩
  | opening name =>
    simp only [secondTurn, turn, hki] at htu ⊢
    by_cases hname : isSectionalItem name = true
    · rw [if_pos hname] at htu ⊢
      cases htu
      have hen :=
        (@EndsOf.modify _ _ ((openRow rows).getD 0) h.ends_of (Row.add [] [rows.length])
        fun _ => rfl).push c.2
      rw [length_modify] at hen
      refine .ok ⟨by simp [h.sz_eq],
        by simpa only [h.sz_eq] using hen, h.filled.congr ?_ rfl rfl, hre, Or.inr hla, hta⟩
      funext k
      rw [startFields, startFields, fieldsAt_push, fieldsAt_child]
    · rw [if_neg hname] at htu ⊢
      by_cases hnil : rows = []
      · rw [if_pos hnil] at htu
        cases htu
      · rw [if_neg hnil] at htu
        rw [if_neg (by simpa [h.sz_eq] using hnil), hf]
        obtain ⟨x, hx, rfl⟩ := Results.map_eq_ok htu
        have hlt := innermost_lt hx
        have hroom : (startFields s rows x).length < rowLength s size x := by
          have := hend x
          rw [fieldsAt_field hlt, put_self, length_append, length_singleton] at this
          rw [rowLength, hs.counts_fieldsAt]
          simp only [startFields, length_cons, length_map]
          omega
        obtain ⟨f', hf', hfi, hsz, hen⟩ := addEntry_eq h.filled hroom c.2
        rw [hx]
        show Rel _ (addEntry f x c.2) _
        rw [hf']
        refine .ok ⟨by simp [hsz, h.sz_eq], ?_, hfi.congr ?_ rfl rfl, hre, Or.inr hla, hta⟩
        · rw [hen]
          exact h.ends_of.modify fun _ => rfl
        · funext k
          by_cases hk : k = x
          · subst hk
            simp [startFields, fieldsAt_field hlt, put_self]
          · simp [startFields, fieldsAt_field hlt, put_of_ne _ hk]

/-- The children of section `k` among the first `m` sections. -/
def childEntries (s : Sections) (m k : Nat) : List Int :=
  ((List.range m).filter fun j => s.parents j = some k).map fun (j : Nat) => -(j : Int)

theorem childEntries_succ (s : Sections) (m k : Nat) :
    childEntries s (m + 1) k = childEntries s m k ++ if s.parents m = some k then [-(m : Int)]
      else [] := by
  rw [childEntries, range_succ, filter_append, map_append]
  by_cases hk : s.parents m = some k <;> simp [childEntries, hk]

theorem length_childEntries_le (hm : m ≤ size) (s : Sections) (k : Nat) :
    (childEntries s m k).length ≤ (List.range size).countP fun j => s.parents j = some k := by
  rw [childEntries, length_map, ← countP_eq_length_filter]
  exact (range_sublist.2 hm).countP_le

theorem addChildren_eq (hs : Counts s final) (h : Filled (rowLength s size) (startFields s final) f)
    (hm : m ≤ size) :
    ∃ f', addChildren s.parents m f = .ok f' ∧
      Filled (rowLength s size) (fun k => startFields s final k ++ childEntries s m k) f' := by
  induction m with
  | zero => exact ⟨f, rfl, h.congr (by simp [childEntries]) rfl rfl⟩
  | succ m ih =>
    obtain ⟨f', hf', hfi⟩ := ih (by omega)
    rw [addChildren] at hf' ⊢
    rw [range_succ, foldlM_append, hf']
    cases hpa : s.parents m with
    | none =>
      refine ⟨f', by simp [hpa, bind, Except.bind, pure, Except.pure], hfi.congr ?_ rfl rfl⟩
      funext k
      simp [childEntries_succ, hpa]
    | some x =>
      have hroom : (startFields s final x ++ childEntries s m x).length < rowLength s size x := by
        have hle := length_childEntries_le hm s x
        rw [childEntries_succ, if_pos hpa, length_append, length_singleton] at hle
        rw [rowLength, hs.counts_fieldsAt, length_append]
        simp only [startFields, length_cons, length_map]
        omega
      obtain ⟨f'', hf'', hfi', -, -⟩ := addEntry_eq hfi hroom (-(m : Int))
      refine ⟨f'', by simp [hpa, hf'', bind, Except.bind, pure, Except.pure], hfi'.congr ?_ rfl rfl⟩
      funext k
      by_cases hk : k = x
      · subst hk
        simp [childEntries_succ, hpa, put_self]
      · simp [childEntries_succ, hpa, put_of_ne _ hk, Ne.symm hk]

theorem rows_eq (hs : Counts s final)
    (h : Filled (rowLength s final.length)
      (fun k => startFields s final k ++ childEntries s final.length k) f) :
    (List.range final.length).map f.rows = final.map Row.entries := by
  refine ext_getElem (by simp) fun k hk _ => ?_
  have hk : k < final.length := by simpa using hk
  have hr := getElem?_eq_getElem hk
  obtain ⟨-, -, hrow⟩ := h k
  have hf :
      rowLength s final.length k - (startFields s final k ++ childEntries s final.length k).length =
      0 := by
    rw [rowLength, hs.counts_fieldsAt, countP_eq_length_filter]
    simp only [startFields, childEntries, length_append, length_cons, length_map]
    omega
  rw [hf, replicate_zero, append_nil] at hrow
  simp only [getElem_map, getElem_range, hrow]
  rw [startFields, childEntries, ← hs.children_eq k _ hr, hs.starts_eq k _ hr, fieldsAt, hr]
  rfl

end

theorem counts_init : Counts Sections.init [] := by
  refine ⟨rfl, ?_, ?_, ?_, fun _ _ => rfl, ?_, ?_, fun _ _ => rfl⟩
  · intro k r hr
    cases hr
  · intro k r hr
    cases hr
  · intro k r hr
    cases hr
  · intro k r hr
    cases hr
  · intro j hj
    cases hj

theorem filled_init (s : Sections) (size : Nat) :
    Filled (rowLength s size) (startFields s []) (Filling.init s size) := by
  intro k
  simp only [Filling.init, rowLength, replicate_succ, set_cons_zero]
  simp [startFields, fieldsAt]

/-- **The two loops and the loop over the children give the rows.** -/
theorem loops_eq {part : List (List Char × Nat)} {size : Nat} (hta : ∀ t ∈ part.tail, 0 < t.2)
    (hsi : part.countP (fun t => isBegin t.1) = size) :
    ((part.foldlM (firstTurn size) Sections.init).bind fun s =>
      if s.sz ≠ size then .error .badParam
      else
        (part.foldlM secondTurn (Filling.init s size)).bind fun f =>
          (addChildren s.parents size f).map fun f => (List.range size).map f.rows) =
      (part.foldlM turn []).map (List.map Row.entries) := by
  have hst : Tracks size part Sections.init [] := ⟨counts_init, by simpa using hsi, Or.inl rfl, hta⟩
  have hfi :=
    Rel.foldlM (f := firstTurn size) (g := turn) (Tracks size)
    (fun _ _ _ _ h => firstTurn_rel h) hst
  generalize hs : part.foldlM (firstTurn size) Sections.init = first at hfi
  generalize hro : part.foldlM turn [] = rows at hfi
  cases hfi with
  | error e => rfl
  | @ok s final h =>
    have hlen : final.length = size := by simpa using h.size_eq
    have hfill : Fills s size final part (Filling.init s size) [] :=
      ⟨rfl, fun k r hr => (by cases hr), filled_init s size, hro, Or.inl rfl, hta⟩
    have hse :=
      Rel.foldlM (f := secondTurn) (g := turn) (Fills s size final)
      (fun _ _ _ _ h' => secondTurn_rel h.counts h') hfill
    rw [hro] at hse
    generalize hf : part.foldlM secondTurn (Filling.init s size) = second at hse
    cases hse with
    | @ok f _ h' =>
      obtain ⟨f', hf', hfil⟩ := addChildren_eq h.counts h'.filled (Nat.le_refl size)
      subst hlen
      simp only [Except.bind, h.counts.sz_eq, ne_eq, not_true, if_false, hf, hf', Except.map,
        rows_eq h.counts hfil]

end Sensys.Cfgi
