import Sensys.Orte.Extract
/-!
# What a node list is

The form of a node list, as a syntax of its own: items between commas, an item a name or
`prefix[d:r1,r2,...]suffix`, a range a number or `lo-hi`. On texts whose `[`, `:` and `]` are in
place the program is not strict: it takes `a[1:x5y-7]` for `a[1:5-7]` and finds no names in
`a[1:]`.

A range that ends at 0 leaves `ERANGE` in `errno`, and then no number is read any more:
`a[1:0],b[1:1]` is of the form and is refused. What `errno` does to the reading depends on the
ends of the ranges only (`Reads`).
-/
namespace Sensys.Orte
open Text Results List

/-- A number, or two. -/
inductive Range where
  | one (n : Text)
  | pair (lo hi : Text)
deriving DecidableEq, Repr

namespace Range

def text : Range → Text
  | one n => n
  | pair lo hi => lo ++ '-' :: hi

def lo : Range → Nat
  | one n => digitsValue n
  | pair lo _ => digitsValue lo

def hi : Range → Nat
  | one n => digitsValue n
  | pair _ hi => digitsValue hi

def Shaped : Range → Prop
  | one n => IsNumber n
  | pair lo hi => IsNumber lo ∧ IsNumber hi

instance : (r : Range) → Decidable r.Shaped
  | one n => inferInstanceAs (Decidable (IsNumber n))
  | pair _ _ => inferInstanceAs (Decidable (_ ∧ _))

/-- The program can hold both numbers, they ascend, and `d` digits are enough. -/
def Ok (L : Libc) (d : Nat) (r : Range) : Prop :=
  r.lo ≤ longMax ∧ r.hi ≤ longMax ∧ r.lo ≤ r.hi ∧ L.Fits d r.hi
deriving Decidable

end Range

inductive Item where
  | name (t : Text)
  | ranges (pre digits : Text) (rs : List Range) (suffix : Text)
deriving DecidableEq, Repr

namespace Item

def text : Item → Text
  | name t => t
  | ranges pre digits rs suffix =>
    pre ++ '[' :: digits ++ ':' :: commas (rs.map Range.text) ++ ']' :: suffix

/-- The names an item stands for. -/
def names : Item → List Text
  | name t => [t]
  | ranges pre digits rs suffix =>
    rs.flatMap fun r => rangeNames pre suffix (digitsValue digits) r.lo r.hi

def Shaped : Item → Prop
  | name t => t ≠ [] ∧ ∀ c ∈ t, inBase c = true
  | ranges pre digits rs suffix =>
    (pre ≠ [] ∧ ∀ c ∈ pre, inBase c = true) ∧
      (IsNumber digits ∧ 0 < digitsValue digits ∧ digitsValue digits < 2 ^ 31) ∧
      (rs ≠ [] ∧ ∀ r ∈ rs, r.Shaped) ∧ ∀ c ∈ suffix, inBase c = true

instance : (x : Item) → Decidable x.Shaped
  | name _ => inferInstanceAs (Decidable (_ ∧ _))
  | ranges _ _ _ _ => inferInstanceAs (Decidable (_ ∧ _ ∧ _ ∧ _))

def Ok (L : Libc) : Item → Prop
  | name _ => True
  | ranges _ digits rs _ => ∀ r ∈ rs, r.Ok L (digitsValue digits)

instance (L : Libc) : (x : Item) → Decidable (x.Ok L)
  | name _ => inferInstanceAs (Decidable True)
  | ranges _ _ _ _ => inferInstanceAs (Decidable (∀ r ∈ _, _))

/-- The numbers its ranges end at. -/
def stops : Item → List Nat
  | name _ => []
  | ranges _ _ rs _ => rs.map Range.hi

end Item

/-- The ends of the ranges, if `errno` lets the program read them: only the last is 0, and there
are none if `errno` is `ERANGE` already. -/
def ZeroLast (erange : Bool) (stops : List Nat) : Prop :=
  (erange = true → stops = []) ∧ 0 ∉ stops.dropLast
deriving Decidable

/-- A list of items of the form, with numbers the program can hold. -/
def NodeList (L : Libc) (erange : Bool) (items : List Item) : Prop :=
  items ≠ [] ∧ (∀ x ∈ items, x.Shaped ∧ x.Ok L) ∧ ZeroLast erange (items.flatMap Item.stops)

instance (L : Libc) (erange : Bool) (items : List Item) : Decidable (NodeList L erange items) :=
  inferInstanceAs (Decidable (_ ∧ _ ∧ _))

/-- Items of the form that end at no 0, and behind their commas an item with `[`, `:` and `]` in
place that is not of the form: the digits are no number from 1 to `INT_MAX`, or the ranges are not
numbers and pairs between commas, or there is a bracket behind the closing one. -/
def LooseBracket (L : Libc) (erange : Bool) (s : Text) : Prop :=
  ∃ (items : List Item) (pre digits ranges suffix : Text) (rest : Option Text),
    (∀ x ∈ items, x.Shaped ∧ x.Ok L) ∧ erange = false ∧ 0 ∉ items.flatMap Item.stops ∧
      (pre ≠ [] ∧ ∀ c ∈ pre, inBase c = true) ∧ ':' ∉ digits ∧
      ']' ∉ ranges ∧ ',' ∉ suffix ∧ suffix.head? ≠ some '[' ∧
      s = (items.map fun x => x.text ++ [',']).flatten ++
        (pre ++ '[' :: digits ++ ':' :: ranges ++ ']' :: suffix ++ behind rest) ∧
      ¬∃ rs, ranges = commas (rs.map Range.text) ∧ (Item.ranges pre digits rs suffix).Shaped

/-! ## Reading with `errno` -/

/-- `errno == ERANGE` behind ranges with these ends, if they can be read. -/
def settle (erange : Bool) (stops : List Nat) : Option Bool :=
  stops.foldlM (fun erange n => if erange then none else some (n = 0)) erange

section
variable {α β : Type} {x : Reading α} {f : α → Reading β} {a : α} {b : β} {n : Nat}
  {stops stops' : List Nat}
  {erange : Bool}

@[simp] theorem settle_nil : settle erange [] = some erange := rfl

@[simp] theorem settle_cons :
    settle erange (n :: stops) = if erange then none else settle (n = 0) stops := by
  unfold settle
  rw [foldlM_cons]
  cases erange <;> rfl

theorem settle_append :
    settle erange (stops ++ stops') = (settle erange stops).bind fun erange =>
      settle erange stops' :=
  foldlM_append

theorem settle_isSome_iff : (settle erange stops).isSome ↔ ZeroLast erange stops := by
  induction stops generalizing erange with
  | nil => simp [ZeroLast]
  | cons n stops ih =>
    rw [settle_cons]
    cases erange with
    | true => simp [ZeroLast]
    | false =>
      simp only [Bool.false_eq_true, if_false, ih]
      cases stops with
      | nil => simp [ZeroLast]
      | cons m stops =>
        simp only [ZeroLast, dropLast_cons_cons, mem_cons, decide_eq_true_eq]
        grind

theorem settle_eq_false_iff : settle erange stops = some false ↔ erange = false ∧ 0 ∉ stops := by
  induction stops generalizing erange with
  | nil => simp
  | cons n stops ih =>
    rw [settle_cons]
    cases erange <;> simp [ih]
    grind

/-- Reads `a`, from ranges with these ends, unless `errno` is in the way. -/
def Reads (x : Reading α) (stops : List Nat) (a : α) : Prop :=
  ∀ erange,
    match settle erange stops with
    | some erange' => x erange = (.ok a, erange')
    | none => (x erange).1 = .error .badParam

def Refuses (x : Reading α) : Prop := ∀ erange, (x erange).1 = .error .badParam

theorem bind_error {e : Failure} (h : (x erange).1 = .error e) :
    ((x >>= f) erange).1 = .error e := by
  rw [bind_apply]
  rcases hx : x erange with ⟨_ | _, _⟩ <;> simp_all

theorem bind_ok {erange' : Bool} (h : x erange = (.ok a, erange')) :
    (x >>= f) erange = f a erange' := by
  rw [bind_apply, h]

theorem Reads.pure (a : α) : Reads (pure a) [] a := fun _ => rfl

theorem Refuses.throw : Refuses (throw .badParam : Reading α) := fun _ => rfl

theorem Reads.bind (hx : Reads x stops a) (hf : Reads (f a) stops' b) :
    Reads (x >>= f) (stops ++ stops') b := by
  intro erange
  have hx := hx erange
  rw [settle_append]
  cases hs : settle erange stops with
  | none =>
    rw [hs] at hx
    exact bind_error hx
  | some erange' =>
    rw [hs] at hx
    rw [bind_ok hx]
    exact hf erange'

theorem Reads.map (hx : Reads x stops a) (g : α → β) : Reads (g <$> x) stops (g a) := by
  have h := hx.bind (f := fun a => Pure.pure (g a)) (Reads.pure (g a))
  rwa [append_nil, ← map_eq_pure_bind] at h

theorem Refuses.bind (hx : Refuses x) : Refuses (x >>= f) := fun erange => bind_error (hx erange)

theorem Reads.refuses (hx : Reads x stops a) (hf : Refuses (f a)) : Refuses (x >>= f) := by
  intro erange
  have hx := hx erange
  cases hs : settle erange stops with
  | none =>
    rw [hs] at hx
    exact bind_error hx
  | some erange' =>
    rw [hs] at hx
    rw [bind_ok hx]
    exact hf erange'

theorem Refuses.map (hx : Refuses x) (g : α → β) : Refuses (g <$> x) := by
  rw [map_eq_pure_bind]
  exact hx.bind

theorem checkErrno_bind_apply (m : Int) (x : Reading α) (erange : Bool) :
    (checkErrno m >>= fun _ => x) erange =
      if erange ∨ m < -(longMax + 1) ∨ longMax < m then (.error .badParam, true) else x false := by
  rw [bind_apply, checkErrno]
  split_ifs <;> rfl

/-- A number that fits is read where the ends behind it can be. -/
theorem Reads.check {m : Int} (hm : -(longMax + 1) ≤ m ∧ m ≤ longMax) (hx : Reads x stops a)
    (hne : stops ≠ []) :
    Reads (checkErrno m >>= fun _ => x) stops a := by
  intro erange
  have hx := hx erange
  obtain ⟨n, stops, rfl⟩ := exists_cons_of_ne_nil hne
  rw [checkErrno_bind_apply]
  cases erange with
  | true => simp
  | false =>
    rw [if_neg (by simp; omega)]
    exact hx

theorem Refuses.check (hx : Refuses x) (m : Int) : Refuses (checkErrno m >>= fun _ => x) := by
  intro erange
  rw [checkErrno_bind_apply]
  split
  · rfl
  · exact hx false

/-- A run over a list, of which each step reads. -/
theorem Reads.mapM {f : α → Reading β} {l : List α} {st : α → List Nat} {g : α → β}
    (h : ∀ a ∈ l, Reads (f a) (st a) (g a)) : Reads (l.mapM f) (l.flatMap st) (l.map g) := by
  induction l with
  | nil => exact Reads.pure []
  | cons a l ih =>
    rw [mapM_cons, flatMap_cons, map_cons]
    refine (h a mem_cons_self).bind ?_
    rw [← append_nil (l.flatMap st)]
    exact (ih (forall_mem_cons.1 h).2).bind (Reads.pure _)

/-- A run over a list in which every step reads or is refused. -/
theorem Refuses.mapM {f : α → Reading β} {l : List α}
    (h : ∀ a ∈ l, (∃ stops b, Reads (f a) stops b) ∨ Refuses (f a))
    (hbad : ∃ a ∈ l, Refuses (f a)) :
    Refuses (l.mapM f) := by
  induction l with
  | nil => obtain ⟨a, ha, _⟩ := hbad; cases ha
  | cons a l ih =>
    rw [mapM_cons]
    by_cases ha : Refuses (f a)
    · exact ha.bind
    · obtain ⟨stops, b, hb⟩ := (h a mem_cons_self).resolve_right ha
      obtain ⟨x, hx, hbx⟩ := hbad
      rcases mem_cons.1 hx with rfl | hx
      · exact absurd hbx ha
      · exact hb.refuses (ih (forall_mem_cons.1 h).2 ⟨x, hx, hbx⟩).bind

end

/-! ## Reading an item of the form -/

variable {c : Char} {r : Range}

theorem Range.Shaped.notMem (h : r.Shaped) (hc : c.isDigit = false) (hne : c ≠ '-') :
    c ∉ r.text := by
  intro hm
  cases r with
  | one n =>
    have := h.2 c hm
    simp [hc] at this
  | pair lo hi =>
    rcases mem_append.1 hm with hm | hm
    · have := h.1.2 c hm
      simp [hc] at this
    · rcases mem_cons.1 hm with hm | hm
      · exact hne hm
      · have := h.2.2 c hm
        simp [hc] at this

theorem Range.Shaped.text_ne_nil (h : r.Shaped) : r.text ≠ [] := by
  cases r with
  | one n => exact h.1
  | pair lo hi => simp [Range.text]

theorem toInt_ofInt_of_lt {n : Nat} (h : n < 2 ^ 31) : (BitVec.ofInt 32 (n : Int)).toInt = n := by
  rw [BitVec.toInt_ofInt]
  exact Int.bmod_eq_of_le (by omega) (by omega)

section
variable {L : Libc} {pre suffix : Text} {d : Nat}

/-- Both numbers are read first, and what is left does not look at `errno`. -/
theorem parseNodeRange_apply (hr : r.Shaped) (erange : Bool) :
    parseNodeRange L pre d suffix r.text erange =
      if erange ∨ longMax < r.lo ∨ longMax < r.hi then (.error .badParam, true)
      else expandRange L pre d suffix r.lo r.hi false := by
  have hneg : ∀ n : Nat, ¬ (n : Int) < -(longMax + 1) := fun n => by omega
  cases r with
  | one n =>
    have h := @parseNodeRange_one L pre suffix [] n d (by simp) hr
    rw [nil_append] at h
    rw [Range.text, h, checkErrno_bind_apply]
    simp only [Range.lo, Range.hi, hneg, false_or, Int.ofNat_lt, or_self]
  | pair lo hi =>
    have h :=
      @parseNodeRange_pair L pre suffix [] lo d ['-'] hi (by simp) hr.1 (by simp) (by simp) hr.2
    rw [nil_append] at h
    rw [Range.text, ← singleton_append, h, checkErrno_bind_apply, checkErrno_bind_apply]
    simp only [Range.lo, Range.hi, hneg, false_or, Int.ofNat_lt, Bool.false_eq_true]
    split_ifs <;> grind

theorem parseNodeRange_shaped (hL : L.Sound) (hd : 0 < d) (hr : r.Shaped) :
    (r.Ok L d → Reads (parseNodeRange L pre d suffix r.text) [r.hi]
      (rangeNames pre suffix d r.lo r.hi)) ∧
      (¬ r.Ok L d → Refuses (parseNodeRange L pre d suffix r.text)) := by
  refine ⟨?_, ?_⟩
  · rintro ⟨h1, h2, h3, h4⟩ erange
    rw [parseNodeRange_apply hr]
    cases erange with
    | true => simp
    | false =>
      rw [if_neg (by simp [h1, h2]), expandRange_eq hL _ _ hd, if_pos ⟨h3, h4⟩]
      simp [h3]
  · intro hno erange
    rw [parseNodeRange_apply hr, expandRange_eq hL _ _ hd]
    split
    · rfl
    · rename_i hbig
      rw [if_neg fun h => hno ⟨by omega, by omega, h.1, h.2⟩]

theorem parseNodeRanges_shaped (hL : L.Sound) (hd : 0 < d) {rs : List Range}
    (hne : rs ≠ []) (hrs : ∀ r ∈ rs, r.Shaped) :
    ((∀ r ∈ rs, r.Ok L d) → Reads (parseNodeRanges L pre d suffix (commas (rs.map Range.text)))
        (rs.map Range.hi) (rs.flatMap fun r => rangeNames pre suffix d r.lo r.hi)) ∧
      ((¬∀ r ∈ rs, r.Ok L d) →
      Refuses (parseNodeRanges L pre d suffix (commas (rs.map Range.text)))) := by
  have hpi : pieces (commas (rs.map Range.text)) = rs.map Range.text := by
    refine pieces_commas (by simpa using hne) fun t ht => ?_
    obtain ⟨r, hr, rfl⟩ := mem_map.1 ht
    exact ⟨(hrs r hr).text_ne_nil, (hrs r hr).notMem (by decide) (by decide)⟩
  unfold parseNodeRanges
  rw [hpi, mapM_map]
  constructor
  · intro hok
    have hall : ∀ r ∈ rs, Reads ((parseNodeRange L pre d suffix ∘ Range.text) r) [r.hi]
        (rangeNames pre suffix d r.lo r.hi) :=
      fun r hr => (parseNodeRange_shaped hL hd (hrs r hr)).1 (hok r hr)
    have h := (Reads.mapM hall).map List.flatten
    rwa [← map_eq_flatMap] at h
  · intro hno
    obtain ⟨r, hr, hbad⟩ : ∃ r ∈ rs, ¬ r.Ok L d := by simpa using hno
    refine Refuses.map (Refuses.mapM (fun x hx => ?_)
      ⟨r, hr, (parseNodeRange_shaped hL hd (hrs r hr)).2 hbad⟩) _
    by_cases hx' : x.Ok L d
    · exact Or.inl ⟨_, _, (parseNodeRange_shaped hL hd (hrs x hx)).1 hx'⟩
    · exact Or.inr ((parseNodeRange_shaped hL hd (hrs x hx)).2 hx')

end

theorem IsNumber.notMem {t : Text} (h : IsNumber t) (hc : c.isDigit = false) : c ∉ t := by
  intro hm
  have := h.2 c hm
  simp [hc] at this

theorem notMem_of_inBase {t : Text} (h : ∀ c ∈ t, inBase c = true) (hc : inBase c = false) :
    c ∉ t := by
  intro hm
  have := h c hm
  simp [hc] at this

variable {L : Libc} {x : Item} {items : List Item}

/-- An item of the form is read up to its comma: its names if the program can hold its numbers, an
error if not. -/
theorem extractItem_shaped (hL : L.Sound) (hx : x.Shaped) (rest : Option Text) :
    (x.Ok L → Reads (extractItem L (x.text ++ behind rest)) x.stops (x.names, rest)) ∧
      (¬ x.Ok L → Refuses (extractItem L (x.text ++ behind rest))) := by
  cases x with
  | name t =>
    refine ⟨fun _ => ?_, fun hno => absurd trivial hno⟩
    rw [Item.text, extractItem_name L hx.1 hx.2 rest]
    exact Reads.pure _
  | ranges pre digits rs suffix =>
    obtain ⟨⟨hne, hpre⟩, ⟨hnum, hpos, hint⟩, ⟨hrne, hrs⟩, hsu⟩ := hx
    have hopen : suffix.head? ≠ some '[' := by
      intro hh
      exact notMem_of_inBase hsu (by decide) (mem_of_mem_head? hh)
    have hbr := extractItem_bracket L hne hpre (hnum.notMem (by decide))
      (notMem_commas (c := ']') (fun t ht => by
        obtain ⟨r, hr, rfl⟩ := mem_map.1 ht
        exact (hrs r hr).notMem (by decide) (by decide)) (by decide))
      (notMem_of_inBase hsu (by decide)) hopen rest
    rw [strtol_number hnum, toInt_ofInt_of_lt hint] at hbr
    have hfit : -((longMax : Int) + 1) ≤ digitsValue digits ∧
        (digitsValue digits : Int) ≤ longMax := by
      simp only [longMax]
      omega
    obtain ⟨hok, hbad⟩ := @parseNodeRanges_shaped L pre suffix _ hL hpos rs hrne hrs
    rw [Item.text, hbr]
    exact ⟨fun h => ((hok h).map _).check hfit (by simpa [Item.stops] using hrne),
      fun h => ((hbad h).map _).check _⟩

theorem extractNodeNames_items (hL : L.Sound) (hne : items ≠ [])
    (h : ∀ x ∈ items, x.Shaped ∧ x.Ok L) :
    Reads (extractNodeNames L (commas (items.map Item.text))) (items.flatMap Item.stops)
      (items.flatMap Item.names) := by
  induction items with
  | nil => exact absurd rfl hne
  | cons x items ih =>
    obtain ⟨⟨hx, hok⟩, hrest⟩ := forall_mem_cons.1 h
    rw [map_cons, commas_cons, extractNodeNames_eq]
    refine ((extractItem_shaped hL hx _).1 hok).bind ?_
    by_cases hit : items = []
    · subst hit
      simpa using Reads.pure x.names
    · rw [if_neg (by simpa using hit)]
      exact (ih hit hrest).map (x.names ++ ·)

/-! ## Every other text -/

theorem inBase_eq_false (h : inBase c = false) : c = '[' ∨ c = ',' ∨ c = ']' := by
  unfold inBase at h
  by_contra hc
  simp at h hc
  exact hc.2.2 (h hc.1 hc.2.1)

/-- The text behind a comma, or behind nothing. -/
theorem eq_behind_of_dropWhile (t : Text) : ∃ rest, t.dropWhile (· ≠ ',') = behind rest := by
  cases h : t.dropWhile (· ≠ ',') with
  | nil => exact ⟨none, rfl⟩
  | cons c more =>
    have hc := (dropWhile_eq_cons h).2
    exact ⟨some more, by simpa [behind] using hc⟩

theorem notMem_takeWhile_ne (t : Text) (c : Char) : c ∉ t.takeWhile (· ≠ c) := by
  intro hm
  have := mem_takeWhile_imp hm
  simp at this

/-- How a text starts, as the scan of the program sees it. -/
inductive Start (L : Libc) (s : Text) : Prop
  /-- With an item of the form. -/
  | item (x : Item) (rest : Option Text) (hs : s = x.text ++ behind rest) (hx : x.Shaped)
  /-- With brackets in place that hold something else. -/
  | brackets (pre digits ranges suffix : Text) (rest : Option Text)
      (hpre : pre ≠ [] ∧ ∀ c ∈ pre, inBase c = true) (hdigits : ':' ∉ digits)
      (hranges : ']' ∉ ranges) (hsuffix : ',' ∉ suffix) (hopen : suffix.head? ≠ some '[')
      (hs : s = pre ++ '[' :: digits ++ ':' :: ranges ++ ']' :: suffix ++ behind rest)
      (hno : ¬∃ rs, ranges = commas (rs.map Range.text) ∧
        (Item.ranges pre digits rs suffix).Shaped)
  /-- With something that is refused at once. -/
  | refused (h : Refuses (extractItem L s))

section
variable {s rest : Text} (hname : s.takeWhile inBase ≠ [])
include hname

theorem start_brackets {afterColon afterBracket : Text}
    (hd : s.dropWhile inBase = '[' :: rest) (hco : rest.dropWhile (· ≠ ':') = ':' :: afterColon)
    (hcl : afterColon.dropWhile (· ≠ ']') = ']' :: afterBracket)
    (hopen : afterBracket.head? ≠ some '[') : Start L s := by
  have hpl : ∀ c ∈ s.takeWhile inBase, inBase c = true := fun c hc => mem_takeWhile_imp hc
  obtain ⟨more, hm⟩ := eq_behind_of_dropWhile afterBracket
  have hsu : (afterBracket.takeWhile (· ≠ ',')).head? ≠ some '[' := by
    rw [head?_takeWhile]
    intro hf
    exact hopen (Option.filter_eq_some_iff.1 hf).1
  have hte : s = s.takeWhile inBase ++ '[' :: rest.takeWhile (· ≠ ':') ++
      ':' :: afterColon.takeWhile (· ≠ ']') ++ ']' :: afterBracket.takeWhile (· ≠ ',') ++
      behind more := by
    rw [← hm, append_assoc, cons_append, takeWhile_append_dropWhile, append_assoc, cons_append,
      ← hcl, takeWhile_append_dropWhile, append_assoc, cons_append, ← hco,
      takeWhile_append_dropWhile, ← hd, takeWhile_append_dropWhile]
  by_cases hfo : ∃ rs, afterColon.takeWhile (· ≠ ']') = commas (rs.map Range.text) ∧
      (Item.ranges (s.takeWhile inBase) (rest.takeWhile (· ≠ ':')) rs
        (afterBracket.takeWhile (· ≠ ','))).Shaped
  · obtain ⟨rs, hrs, hsh⟩ := hfo
    refine .item _ more ?_ hsh
    rw [Item.text, ← hrs]
    exact hte
  · exact .brackets _ _ _ _ more ⟨hname, hpl⟩ (notMem_takeWhile_ne _ _) (notMem_takeWhile_ne _ _)
      (notMem_takeWhile_ne _ _) hsu hte hfo

theorem start_of_bracket (hd : s.dropWhile inBase = '[' :: rest) : Start L s := by
  cases hco : rest.dropWhile (· ≠ ':') with
  | nil =>
    refine .refused ?_
    unfold extractItem
    simp only [hname, hd, hco, if_false]
    exact Refuses.throw
  | cons c afterColon =>
    obtain rfl : c = ':' := by simpa using (dropWhile_eq_cons hco).2
    cases hcl : afterColon.dropWhile (· ≠ ']') with
    | nil =>
      refine .refused ?_
      unfold extractItem
      simp only [hname, hd, hco, hcl, if_false]
      exact Refuses.throw.check _
    | cons c afterBracket =>
      obtain rfl : c = ']' := by simpa using (dropWhile_eq_cons hcl).2
      by_cases hopen : afterBracket.head? = some '['
      · refine .refused ?_
        unfold extractItem
        simp only [hname, hd, hco, hcl, hopen, if_true, if_false]
        exact Refuses.throw.check _
      · exact start_brackets hname hd hco hcl hopen

end

theorem extractItem_cases (L : Libc) (s : Text) : Start L s := by
  by_cases hname : s.takeWhile inBase = []
  · refine .refused ?_
    unfold extractItem
    simp only [hname, if_true]
    exact Refuses.throw
  have hpl : ∀ c ∈ s.takeWhile inBase, inBase c = true := fun c hc => mem_takeWhile_imp hc
  have hsp : s = s.takeWhile inBase ++ s.dropWhile inBase := takeWhile_append_dropWhile.symm
  cases hd : s.dropWhile inBase with
  | nil =>
    rw [hd] at hsp
    exact .item (.name (s.takeWhile inBase)) none hsp ⟨hname, hpl⟩
  | cons c rest =>
    rcases inBase_eq_false (dropWhile_eq_cons hd).2 with rfl | rfl | rfl
    · exact start_of_bracket hname hd
    · rw [hd] at hsp
      exact .item (.name (s.takeWhile inBase)) (some rest) hsp ⟨hname, hpl⟩
    · refine .refused ?_
      unfold extractItem
      simp only [hname, hd, if_false]
      exact Refuses.throw

variable {erange erange' : Bool}

theorem zeroLast_append (hs : settle erange x.stops = some erange') :
    ZeroLast erange ((x :: items).flatMap Item.stops) ↔
      ZeroLast erange' (items.flatMap Item.stops) := by
  rw [← settle_isSome_iff, flatMap_cons, settle_append, hs, Option.bind_some, settle_isSome_iff]

/-- What is true of a text behind its first item is true of the text. -/
theorem NodeList.cons (hx : x.Shaped ∧ x.Ok L) (hs : settle erange x.stops = some erange')
    (h : NodeList L erange' items) : NodeList L erange (x :: items) ∧
      commas ((x :: items).map Item.text) = x.text ++ ',' :: commas (items.map Item.text) := by
  refine ⟨⟨cons_ne_nil _ _, forall_mem_cons.2 ⟨hx, h.2.1⟩, (zeroLast_append hs).2 h.2.2⟩, ?_⟩
  rw [map_cons, commas_cons, if_neg (by simpa using h.1), behind]

theorem LooseBracket.cons (hx : x.Shaped ∧ x.Ok L) (hs : settle erange x.stops = some erange')
    {s : Text} (h : LooseBracket L erange' s) : LooseBracket L erange (x.text ++ ',' :: s) := by
  obtain ⟨items, pre, digits, ranges, suffix, rest, hit, he, hz, hpre, hd, hr, hsu,
    hopen, rfl, hf⟩ := h
  subst he
  obtain ⟨he, hxz⟩ := settle_eq_false_iff.1 hs
  refine ⟨x :: items, pre, digits, ranges, suffix, rest, forall_mem_cons.2 ⟨hx, hit⟩, he, ?_, hpre,
    hd, hr, hsu, hopen, ?_, hf⟩
  · rw [flatMap_cons, mem_append, not_or]
    exact ⟨hxz, hz⟩
  · simp

/-- By the length of the text: the first item is of the form and readable, and the rest is
refused; or the first item is refused. -/
theorem extractNodeNames_other (hL : L.Sound) (erange : Bool) (s : Text)
    (hf : ¬∃ items, NodeList L erange items ∧ s = commas (items.map Item.text))
    (hloo : ¬ LooseBracket L erange s) : (extractNodeNames L s erange).1 = .error .badParam := by
  rw [extractNodeNames_eq]
  cases extractItem_cases L s with
  | item x rest hs hx =>
    by_cases hok : x.Ok L
    · have hre := (extractItem_shaped hL hx rest).1 hok erange
      rw [← hs] at hre
      cases hst : settle erange x.stops with
      | none =>
        rw [hst] at hre
        exact bind_error hre
      | some erange' =>
        rw [hst] at hre
        rw [bind_ok hre]
        cases rest with
        | none =>
          have hz : ZeroLast erange ([x].flatMap Item.stops) := by
            rw [← settle_isSome_iff]
            simp [hst]
          refine absurd ⟨[x], ⟨by simp, by simpa using ⟨hx, hok⟩, hz⟩, ?_⟩ hf
          simpa [behind, commas] using hs
        | some more =>
          have hlt : more.length < s.length := by rw [hs]; simp [behind]; omega
          have hmore : (extractNodeNames L more erange').1 = .error .badParam := by
            refine extractNodeNames_other hL erange' more ?_ fun hl => ?_
            · rintro ⟨items, hit, rfl⟩
              obtain ⟨h1, h2⟩ := NodeList.cons ⟨hx, hok⟩ hst hit
              exact hf ⟨x :: items, h1, hs.trans h2.symm⟩
            · rw [hs] at hloo
              exact hloo (hl.cons ⟨hx, hok⟩ hst)
          simp only [map_eq_pure_bind]
          exact bind_error hmore
    · have hre := (extractItem_shaped hL hx rest).2 hok
      rw [← hs] at hre
      exact hre.bind erange
  | brackets pre digits ranges suffix rest hpre hdigits hranges hsuffix hopen hs hno =>
    cases erange with
    | true =>
      -- the digits are not read any more
      rw [hs, extractItem_bracket L hpre.1 hpre.2 hdigits hranges hsuffix hopen]
      refine bind_error ?_
      rw [checkErrno_bind_apply]
      rfl
    | false =>
      exact absurd ⟨[], pre, digits, ranges, suffix, rest, by simp, rfl, by simp, hpre, hdigits,
        hranges, hsuffix, hopen, by simpa using hs, hno⟩ hloo
  | refused herr => exact herr.bind erange
termination_by s.length

/-- A C library whose logarithm is exact. -/
def sampleLibc : Libc where
  erange := false
  log10 n := if n = 0 then -2 ^ 31 else (Nat.toDigits 10 n).length - 1

theorem sampleLibc_sound : sampleLibc.Sound where
  zero := rfl
  enough n hn := by simp [sampleLibc, Nat.pos_iff_ne_zero.1 hn]
  exact n hn _ := by simp [sampleLibc, Nat.pos_iff_ne_zero.1 hn]

end Sensys.Orte
