import Mathlib.Data.List.Perm.Basic
import Sensys.Orte.Create
import Sensys.Orte.NodeList
/-!
# A written node list read back

`RoundTrips` is what a scheduler relies on when it keeps an allocation as a text.

The names of one item all have its prefix, its suffix and its width. So what comes back for a name
keeps its letters and its suffix; a number comes back as it was if the width is the number of its
digits, which it is not when there are more digits behind the number. A range that ends at 0 must
be the last one (`ends`), since it leaves `ERANGE` in `errno`.
-/
namespace Sensys.Orte
open Text Results List

/-- A node name: not empty, none of the special characters, and its characters can be counted with
an `int`. -/
structure NodeName where
  text  : Text
  ne    : text ≠ []
  plain : ∀ c ∈ text, inBase c = true
  short : text.length < 2 ^ 31

/-- Written and read back, the list names the same nodes. -/
def RoundTrips (L : Libc) (names : List NodeName) : Prop :=
  ∃ regexp erange out, create L.erange (commas (names.map NodeName.text)) = .ok (regexp, erange) ∧
    (extractNodeNames L regexp erange).1 = .ok out ∧ out.Perm (names.map NodeName.text)

/-- The prefix fits in its buffer; and if the name is put into a range, it has a prefix that fits
with its terminator, all its digits are one number, and an `int` holds the number or its negation.
-/
def Printable (n : Text) : Prop :=
  (leading n).length ≤ maxNodePrefix ∧
    (Compressible n → leading n ≠ [] ∧ (leading n).length < maxNodePrefix ∧
      (∀ c ∈ trailing n, c.isDigit = false) ∧ digitsValue (number n) ≤ 2 ^ 31)
deriving Decidable

/-- What the names of one item share: the letters, the suffix and the number of digits. -/
def kind (n : Text) : Text × Text × Nat := (leading n, trailing n, n.countP Char.isDigit)

/-- The kinds of the names that are put into ranges, by their first names. -/
def kinds (names : List Text) : List (Text × Text × Nat) :=
  ((names.filter (Compressible ·)).map kind).eraseDups

def ofKind (k : Text × Text × Nat) (names : List Text) : List Text :=
  names.filter fun n => Compressible n ∧ kind n = k

/-- The ends of the runs of successive numbers. -/
def runEnds : List Nat → List Nat
  | [] => []
  | n :: ns => if ns.head? = some (n + 1) then runEnds ns else n :: runEnds ns

/-- The ends of the ranges the names are written with, one kind after the other. -/
def ends (names : List Text) : List Nat :=
  (kinds names).flatMap fun k => runEnds ((ofKind k names).map fun n => digitsValue (number n))

/-! ## Reading a range -/

theorem showInt_eq (i : Int) :
    ∃ junk : Text, (∀ c ∈ junk, c = '-') ∧ showInt i = junk ++ Nat.toDigits 10 i.natAbs := by
  unfold showInt
  split
  · exact ⟨['-'], by simp, rfl⟩
  · exact ⟨[], by simp, rfl⟩

namespace RegexRange

/-- The first number as it is read, the sign being skipped. -/
def first (r : RegexRange) : Nat := r.start.toInt.natAbs

def last (r : RegexRange) : Nat := if r.cnt = 1 then r.first else (r.start + r.cnt - 1).toInt.natAbs

theorem natAbs_toInt_le (b : BitVec 32) : b.toInt.natAbs ≤ 2 ^ 31 := by
  have h1 := BitVec.toInt_lt (x := b)
  have h2 := BitVec.le_toInt (x := b)
  omega

variable (r : RegexRange)

theorem first_le : r.first ≤ 2 ^ 31 := natAbs_toInt_le _

theorem last_le : r.last ≤ 2 ^ 31 := by
  unfold last
  split
  · exact r.first_le
  · exact natAbs_toInt_le _

theorem notMem_text {c : Char} (hc : c.isDigit = false) (hne : c ≠ '-') : c ∉ r.text := by
  have hint : ∀ i : Int, c ∉ showInt i := fun i hm => by
    obtain ⟨junk, hj, h⟩ := showInt_eq i
    rw [h, mem_append] at hm
    rcases hm with hm | hm
    · exact hne (hj c hm)
    · simp [(IsNumber.toDigits _).2 c hm] at hc
  unfold text
  split
  · exact hint _
  · simp [hint, hne]

theorem text_ne_nil : r.text ≠ [] := by
  unfold text
  split
  · obtain ⟨junk, _, h⟩ := showInt_eq r.start.toInt
    simp [h, Nat.toDigits_ne_nil]
  · simp

end RegexRange

variable {L : Libc} {g : RegexNode} {erange : Bool} {done : List Text} {s : Creation} {n : Text}
  {c : Char} {rest : List Text}
  {s' : Creation}

/-- A range as it is written, read with `errno` as it is. -/
def readRange (L : Libc) (base : Text) (numDigits : Int) (suffix : Text) (r : RegexRange) :
    Reading (List Text) :=
  fun erange =>
    if erange then (.error .badParam, true)
    else expandRange L base numDigits suffix r.first r.last false

theorem checkErrno_small {α : Type} {m : Nat} (hm : m ≤ longMax) (x : Reading α) (erange : Bool) :
    (checkErrno m >>= fun _ => x) erange = if erange then (.error .badParam, true)
      else x false := by
  have hno : ¬ ((m : Int) < -(longMax + 1) ∨ (longMax : Int) < m) := by omega
  rw [checkErrno_bind_apply]
  simp only [hno, or_false]

theorem parseNodeRange_text (base suffix : Text) (d : Int) (r : RegexRange) :
    parseNodeRange L base d suffix r.text = readRange L base d suffix r := by
  have hf : r.first ≤ longMax := by have := r.first_le; simp [longMax]; omega
  have hl : r.last ≤ longMax := by have := r.last_le; simp [longMax]; omega
  funext erange
  unfold readRange
  obtain ⟨j1, hj1, h1⟩ := showInt_eq r.start.toInt
  have hj1 : ∀ c ∈ j1, c.isDigit = false := fun c hc => by rw [hj1 c hc]; rfl
  unfold RegexRange.last at hl ⊢
  unfold RegexRange.text RegexRange.first at *
  split
  · rw [h1, parseNodeRange_one hj1 (IsNumber.toDigits _), digitsValue_toDigits]
    exact checkErrno_small hf _ _
  · rename_i hcnt
    rw [if_neg hcnt] at hl
    obtain ⟨j2, hj2, h2⟩ := showInt_eq (r.start + r.cnt - 1).toInt
    have hj2 : ∀ c ∈ '-' :: j2, c.isDigit = false := fun c hc => by
      rcases mem_cons.1 hc with rfl | hc
      · rfl
      · rw [hj2 c hc]; rfl
    rw [h1, h2, ← cons_append]
    rw [parseNodeRange_pair hj1 (IsNumber.toDigits _) hj2 (cons_ne_nil _ _) (IsNumber.toDigits _)]
    rw [digitsValue_toDigits, digitsValue_toDigits, checkErrno_small hf, checkErrno_small hl]
    rfl

/-! ## What the items are made of -/

/-- An item is a name that is printed as it is, or has the parts of a name that is put into a
range. -/
inductive MadeFrom (names : List Text) : RegexNode → Prop
  | solitary {n : Text} : n ∈ names → ¬ Compressible n → MadeFrom names { pre := some n }
  | joint {y : Text} {g : RegexNode} : y ∈ names → Compressible y → g.ranges ≠ [] →
      g.pre = keptPre y →
      g.suffix = some (trailing y) → g.numDigits = y.countP Char.isDigit → MadeFrom names g

theorem MadeFrom.mono {names more : List Text} (h : MadeFrom names g) (hsub : names ⊆ more) :
    MadeFrom more g := by
  cases h with
  | solitary hn hc => exact .solitary (hsub hn) hc
  | joint hy hc hr hp hs hd => exact .joint (hsub hy) hc hr hp hs hd

theorem addToRanges_ne_nil (rs : List RegexRange) (n : BitVec 32) : addToRanges rs n ≠ [] := by
  unfold addToRanges
  split
  · simp
  · split <;> simp

section
variable {pre suffix : Option Text} {d : Nat} {n : BitVec 32}

variable (pre suffix d n) in
/-- One node takes the number: one of that key, or a new one. -/
theorem addNumber_eq (gs : List RegexNode) :
    ∃ l r rs, addNumber pre suffix d n gs = l ++ ⟨pre, suffix, d, addToRanges rs n⟩ :: r ∧
    (gs = l ++ ⟨pre, suffix, d, rs⟩ :: r ∨ gs = l ++ r ∧ rs = []) := by
  induction gs with
  | nil => exact ⟨[], [], [], rfl, Or.inr ⟨rfl, rfl⟩⟩
  | cons g gs ih =>
    unfold addNumber
    split
    · rename_i hkey
      obtain ⟨rfl, rfl, rfl⟩ := hkey
      exact ⟨[], gs, g.ranges, rfl, Or.inl rfl⟩
    · obtain ⟨l, r, rs, heq, hgs⟩ := ih
      exact ⟨g :: l, r, rs, congrArg (g :: ·) heq,
        hgs.imp (congrArg (g :: ·)) fun h => ⟨congrArg (g :: ·) h.1, h.2⟩⟩

variable (pre suffix d n) in
/-- That node has the parts that were asked for; the others were there before, and all but one of
its prefix stay. -/
theorem mem_addNumber (gs : List RegexNode) :
    ∃ new ∈ addNumber pre suffix d n gs,
      (new.ranges ≠ [] ∧ new.pre = pre ∧ new.suffix = suffix ∧ new.numDigits = d) ∧
      (∀ g ∈ addNumber pre suffix d n gs, g = new ∨ g ∈ gs) ∧ ∀ g ∈ gs, g.pre = pre ∨
      g ∈ addNumber pre suffix d n gs := by
  obtain ⟨l, r, rs, heq, hgs⟩ := addNumber_eq pre suffix d n gs
  rw [heq]
  refine ⟨⟨pre, suffix, d, addToRanges rs n⟩, by simp, ⟨addToRanges_ne_nil _ _, rfl, rfl, rfl⟩, ?_⟩
  obtain rfl | ⟨rfl, -⟩ := hgs <;> grind

end

/-- The state of `create` after the names `done`. -/
structure Made (erange : Bool) (done : List Text) (s : Creation) : Prop where
  made   : ∀ g ∈ s.nodeids, MadeFrom done g
  joined : ∀ y ∈ done, Compressible y → ∃ g ∈ s.nodeids, g.ranges ≠ [] ∧ g.pre = keptPre y
  fits   : ∀ y ∈ done, (leading y).length ≤ maxNodePrefix ∧
    (Compressible y → (leading y).length < maxNodePrefix)
  errno  : s.erange = true ↔
    erange = true ∨ ∃ y ∈ done, Compressible y ∧ longMax < digitsValue (number y)
  nonempty : done ≠ [] → s.nodeids ≠ []

theorem Made.addNode (h : Made erange done s) (hn : addNode s n = .ok s') :
    Made erange (done ++ [n]) s' := by
  have hsub : done ⊆ done ++ [n] := subset_append_left _ _
  have hmem : n ∈ done ++ [n] := by simp
  rw [addNode_eq] at hn
  split at hn
  · cases hn
  split at hn
  · rename_i hle hc
    split at hn
    · cases hn
    obtain ⟨new, hnew, ⟨hr, hp, hs, hd⟩, hold, hst⟩ :=
      mem_addNumber (keptPre n) (some (trailing n)) (n.countP Char.isDigit) (keptNum n) s.nodeids
    cases hn
    refine ⟨fun g hg => ?_,
      forall_mem_append.2 ⟨fun y hy hcy => ?_, forall_mem_singleton.2 fun _ => ⟨new, hnew, hr, hp⟩⟩,
      forall_mem_append.2 ⟨h.fits, forall_mem_singleton.2 ⟨by omega, fun _ => by omega⟩⟩, ?_,
      fun _ => ne_nil_of_mem hnew⟩
    · rcases hold g hg with rfl | hg
      · exact .joint hmem hc hr hp hs hd
      · exact (h.made g hg).mono hsub
    · obtain ⟨g, hg, hr', hp'⟩ := h.joined y hy hcy
      rcases hst g hg with hpre | hg
      · exact ⟨new, hnew, hr, hp.trans (hpre.symm.trans hp')⟩
      · exact ⟨g, hg, hr', hp'⟩
    · simp only [Bool.or_eq_true, h.errno, decide_eq_true_eq, mem_append,
        mem_singleton, or_and_right, exists_or, exists_eq_left, hc, true_and, or_assoc]
  · rename_i hle hc
    cases hn
    refine ⟨forall_mem_append.2 ⟨fun g hg => (h.made g hg).mono hsub,
      forall_mem_singleton.2 (.solitary hmem hc)⟩,
      forall_mem_append.2 ⟨fun y hy hcy => ?_, forall_mem_singleton.2 fun hcn => absurd hcn hc⟩,
      forall_mem_append.2 ⟨h.fits, forall_mem_singleton.2 ⟨by omega, fun hcn => absurd hcn hc⟩⟩, ?_,
      fun _ => by simp⟩
    · obtain ⟨g, hg, hg'⟩ := h.joined y hy hcy
      exact ⟨g, mem_append_left _ hg, hg'⟩
    · simp only [h.errno, mem_append, mem_singleton, or_and_right, exists_or, exists_eq_left, hc,
        false_and, or_false]

theorem Made.init (erange : Bool) : Made erange [] { erange } := by constructor <;> simp

theorem Made.foldlM (h : Made erange done s)
    (hre : rest.foldlM Orte.addNode s = .ok s') : Made erange (done ++ rest) s' := by
  induction rest generalizing done s with
  | nil =>
    cases hre
    simpa using h
  | cons n rest ih =>
    rw [foldlM_cons] at hre
    cases hn : Orte.addNode s n with
    | error e => rw [hn] at hre; cases hre
    | ok s1 =>
      rw [hn] at hre
      simpa using ih (h.addNode hn) hre

/-! ## Reading an item -/

/-- How an item is read. -/
def itemNames (L : Libc) (g : RegexNode) : Reading (List Text) :=
  match g.ranges, g.pre with
  | [], p => pure [p.getD []]
  | _ :: _, none => throw .badParam
  | rs, some p => do
    checkErrno g.numDigits
    List.flatten <$> rs.mapM (readRange L p g.numDigits (g.suffix.getD []))

/-- An item of a range is not read without a prefix. -/
theorem itemNames_joint {y : Text} (hr : g.ranges ≠ []) (hp : g.pre = keptPre y) :
    itemNames L g = if leading y = [] then throw .badParam
      else (do
        checkErrno g.numDigits
        List.flatten <$> g.ranges.mapM (readRange L (leading y) g.numDigits (g.suffix.getD []))) := by
  obtain ⟨r, rs, hrs⟩ := exists_cons_of_ne_nil hr
  by_cases hnil : leading y = [] <;> simp [itemNames, hrs, hp, keptPre, hnil]

theorem Compressible.digits_pos (h : Compressible n) : 0 < n.countP Char.isDigit := by
  have := length_pos_iff.2 h.2
  rw [countP_digits]
  omega

theorem inBase_of_isAlphanum (h : c.isAlphanum = true) : inBase c = true := by
  by_contra hc
  have hc : inBase c = false := by simpa using hc
  rcases inBase_eq_false hc with rfl | rfl | rfl <;> exact absurd h (by decide)

theorem isAlphanum_of_mem_leading (h : c ∈ leading n) : c.isAlphanum = true := by
  simp [Char.isAlphanum, isAlpha_of_mem_leading h]

theorem Compressible.alphanum_trailing (h : Compressible n) (hc : c ∈ trailing n) :
    c.isAlphanum = true := by
  refine h.1 c ?_
  rw [← leading_number_trailing n]
  exact mem_append_right _ hc

theorem extractItem_node {names : List NodeName} (h : MadeFrom (names.map NodeName.text) g) :
    ∃ t, g.text = some t ∧ ∀ rest, extractItem L (t ++ behind rest) = (·, rest) <$> itemNames L g := by
  cases h with
  | solitary hn hc =>
    obtain ⟨nn, _, rfl⟩ := mem_map.1 hn
    refine ⟨nn.text, rfl, fun rest => ?_⟩
    rw [extractItem_name L nn.ne nn.plain rest]
    rfl
  | @joint y _ hy hc hr hp hs hd =>
    obtain ⟨nn, _, rfl⟩ := mem_map.1 hy
    obtain ⟨r, rs, hrs⟩ := exists_cons_of_ne_nil hr
    have hte : g.text = some (g.pre.getD [] ++ '[' :: Nat.toDigits 10 g.numDigits ++
        ':' :: commas (g.ranges.map RegexRange.text) ++ ']' :: g.suffix.getD []) := by
      simp [RegexNode.text, hrs]
    refine ⟨_, hte, fun rest => ?_⟩
    have hit := itemNames_joint (L := L) hr hp
    by_cases hnil : leading nn.text = []
    · -- without a prefix the item starts with its bracket
      rw [if_pos hnil] at hit
      have hp : g.pre = none := by simp [hp, keptPre, hnil]
      simp only [hp, hit, Option.getD_none, nil_append, cons_append]
      rw [extractItem_special L rfl]
      rfl
    · have hp : g.pre = some (leading nn.text) := by simp [hp, keptPre, hnil]
      have hbo : g.numDigits < 2 ^ 31 := by
        have h1 := nn.short
        have h2 := countP_le_length (p := Char.isDigit) (l := nn.text)
        omega
      have hsu : ∀ c ∈ trailing nn.text, inBase c = true := fun c hc' =>
        inBase_of_isAlphanum (hc.alphanum_trailing hc')
      have hra : ∀ t ∈ g.ranges.map RegexRange.text, ']' ∉ t := fun t ht => by
        obtain ⟨r, _, rfl⟩ := mem_map.1 ht
        exact r.notMem_text (by decide) (by decide)
      have hbr := extractItem_bracket L hnil
        (fun c hc' => inBase_of_isAlphanum (isAlphanum_of_mem_leading hc'))
        ((IsNumber.toDigits g.numDigits).notMem (c := ':') (by decide))
        (notMem_commas hra (by decide))
        (notMem_of_inBase hsu (by decide)) (fun hh =>
          notMem_of_inBase hsu (by decide) (mem_of_mem_head? hh)) rest
      have hpi : pieces (commas (g.ranges.map RegexRange.text)) = g.ranges.map RegexRange.text := by
        refine pieces_commas (by simpa using hr) fun t ht => ?_
        obtain ⟨r, _, rfl⟩ := mem_map.1 ht
        exact ⟨r.text_ne_nil, r.notMem_text (by decide) (by decide)⟩
      simp only [hp, hs, Option.getD_some, hit, if_neg hnil]
      rw [hbr, strtol_number (IsNumber.toDigits _), digitsValue_toDigits, toInt_ofInt_of_lt hbo,
        parseNodeRanges, hpi, mapM_map]
      simp [Function.comp_def, parseNodeRange_text]

theorem extractNodeNames_nodes {names : List NodeName} {gs : List RegexNode} (hne : gs ≠ [])
    (h : ∀ g ∈ gs, MadeFrom (names.map NodeName.text) g) :
    extractNodeNames L (commas (gs.filterMap RegexNode.text)) =
      List.flatten <$> gs.mapM (itemNames L) := by
  have hte : gs.filterMap RegexNode.text = gs.map fun g => g.text.getD [] := by
    rw [← filterMap_eq_map]
    refine filterMap_congr fun g hg => ?_
    obtain ⟨t, ht, _⟩ := extractItem_node (L := L) (h g hg)
    simp [ht]
  rw [hte]
  refine extractNodeNames_commas hne fun g hg rest => ?_
  obtain ⟨t, ht, hre⟩ := extractItem_node (L := L) (h g hg)
  simpa [ht] using hre rest

theorem create_commas {names : List NodeName} (h : 2 ≤ names.length) :
    create erange (commas (names.map NodeName.text)) =
      ((names.map NodeName.text).foldlM addNode { erange }).map
        fun s => (commas (s.nodeids.filterMap RegexNode.text), s.erange) := by
  have hpi : pieces (commas (names.map NodeName.text)) = names.map NodeName.text := by
    refine pieces_commas (fun hnil => ?_) fun t ht => ?_
    · simp [map_eq_nil_iff.1 hnil] at h
    · obtain ⟨nn, _, rfl⟩ := mem_map.1 ht
      exact ⟨nn.ne, notMem_of_inBase nn.plain (by decide)⟩
  have hco : ',' ∈ commas (names.map NodeName.text) := by
    match names, h with
    | a :: b :: _, _ => simp [commas_cons, behind]
  unfold create
  rw [if_neg (not_not.2 hco), hpi]
  cases (names.map NodeName.text).foldlM addNode { erange } <;> rfl

theorem roundTrips_one (L : Libc) (n : NodeName) : RoundTrips L [n] := by
  have hone : commas ([n].map NodeName.text) = n.text := by simp [commas]
  have hno : ',' ∉ n.text := notMem_of_inBase n.plain (by decide)
  refine ⟨n.text, L.erange, [n.text], ?_, ?_, by simp⟩
  · rw [hone, create, if_pos hno]
  · have := extractItem_name L n.ne n.plain none
    rw [extractNodeNames_eq]
    simp only [behind, append_nil] at this
    rw [this]
    rfl

/-! ## What comes back -/

/-- Each step of a run over a list that succeeds has read something. -/
theorem forall₂_of_mapM_apply {α β : Type} {f : α → Reading β} {l : List α} {bs : List β}
    {e e' : Bool} (h : l.mapM f e = (.ok bs, e')) :
    List.Forall₂ (fun a b => ∃ e e', f a e = (.ok b, e')) l bs := by
  induction l generalizing bs e with
  | nil =>
    cases h
    exact .nil
  | cons a l ih =>
    rw [mapM_cons] at h
    obtain ⟨b, e1, hb, h⟩ := exists_of_bind_apply h
    obtain ⟨bs', e2, hbs, h⟩ := exists_of_bind_apply h
    cases h
    exact .cons ⟨_, _, hb⟩ (ih hbs)

theorem exists_of_map_apply {α β : Type} {x : Reading α} {f : α → β} {e e' : Bool} {b : β}
    (h : (f <$> x) e = (.ok b, e')) : ∃ a, x e = (.ok a, e') ∧ f a = b := by
  rw [map_eq_pure_bind] at h
  obtain ⟨a, e1, ha, h⟩ := exists_of_bind_apply h
  cases h
  exact ⟨a, ha, rfl⟩

/-- What is read back from a node whose parts are those of `y`. -/
theorem mem_itemNames (hL : L.Sound) {y x : Text} {ns : List Text} {e e' : Bool}
    (hc : Compressible y) (hr : g.ranges ≠ []) (hp : g.pre = keptPre y)
    (hs : g.suffix = some (trailing y))
    (hd : g.numDigits = y.countP Char.isDigit) (hns : itemNames L g e = (.ok ns, e')) (hx : x ∈ ns) :
    ∃ i, i ≤ 2 ^ 31 ∧ (Nat.toDigits 10 i).length ≤ g.numDigits ∧
      x = leading y ++ pad g.numDigits i ++ trailing y := by
  rw [itemNames_joint hr hp, hs, Option.getD_some] at hns
  by_cases hnil : leading y = []
  · rw [if_pos hnil] at hns
    cases hns
  rw [if_neg hnil] at hns
  obtain ⟨-, e1, -, hns⟩ := exists_of_bind_apply hns
  obtain ⟨nss, hnss, rfl⟩ := exists_of_map_apply hns
  obtain ⟨l, hl, hxl⟩ := mem_flatten.1 hx
  obtain ⟨r, _, e2, e3, hrl⟩ := Lists.exists_of_forall₂_right (forall₂_of_mapM_apply hnss) hl
  have hpos : 0 < g.numDigits := hd ▸ hc.digits_pos
  unfold readRange at hrl
  split at hrl
  · cases hrl
  rw [expandRange_eq hL _ _ hpos] at hrl
  split at hrl
  · rename_i hfit
    cases hrl
    obtain ⟨i, hi, rfl⟩ := mem_map.1 hxl
    obtain ⟨k, hk, rfl⟩ := mem_range'.1 hi
    have hlast := r.last_le
    have hlen := hL.length_le hpos hfit.2
    have hm := toDigits_length_mono (i := r.first + 1 * k) (j := r.last) (by omega)
    exact ⟨r.first + 1 * k, by omega, by omega, rfl⟩
  · cases hrl

section
variable {L : Libc} {names : List NodeName} {s : Creation} {out : List Text} {erange : Bool}

/-- A name that is put into a range and comes back has the letters and the suffix of one of the
names, all digits of which are as many as its own number has. -/
theorem comes_back (hL : L.Sound) (hm : Made erange (names.map NodeName.text) s)
    {nss : List (List Text)} {e e' : Bool} (hnss : s.nodeids.mapM (itemNames L) e = (.ok nss, e'))
    {x : Text} (hc : Compressible x)
    (hx : x ∈ nss.flatten) :
    digitsValue (number x) ≤ 2 ^ 31 ∧ ∃ y ∈ names.map NodeName.text, Compressible y ∧
      trailing x = trailing y ∧
      (number x).length = y.countP Char.isDigit := by
  obtain ⟨ns, hns, hxns⟩ := mem_flatten.1 hx
  obtain ⟨g, hg, e1, e2, hgns⟩ := Lists.exists_of_forall₂_right (forall₂_of_mapM_apply hnss) hns
  cases hm.made g hg with
  | @solitary n hn hno =>
    have hn : [n] = ns := Except.ok.inj (congrArg Prod.fst hgns)
    rw [← hn] at hxns
    exact absurd hc (mem_singleton.1 hxns ▸ hno)
  | @joint y _ hy hcy hr hp hs hd =>
    obtain ⟨i, hi, hlen, rfl⟩ := mem_itemNames hL hcy hr hp hs hd hgns hxns
    obtain ⟨-, hnum, htr⟩ := @parts_append (leading y) (pad g.numDigits i) (trailing y)
      (fun c hc => isAlpha_of_mem_leading hc) ⟨pad_ne_nil _ _, fun c hc => isDigit_of_mem_pad hc⟩
      (takeWhile_trailing y)
    refine ⟨?_, y, hy, hcy, htr, ?_⟩
    · rw [hnum, digitsValue_pad]
      exact hi
    · rw [hnum, length_pad hlen, hd]

/-- If every name comes back, the digits of each name in a range are one number: a name with the
shortest number among those with more digits could only come from one with a still shorter number.
-/
theorem one_number (h : ∀ x ∈ names.map NodeName.text, Compressible x →
      ∃ y ∈ names.map NodeName.text, Compressible y ∧ trailing x = trailing y ∧
        (number x).length = y.countP Char.isDigit) :
    ∀ (k : Nat) (x : Text), x ∈ names.map NodeName.text → Compressible x → (number x).length = k →
      (trailing x).countP Char.isDigit = 0 := by
  intro k
  induction k using Nat.strongRecOn with
  | ind k ih =>
    intro x hx hc hk
    obtain ⟨y, hy, hcy, htr, hlen⟩ := h x hx hc
    by_contra hpos
    rw [countP_digits] at hlen
    refine hpos (htr ▸ ih (number y).length ?_ y hy hcy rfl)
    rw [htr] at hpos
    omega

theorem printable_of_roundTrips (hL : L.Sound) (h2 : 2 ≤ names.length) (h : RoundTrips L names) :
    ∀ n ∈ names, Printable n.text := by
  obtain ⟨regexp, erange, out, hcr, hex, hpe⟩ := h
  rw [create_commas h2] at hcr
  obtain ⟨s, hs, hpa⟩ := map_eq_ok hcr
  obtain ⟨rfl, rfl⟩ := Prod.mk.inj hpa
  have hm : Made L.erange (names.map NodeName.text) s := by simpa using (Made.init L.erange).foldlM hs
  have hne : names.map NodeName.text ≠ [] := fun hnil => by simp [map_eq_nil_iff.1 hnil] at h2
  rw [extractNodeNames_nodes (hm.nonempty hne) hm.made] at hex
  obtain ⟨nss, hnss, rfl⟩ := exists_of_map_apply (Prod.ext hex rfl)
  have hba : ∀ x ∈ names.map NodeName.text, Compressible x → _ := fun x hx hc =>
    comes_back hL hm hnss hc (hpe.mem_iff.2 hx)
  have hone := one_number fun x hx hc => (hba x hx hc).2
  -- a name in a range has an item with a prefix
  have hit : ∀ x ∈ names.map NodeName.text, Compressible x → leading x ≠ [] := by
    intro x hx hc hnil
    obtain ⟨g, hg, hr, hp⟩ := hm.joined x hx hc
    obtain ⟨ns, -, e1, e2, hns⟩ := Lists.exists_of_forall₂_left (forall₂_of_mapM_apply hnss) hg
    rw [itemNames_joint hr hp, if_pos hnil] at hns
    cases hns
  intro n hn
  have hx : n.text ∈ names.map NodeName.text := mem_map_of_mem hn
  refine ⟨(hm.fits _ hx).1, fun hc => ⟨hit _ hx hc, (hm.fits _ hx).2 hc, ?_, (hba _ hx hc).1⟩⟩
  simpa using countP_eq_zero.1 (hone _ _ hx hc rfl)

end

/-! ## The numbers in the ranges -/

namespace RegexRange

/-- The numbers of a range that has not wrapped. -/
def numbers (r : RegexRange) : List Nat := List.range' r.start.toNat r.cnt.toNat

/-- A range of numbers that are at most `2^31` and have at most `d` digits. -/
def Good (d : Nat) (r : RegexRange) : Prop :=
  1 ≤ r.cnt.toNat ∧ r.start.toNat + r.cnt.toNat ≤ 2 ^ 31 + 1 ∧ r.start.toNat + r.cnt.toNat ≤ 10 ^ d

theorem natAbs_toInt {b : BitVec 32} (h : b.toNat ≤ 2 ^ 31) : b.toInt.natAbs = b.toNat := by
  rw [BitVec.toInt_eq_toNat_cond]
  split <;> omega

theorem Good.first {d : Nat} {r : RegexRange} (h : r.Good d) : r.first = r.start.toNat := by
  obtain ⟨h1, h2, -⟩ := h
  exact natAbs_toInt (by omega)

theorem Good.last {d : Nat} {r : RegexRange} (h : r.Good d) :
    r.last = r.start.toNat + r.cnt.toNat - 1 := by
  obtain ⟨h1, h2, -⟩ := id h
  unfold RegexRange.last
  split
  · rename_i hcnt
    rw [h.first, hcnt]
    simp
  · have : (r.start + r.cnt - 1).toNat = r.start.toNat + r.cnt.toNat - 1 := by bv_omega
    rw [natAbs_toInt (by omega), this]

end RegexRange

theorem addToRanges_numbers {d v : Nat} {rs : List RegexRange} (hrs : ∀ r ∈ rs, r.Good d)
    (hv : v ≤ 2 ^ 31) (hd : v < 10 ^ d) :
    (∀ r ∈ addToRanges rs (BitVec.ofNat 32 v), r.Good d) ∧
      (addToRanges rs (BitVec.ofNat 32 v)).flatMap RegexRange.numbers =
      rs.flatMap RegexRange.numbers ++ [v] := by
  have hmod : (BitVec.ofNat 32 v).toNat = v := by
    exact Nat.mod_eq_of_lt (by omega)
  have hone : RegexRange.Good d ⟨BitVec.ofNat 32 v, 1⟩ := by
    simp only [RegexRange.Good, hmod]
    exact ⟨by decide, by simp; omega, by simp; omega⟩
  have hnum : RegexRange.numbers ⟨BitVec.ofNat 32 v, 1⟩ = [v] := by
    simp [RegexRange.numbers, Nat.mod_eq_of_lt (show v < 4294967296 by omega)]
  unfold addToRanges
  split
  · rename_i hlast
    rw [getLast?_eq_none_iff.1 hlast]
    exact ⟨forall_mem_singleton.2 hone, by simpa using hnum⟩
  · rename_i r hlast
    obtain ⟨hpos, hle, hdig⟩ := hrs r (mem_of_getLast? hlast)
    split
    · exact ⟨forall_mem_append.2 ⟨hrs, forall_mem_singleton.2 hone⟩, by simpa using hnum⟩
    · rename_i heq
      have heq : v = r.start.toNat + r.cnt.toNat := by
        have := congrArg BitVec.toNat (not_not.1 heq)
        rw [hmod, BitVec.toNat_add] at this
        omega
      have hcnt : (r.cnt + 1).toNat = r.cnt.toNat + 1 := by
        simp
        omega
      have hsp : rs = rs.dropLast ++ [r] := (dropLast_append_getLast? r hlast).symm
      refine ⟨forall_mem_append.2 ⟨fun r' hr' => hrs r' (dropLast_subset rs hr'),
        forall_mem_singleton.2 ?_⟩, ?_⟩
      · refine ⟨?_, ?_, ?_⟩ <;> simp only [hcnt] <;> omega
      · have hnew : RegexRange.numbers { r with cnt := r.cnt + 1 } = r.numbers ++ [v] := by
          simp only [RegexRange.numbers, hcnt, heq, range'_concat, Nat.one_mul]
        conv => rhs; rw [hsp]
        simp only [flatMap_append, flatMap_cons, flatMap_nil, append_nil, hnew, append_assoc]

/-- The names an item stands for. -/
def RegexNode.names (g : RegexNode) : List Text :=
  match g.ranges with
  | [] => [g.pre.getD []]
  | rs => (rs.flatMap RegexRange.numbers).map fun i =>
    g.pre.getD [] ++ pad g.numDigits i ++ g.suffix.getD []

theorem RegexNode.names_of_ne (h : g.ranges ≠ []) :
    g.names = (g.ranges.flatMap RegexRange.numbers).map fun i =>
      g.pre.getD [] ++ pad g.numDigits i ++ g.suffix.getD [] := by
  obtain ⟨r, rs, hrs⟩ := exists_cons_of_ne_nil h
  simp only [names, hrs]

/-- A number joins one node; the names of the others stay. -/
theorem addNumber_names {pre : Option Text} {suffix : Text} {d v : Nat} (hv : v ≤ 2 ^ 31)
    (hd : v < 10 ^ d) {gs : List RegexNode} (hg : ∀ g ∈ gs, ∀ r ∈ g.ranges, r.Good g.numDigits)
    (hjo : ∀ g ∈ gs, g.suffix = some suffix → g.ranges ≠ []) :
    (∀ g ∈ addNumber pre (some suffix) d (BitVec.ofNat 32 v) gs, ∀ r ∈ g.ranges,
      r.Good g.numDigits) ∧
      ((addNumber pre (some suffix) d (BitVec.ofNat 32 v) gs).flatMap RegexNode.names).Perm
        (gs.flatMap RegexNode.names ++ [pre.getD [] ++ pad d v ++ suffix]) := by
  obtain ⟨l, r, rs, heq, hgs⟩ := addNumber_eq pre (some suffix) d (BitVec.ofNat 32 v) gs
  have hrs : ∀ r ∈ rs, r.Good d := by
    obtain rfl | ⟨-, rfl⟩ := hgs
    · exact hg ⟨pre, some suffix, d, rs⟩ (by simp)
    · simp
  obtain ⟨hg', hnu⟩ := addToRanges_numbers hrs hv hd
  have hnew : RegexNode.names ⟨pre, some suffix, d, addToRanges rs (BitVec.ofNat 32 v)⟩ =
      ((rs.flatMap RegexRange.numbers).map fun i => pre.getD [] ++ pad d i ++ suffix) ++
      [pre.getD [] ++ pad d v ++ suffix] := by
    rw [RegexNode.names_of_ne (addToRanges_ne_nil _ _), hnu, map_append]
    rfl
  rw [heq, flatMap_append, flatMap_cons, hnew]
  obtain rfl | ⟨rfl, rfl⟩ := hgs
  · rw [forall_mem_append, forall_mem_cons] at hg ⊢
    refine ⟨⟨hg.1, hg', hg.2.2⟩, ?_⟩
    rw [flatMap_append, flatMap_cons, RegexNode.names_of_ne (hjo _ (by simp) rfl)]
    simp only [append_assoc]
    exact (perm_append_comm.append_left _).append_left _
  · rw [forall_mem_append] at hg ⊢
    refine ⟨⟨hg.1, forall_mem_cons.2 ⟨hg', hg.2⟩⟩, ?_⟩
    rw [flatMap_append]
    simp only [flatMap_nil, map_nil, nil_append, append_assoc]
    exact perm_append_comm.append_left _

/-- What a printable name is put together from again. -/
theorem Printable.text_eq (h : Printable n) (hc : Compressible n) :
    (keptPre n).getD [] ++ pad (n.countP Char.isDigit) (digitsValue (number n)) ++
      trailing n = n := by
  obtain ⟨hne, -, hdi, -⟩ := h.2 hc
  have hco : n.countP Char.isDigit = (number n).length := by
    rw [countP_digits, countP_eq_zero.2 fun c hc' => by simp [hdi c hc'], Nat.add_zero]
  rw [hco, pad_digitsValue hc.2 hc.isNumber.2, keptPre, if_neg hne]
  exact leading_number_trailing n

theorem keptNum_eq (h : digitsValue (number n) ≤ 2 ^ 31) :
    keptNum n = BitVec.ofNat 32 (digitsValue (number n)) := by
  have : min (digitsValue (number n) : Int) longMax = digitsValue (number n) := by
    simp only [longMax]
    omega
  rw [keptNum, this, BitVec.ofInt_natCast]

/-- The items stand for the names so far. -/
structure StandsFor (done : List Text) (s : Creation) : Prop where
  good  : ∀ g ∈ s.nodeids, ∀ r ∈ g.ranges, r.Good g.numDigits
  names : (s.nodeids.flatMap RegexNode.names).Perm done

theorem Compressible.value_lt (hc : Compressible n) :
    digitsValue (number n) < 10 ^ n.countP Char.isDigit := by
  rw [countP_digits]
  exact (digitsValue_lt (number n) hc.isNumber.2).trans_le
    (Nat.pow_le_pow_right (by omega) (Nat.le_add_right _ _))

theorem StandsFor.addNode (hm : Made erange done s)
    (h : StandsFor done s) (hn : Printable n) :
    ∃ s', Orte.addNode s n = .ok s' ∧ StandsFor (done ++ [n]) s' := by
  rw [addNode_eq, if_neg (Nat.not_lt.2 hn.1)]
  split
  · rename_i hc
    obtain ⟨-, hlt, hdi, hval⟩ := hn.2 hc
    rw [if_neg (Nat.ne_of_lt hlt)]
    have hd := hc.value_lt
    have hjo : ∀ g ∈ s.nodeids, g.suffix = some (trailing n) → g.ranges ≠ [] := fun g hg hs => by
      cases hm.made g hg with
      | solitary _ _ => cases hs
      | joint _ _ hr _ _ _ => exact hr
    obtain ⟨hgo, hpe⟩ := @addNumber_names (keptPre n) _ _ _ hval hd _ h.good hjo
    refine ⟨_, rfl, ?_, ?_⟩
    · simpa only [keptNum_eq hval] using hgo
    · simp only [keptNum_eq hval]
      rw [hn.text_eq hc] at hpe
      exact hpe.trans (h.names.append_right _)
  · refine ⟨_, rfl, forall_mem_append.2 ⟨h.good, by simp⟩, ?_⟩
    simp only [flatMap_append, flatMap_cons, flatMap_nil, append_nil]
    exact h.names.append_right _

theorem StandsFor.foldlM (hm : Made erange done s)
    (h : StandsFor done s) (hre : ∀ n ∈ rest, Printable n) :
    ∃ s', rest.foldlM Orte.addNode s = .ok s' ∧ StandsFor (done ++ rest) s' := by
  induction rest generalizing done s with
  | nil => exact ⟨s, rfl, by simpa using h⟩
  | cons n rest ih =>
    obtain ⟨s1, hs1, h1⟩ := h.addNode hm (hre n mem_cons_self)
    obtain ⟨s', hs', h'⟩ := ih (hm.addNode hs1) h1 (forall_mem_cons.1 hre).2
    refine ⟨s', ?_, by simpa using h'⟩
    rw [foldlM_cons, hs1]
    exact hs'

/-! ## The ends of the ranges -/

/-- The ranges of numbers that come one after the other. -/
def rangesOf (ns : List (BitVec 32)) : List RegexRange := ns.foldl addToRanges []

/-- The item of the names of one kind. -/
def nodeOf (done : List Text) (k : Text × Text × Nat) : RegexNode :=
  ⟨if k.1 = [] then none else some k.1, some k.2.1, k.2.2, rangesOf ((ofKind k done).map keptNum)⟩

/-- The items with ranges, in the state of `create` after the names `done`: one for each kind. -/
def Joined (done : List Text) (s : Creation) : Prop :=
  s.nodeids.filter (fun g => g.ranges ≠ []) = (kinds done).map (nodeOf done)

section
variable {k : Text × Text × Nat} {ks : List (Text × Text × Nat)} {v : BitVec 32}

theorem mem_kinds : k ∈ kinds done ↔ ∃ y ∈ done, Compressible y ∧ kind y = k := by
  simp [kinds, mem_eraseDups, and_assoc]

theorem kinds_concat (n : Text) :
    kinds (done ++ [n]) =
      if Compressible n ∧ kind n ∉ kinds done then kinds done ++ [kind n] else kinds done := by
  unfold kinds
  rw [filter_append, map_append, eraseDups_append]
  by_cases hc : Compressible n
  · by_cases hk : kind n ∈ (done.filter (Compressible ·)).map kind <;>
      simp [hc, hk, removeAll, mem_eraseDups, -mem_map, eraseDups_cons]
  · simp [hc, removeAll]

theorem nodup_kinds (done : List Text) : (kinds done).Nodup := by
  induction done using reverseRecOn with
  | nil => simp [kinds]
  | append_singleton done n ih =>
    rw [kinds_concat]
    split
    · rename_i hk
      exact nodup_append.2
        ⟨ih, by simp, fun k hk' j hj h => hk.2 (by rwa [← mem_singleton.1 hj, ← h])⟩
    · exact ih

theorem nodeOf_concat (hc : Compressible n) (k : Text × Text × Nat) :
    nodeOf (done ++ [n]) k =
      if k = kind n then { nodeOf done k with ranges := addToRanges (nodeOf done k).ranges (keptNum n) }
      else nodeOf done k := by
  by_cases hk : k = kind n
  · simp [nodeOf, ofKind, hc, hk, rangesOf]
  · simp [nodeOf, ofKind, hk, Ne.symm hk]

/-- Items of different kinds: the one of its kind takes the number, or a new one. -/
theorem addNumber_nodeOf (hc : Compressible n) (hnd : ks.Nodup) :
    addNumber (keptPre n) (some (trailing n)) (n.countP Char.isDigit) (keptNum n)
      (ks.map (nodeOf done)) =
      ks.map (nodeOf (done ++ [n])) ++
        if kind n ∈ ks then [] else [⟨keptPre n, some (trailing n), n.countP Char.isDigit, [⟨keptNum n, 1⟩]⟩] := by
  induction ks with
  | nil => simp [addNumber]
  | cons k ks ih =>
    obtain ⟨hk, hnd⟩ := nodup_cons.1 hnd
    rw [map_cons, addNumber, map_cons, nodeOf_concat hc]
    by_cases heq : k = kind n
    · subst heq
      have hsame : ks.map (nodeOf (done ++ [n])) = ks.map (nodeOf done) := by
        refine map_congr_left fun k' hk' => ?_
        rw [nodeOf_concat hc, if_neg]
        rintro rfl
        exact hk hk'
      rw [if_pos ⟨rfl, rfl, rfl⟩, hsame]
      simp
    · have hkey : ¬ ((nodeOf done k).pre = keptPre n ∧ (nodeOf done k).suffix = some (trailing n) ∧
          (nodeOf done k).numDigits = n.countP Char.isDigit) := by
        rintro ⟨h1, h2, h3⟩
        refine heq (Prod.ext ?_ (Prod.ext (Option.some.inj h2) h3))
        simp only [nodeOf, keptPre] at h1
        simp only [kind]
        grind
      rw [if_neg hkey, ih hnd]
      simp [heq, Ne.symm heq]

theorem filter_addNumber {pre : Option Text} {suffix : Text} {d : Nat} {gs : List RegexNode}
    (h : ∀ g ∈ gs, g.ranges = [] → g.suffix = none) :
    (addNumber pre (some suffix) d v gs).filter (fun g => g.ranges ≠ []) =
      addNumber pre (some suffix) d v (gs.filter fun g => g.ranges ≠ []) := by
  induction gs with
  | nil => simp [addNumber]
  | cons g gs ih =>
    obtain ⟨hg, hgs⟩ := forall_mem_cons.1 h
    have ih := ih hgs
    by_cases hr : g.ranges = []
    · simpa [addNumber, hg hr, hr] using ih
    · by_cases hkey : g.pre = pre ∧ g.suffix = some suffix ∧ g.numDigits = d
      · simp [addNumber, hkey, hr, addToRanges_ne_nil]
      · simpa [addNumber, hkey, hr] using ih

theorem Joined.addNode (hm : Made erange done s) (h : Joined done s) (hn : addNode s n = .ok s') :
    Joined (done ++ [n]) s' := by
  have hsol : ∀ g ∈ s.nodeids, g.ranges = [] → g.suffix = none := fun g hg hr => by
    cases hm.made g hg with
    | solitary _ _ => rfl
    | joint _ _ hr' _ _ _ => exact absurd hr hr'
  unfold Joined at h ⊢
  rw [addNode_eq] at hn
  split at hn
  · cases hn
  split at hn
  · rename_i hle hc
    split at hn
    · cases hn
    cases hn
    simp only
    rw [filter_addNumber hsol, h, addNumber_nodeOf hc (nodup_kinds _), kinds_concat]
    by_cases hk : kind n ∈ kinds done
    · simp [hk]
    · have hno : ofKind (kind n) done = [] := filter_eq_nil_iff.2 fun y hy hy' => by
        have hy' : Compressible y ∧ kind y = kind n := by simpa using hy'
        exact hk (mem_kinds.2 ⟨y, hy, hy'⟩)
      have hnew : nodeOf (done ++ [n]) (kind n) =
          ⟨keptPre n, some (trailing n), n.countP Char.isDigit, [⟨keptNum n, 1⟩]⟩ := by
        rw [nodeOf_concat hc, if_pos rfl, nodeOf, hno]
        rfl
      simp [hk, hc, hnew]
  · rename_i hle hc
    cases hn
    have hsame : nodeOf (done ++ [n]) = nodeOf done := by
      funext k
      simp [nodeOf, ofKind, hc]
    simpa [kinds_concat, hc, hsame] using h

theorem Joined.foldlM (hm : Made erange done s) (h : Joined done s)
    (hre : rest.foldlM Orte.addNode s = .ok s') : Joined (done ++ rest) s' := by
  induction rest generalizing done s with
  | nil =>
    cases hre
    simpa using h
  | cons n rest ih =>
    rw [foldlM_cons] at hre
    cases hn : Orte.addNode s n with
    | error e => rw [hn] at hre; cases hre
    | ok s1 =>
      rw [hn] at hre
      simpa using ih (hm.addNode hn) (h.addNode hm hn) hre

/-- The ends of runs with one more number. -/
def addEnd (es : List Nat) (v : Nat) : List Nat :=
  if es.getLast?.map (· + 1) = some v then es.dropLast ++ [v] else es ++ [v]

theorem foldl_addEnd (es : List Nat) (n : Nat) (ns : List Nat) :
    ns.foldl addEnd (es ++ [n]) = es ++ runEnds (n :: ns) := by
  induction ns generalizing es n with
  | nil => simp [runEnds]
  | cons m ns ih =>
    rw [foldl_cons, runEnds, head?_cons]
    by_cases hm : n + 1 = m
    · rw [addEnd, if_pos (by simp [hm]), dropLast_concat, ih, if_pos (by rw [hm])]
    · rw [addEnd, if_neg (by simp [hm]), ih, if_neg (by simp [Ne.symm hm])]
      simp

theorem foldl_addEnd_nil (ns : List Nat) : ns.foldl addEnd [] = runEnds ns := by
  cases ns with
  | nil => rfl
  | cons n ns => simpa [addEnd] using foldl_addEnd [] n ns

theorem map_last_addToRanges {d v : Nat} {rs : List RegexRange} (hrs : ∀ r ∈ rs, r.Good d)
    (hv : v ≤ 2 ^ 31) (hd : v < 10 ^ d) :
    (addToRanges rs (BitVec.ofNat 32 v)).map RegexRange.last =
      addEnd (rs.map RegexRange.last) v := by
  have hgood := (addToRanges_numbers hrs hv hd).1
  have hmod : (BitVec.ofNat 32 v).toNat = v := Nat.mod_eq_of_lt (by omega)
  have hone : RegexRange.Good d ⟨BitVec.ofNat 32 v, 1⟩ →
    RegexRange.last ⟨BitVec.ofNat 32 v, 1⟩ = v := fun h => by
    rw [h.last, hmod]
    exact Nat.add_sub_cancel ..
  unfold addToRanges at hgood ⊢
  split at hgood
  · rename_i hlast
    rw [getLast?_eq_none_iff.1 hlast]
    exact congrArg (fun n => [n]) (hone (hgood _ (by simp)))
  · rename_i r hlast
    have hr := hrs r (mem_of_getLast? hlast)
    have hl := hr.last
    obtain ⟨hpos, hle, -⟩ := hr
    have heq : BitVec.ofNat 32 v = r.start + r.cnt ↔ r.last + 1 = v := by
      rw [← BitVec.toNat_inj, hmod, BitVec.toNat_add, hl]
      omega
    by_cases hne : BitVec.ofNat 32 v = r.start + r.cnt
    · have h2 := heq.1 hne
      have hcnt : (r.cnt + 1).toNat = r.cnt.toNat + 1 := by
        simp
        omega
      rw [if_neg (not_not.2 hne)] at hgood
      have h1 := (hgood { r with cnt := r.cnt + 1 } (by simp)).last
      simp only [hcnt] at h1
      have h3 : RegexRange.last { r with cnt := r.cnt + 1 } = v := by omega
      simp only [hne, ne_eq, not_true, if_false]
      rw [addEnd, if_pos (by simp [getLast?_map, hlast, h2]), map_append, map_cons,
        h3, map_dropLast]
      rfl
    · rw [if_pos hne] at hgood
      simp only [hne, ne_eq, not_false_eq_true, if_true]
      rw [addEnd, if_neg (by simpa [getLast?_map, hlast] using fun h => hne (heq.2 h)),
        map_append, map_cons, hone (hgood _ (by simp))]
      rfl

theorem map_last_rangesOf {d : Nat} {ns : List Nat} (h : ∀ n ∈ ns, n ≤ 2 ^ 31 ∧ n < 10 ^ d) :
    (rangesOf (ns.map (BitVec.ofNat 32))).map RegexRange.last = runEnds ns := by
  suffices hgen : ∀ rs : List RegexRange, (∀ r ∈ rs, r.Good d) →
      ((ns.map (BitVec.ofNat 32)).foldl addToRanges rs).map RegexRange.last =
        ns.foldl addEnd (rs.map RegexRange.last) by
    rw [rangesOf, hgen [] (by simp), map_nil, foldl_addEnd_nil]
  induction ns with
  | nil => simp
  | cons n ns ih =>
    intro rs hrs
    obtain ⟨⟨hn, hd⟩, hns⟩ := forall_mem_cons.1 h
    rw [map_cons, foldl_cons, foldl_cons, ih hns _ (addToRanges_numbers hrs hn hd).1,
      map_last_addToRanges hrs hn hd]

theorem Joined.ends (h : Joined done s) (hna : ∀ n ∈ done, Printable n) :
    (s.nodeids.flatMap fun g => g.ranges.map RegexRange.last) = ends done := by
  have hfil : (s.nodeids.flatMap fun g => g.ranges.map RegexRange.last) =
      (s.nodeids.filter fun g => g.ranges ≠ []).flatMap fun g => g.ranges.map RegexRange.last := by
    induction s.nodeids with
    | nil => rfl
    | cons g gs ih => by_cases hg : g.ranges = [] <;> simp [hg, ih]
  rw [hfil, h, Orte.ends, flatMap_map]
  refine flatMap_congr fun k hk => ?_
  have hof : ∀ n ∈ ofKind k done, n ∈ done ∧ Compressible n ∧ kind n = k := by simp [ofKind]
  have hnum : (ofKind k done).map keptNum =
      ((ofKind k done).map fun n => digitsValue (number n)).map (BitVec.ofNat 32) := by
    rw [map_map]
    exact map_congr_left fun n hn => keptNum_eq ((hna n (hof n hn).1).2 (hof n hn).2.1).2.2.2
  rw [nodeOf, hnum]
  refine map_last_rangesOf (d := k.2.2) (forall_mem_map.2 fun n hn => ?_)
  obtain ⟨hmem, hc, rfl⟩ := hof n hn
  exact ⟨((hna n hmem).2 hc).2.2.2, hc.value_lt⟩

end

/-! ## Which lists come back -/

theorem readRange_good (hL : L.Sound) {d : Nat} (hd : 0 < d) (base suffix : Text) {r : RegexRange}
    (hr : r.Good d) :
    Reads (readRange L base d suffix r) [r.last]
      (r.numbers.map fun i => base ++ pad d i ++ suffix) := by
  obtain ⟨h1, h2, h3⟩ := hr
  have hf := RegexRange.Good.first ⟨h1, h2, h3⟩
  have hlast := RegexRange.Good.last ⟨h1, h2, h3⟩
  have hlen := length_toDigits_le (n := r.last) hd (by omega)
  have hfi : L.Fits d r.last := by
    rcases Nat.eq_zero_or_pos r.last with h0 | h0
    · exact Or.inl h0
    · have := hL.exact r.last h0 r.last_le
      exact Or.inr (by omega)
  have hle : r.first ≤ r.last := by omega
  intro erange
  cases erange with
  | true => rfl
  | false =>
    simp only [readRange, Bool.false_eq_true, if_false, settle_cons, settle_nil]
    rw [expandRange_eq hL _ _ hd, if_pos ⟨hle, hfi⟩, rangeNames, RegexRange.numbers, hf,
      show r.last + 1 - r.start.toNat = r.cnt.toNat by omega]
    simp [← hf, hle]

theorem itemNames_good (hL : L.Sound) {names : List NodeName}
    (h : MadeFrom (names.map NodeName.text) g)
    (hna : ∀ n ∈ names, Printable n.text) (hg : ∀ r ∈ g.ranges, r.Good g.numDigits) :
    Reads (itemNames L g) (g.ranges.map RegexRange.last) g.names := by
  cases h with
  | solitary hn hc => exact Reads.pure _
  | @joint y _ hy hc hr hp hs hd =>
    obtain ⟨nn, hnn, rfl⟩ := mem_map.1 hy
    have hpos : 0 < g.numDigits := hd ▸ hc.digits_pos
    obtain ⟨hne, -⟩ := (hna nn hnn).2 hc
    have hp' : g.pre = some (leading nn.text) := by rw [hp, keptPre, if_neg hne]
    have hsmall : g.numDigits ≤ longMax := by
      have h1 := nn.short
      have h2 := countP_le_length (p := Char.isDigit) (l := nn.text)
      simp only [longMax]
      omega
    rw [itemNames_joint hr hp, if_neg hne, hs, Option.getD_some, map_eq_flatMap]
    refine Reads.check (by omega) ?_ (by simpa [← map_eq_flatMap] using hr)
    have hre := (Reads.mapM fun r hr => readRange_good hL hpos (leading nn.text) (trailing nn.text) (hg r hr)).map
      List.flatten
    have hnames : (g.ranges.map fun r => r.numbers.map fun i =>
        leading nn.text ++ pad g.numDigits i ++ trailing nn.text).flatten = g.names := by
      rw [RegexNode.names_of_ne hr]
      simp [hp', hs, flatMap, Function.comp_def]
    rwa [hnames] at hre

theorem roundTrips_of_printable_iff (hL : L.Sound) {names : List NodeName} (h2 : 2 ≤ names.length)
    (hna : ∀ n ∈ names, Printable n.text) :
    RoundTrips L names ↔ ZeroLast L.erange (ends (names.map NodeName.text)) := by
  have hpr : ∀ t ∈ names.map NodeName.text, Printable t := by simpa using hna
  obtain ⟨s, hs, hst⟩ := StandsFor.foldlM (Made.init L.erange) ⟨by simp, by simp⟩ hpr
  have hm : Made L.erange (names.map NodeName.text) s := by
    simpa using (Made.init L.erange).foldlM hs
  have hj : Joined (names.map NodeName.text) s := by
    simpa using Joined.foldlM (Made.init L.erange) (by rfl) hs
  have hne : names.map NodeName.text ≠ [] := fun hnil => by simp [map_eq_nil_iff.1 hnil] at h2
  have he : s.erange = L.erange := by
    rw [Bool.eq_iff_iff, hm.errno]
    refine or_iff_left ?_
    rintro ⟨y, hy, hc, hbig⟩
    have := ((hpr y hy).2 hc).2.2.2
    simp only [longMax] at hbig
    omega
  have hre : Reads (extractNodeNames L (commas (s.nodeids.filterMap RegexNode.text)))
      (ends (names.map NodeName.text)) (s.nodeids.flatMap RegexNode.names) := by
    rw [extractNodeNames_nodes (hm.nonempty hne) hm.made, ← hj.ends hpr]
    exact (Reads.mapM fun g hg =>
      itemNames_good hL (hm.made g hg) hna (hst.good g hg)).map List.flatten
  have hcr : create L.erange (commas (names.map NodeName.text)) =
      .ok (commas (s.nodeids.filterMap RegexNode.text), L.erange) := by
    rw [create_commas h2, hs, ← he]
    rfl
  have hre := hre L.erange
  rw [← settle_isSome_iff]
  cases hset : settle L.erange (ends (names.map NodeName.text)) with
  | none =>
    rw [hset] at hre
    simp only [Option.isSome_none, Bool.false_eq_true, iff_false]
    rintro ⟨regexp, erange, out, hcr', hex, -⟩
    obtain ⟨rfl, rfl⟩ := Prod.mk.inj (Except.ok.inj (hcr.symm.trans hcr'))
    rw [hre] at hex
    cases hex
  | some erange =>
    rw [hset] at hre
    simp only [Option.isSome_some, iff_true]
    exact ⟨_, _, _, hcr, congrArg Prod.fst hre, by simpa using hst.names⟩

/-- **Which lists round-trip**: a single name; or names whose letters fit in the buffer, of which
those that are put into ranges have a prefix, one number and a number not above `2^31`, and that
are written with no range that ends at 0 before another range, and with none at all if `errno` is
`ERANGE` before. -/
theorem roundTrips_iff {L : Libc} (hL : L.Sound) (names : List NodeName) :
    RoundTrips L names ↔
      names.length = 1 ∨
        (2 ≤ names.length ∧ (∀ n ∈ names, Printable n.text) ∧
          ZeroLast L.erange (ends (names.map NodeName.text))) := by
  match names with
  | [] =>
    simp only [length_nil, Nat.zero_ne_one, Nat.not_le_of_lt Nat.two_pos, false_and,
      or_self, iff_false]
    rintro ⟨regexp, erange, out, hcr, hex, -⟩
    cases hcr
    cases hex
  | [n] => simp [roundTrips_one]
  | a :: b :: rest =>
    have h2 : 2 ≤ (a :: b :: rest).length := by simp
    constructor
    · intro h
      have hna := printable_of_roundTrips hL h2 h
      exact Or.inr ⟨h2, hna, (roundTrips_of_printable_iff hL h2 hna).1 h⟩
    · rintro (h | ⟨-, hna, hz⟩)
      · simp at h
      · exact (roundTrips_of_printable_iff hL h2 hna).2 hz

/-- Two names in a range, one as it is. -/
theorem roundTrips_iff_range :
    RoundTrips sampleLibc
      [⟨"a01".toList, by decide, by decide, by decide⟩,
        ⟨"a02".toList, by decide, by decide, by decide⟩,
        ⟨"b-1".toList, by decide, by decide, by decide⟩] :=
  (roundTrips_iff sampleLibc_sound _).2 (by decide)

/-- `r1n2,r2n2` is written as `r[2:1-2]n2`, since each name has two digits, and that is read as
`r01n2,r02n2`. -/
theorem second_number_widens_first :
    create false "r1n2,r2n2".toList = .ok ("r[2:1-2]n2".toList, false) ∧
      (extractNodeNames sampleLibc "r[2:1-2]n2".toList false).1 =
      .ok ["r01n2".toList, "r02n2".toList] ∧
      ¬ RoundTrips sampleLibc
        [⟨"r1n2".toList, by decide, by decide, by decide⟩,
          ⟨"r2n2".toList, by decide, by decide, by decide⟩] := by
  refine (and_iff_left_of_imp fun hc => (and_iff_left_of_imp fun he => ?_).2 (by decide)).2
    (by decide)
  rintro ⟨regexp, erange, out, hcr, hex, hpe⟩
  obtain ⟨rfl, rfl⟩ := Prod.mk.inj (Except.ok.inj (hcr.symm.trans hc))
  obtain rfl := Except.ok.inj (hex.symm.trans he)
  exact absurd hpe (by decide)

end Sensys.Orte
