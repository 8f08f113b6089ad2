import Mathlib.Data.List.Nodup
import Sensys.Lib.Worklist
/-!
# Expanding logical groups (`orcm/util/logical_group.c`)

| here | there |
| --- | --- |
| `Groups` | `LOGICAL_GROUP.groups`: group name to member list |
| `appendUnique` | `opal_argv_append_unique_nosize` (`argv.c:125-150`) |
| `Work` | the locals of the loop: `*tag_array`, `count`, `*o_array_string` |
| `tagToMembersNested` | `orcm_logical_group_tag_to_members_nested` (`logical_group.c:967-1010`) |
| `parseArrayString` | `orcm_logical_group_parse_array_string` (`logical_group.c:1012-1055`) |

A member is a nested group when the table has a group of that name. The loop takes the first pending
group, appends its nested groups unless they are pending already, and removes the first. A group
that was removed is appended again when it is met again.

`count` goes up for every nested group met, appended or not, so it can be more than there are
pending groups; the loop then reads the `NULL` behind them (`strlen(NULL)`), which is
`Outcome.crash`. `orte_regex_extract_node_names` is a parameter, and running out of memory is left
out.
-/
namespace Sensys.LogicalGroup
open Relation List

/-- The group table. -/
abbrev Groups := List (String × List String)

/-- `opal_argv_append_unique_nosize` with `overwrite` false. -/
def appendUnique (argv : List String) (arg : String) : List String :=
  if arg ∈ argv then argv else argv ++ [arg]

structure Work where
  tags  : List String
  count : Int
  out   : List String
deriving DecidableEq, Repr

inductive Outcome where
  | success (out : List String)
  /-- An error return; the output array is freed. -/
  | error
  /-- `strlen(NULL)`. -/
  | crash
deriving DecidableEq, Repr

/-- The body of the loop over the members of a group. -/
def expandMember (T : Groups) (w : Work) (m : String) : Work :=
  match T.lookup m with
  | some _ => { w with tags := appendUnique w.tags m, count := w.count + 1 }
  | none => { w with out := appendUnique w.out m }

/-- One turn of the `while` loop for the group `tag`; the last line is `opal_argv_delete` of the
first. -/
def expandTag (T : Groups) (w : Work) (tag : String) : Work :=
  let w := match T.lookup tag with
    | some members => members.foldl (expandMember T) w
    | none => w
  { w with tags := w.tags.tail, count := w.count - 1 }

/-- `none`: the loop is still running after that many turns. -/
def tagToMembersNested (T : Groups) : Nat → Work → Option Outcome
  | 0, _ => none
  | fuel + 1, w =>
    if 0 < w.count then
      match w.tags with
      | [] => some .crash
      | tag :: _ => tagToMembersNested T fuel (expandTag T w tag)
    else some (.success w.out)

/-- `orcm_logical_group_trim_string`: blanks and tabs at both ends. -/
def trimString (s : String) : String :=
  let blank : Char → Bool := fun c => c = ' ' ∨ c = '\t'
  String.ofList ((s.toList.dropWhile blank).reverse.dropWhile blank).reverse

/-- The loop over the extracted names: `$` and a name go to the tags, other names to the output. -/
def splitTags (names : List String) (out : List String) : List String × List String :=
  names.foldl (fun p nm =>
    match nm.toList with
    | '$' :: cs => (appendUnique p.1 (String.ofList cs), p.2)
    | _ => (p.1, appendUnique p.2 nm)) ([], out)

def parseArrayString (extract : String → Option (List String)) (T : Groups) (fuel : Nat)
    (regex : Option String) (out : List String) : Option Outcome :=
  match regex.map trimString with
  | none => some (.success out)
  | some r =>
    if r = "" then some (.success out)
    else
      match extract r with
      | none => some .error
      | some names =>
        let (tags, out) := splitTags names out
        tagToMembersNested T fuel ⟨tags, tags.length, out⟩

/-! ## The graph of the table -/

/-- Group `g` has the group `h` as a member. -/
def Refers (T : Groups) (g h : String) : Prop :=
  ∃ members, T.lookup g = some members ∧ h ∈ members ∧ (T.lookup h).isSome

/-- `h` is met when `g` is expanded, through any number of groups. -/
abbrev Reaches (T : Groups) : String → String → Prop := ReflTransGen (Refers T)

/-- The groups a list refers to. -/
def startTags (extract : String → Option (List String)) (regex : Option String) : List String :=
  match regex.map trimString with
  | none => []
  | some r => if r = "" then [] else (splitTags ((extract r).getD []) []).1

theorem mem_appendUnique {l : List String} {x y : String} :
    y ∈ appendUnique l x ↔ y ∈ l ∨ y = x := by
  unfold appendUnique
  split
  · rename_i hx
    constructor
    · exact Or.inl
    · rintro (h | rfl)
      · exact h
      · exact hx
  · rw [mem_append, mem_singleton]

/-- Appending with `appendUnique` appends some of the arguments, in their order, none of which was
there. -/
theorem foldl_appendUnique (xs l : List String) :
    ∃ added, xs.foldl appendUnique l = l ++ added ∧ added.Sublist xs ∧ ∀ x ∈ added, x ∉ l := by
  induction xs generalizing l with
  | nil => exact ⟨[], by simp⟩
  | cons x xs ih =>
    obtain ⟨added, happ, hsub, hnew⟩ := ih (appendUnique l x)
    rw [foldl_cons, happ]
    have hold : ∀ y ∈ added, y ∉ l := fun y hy h => hnew y hy (mem_appendUnique.2 (Or.inl h))
    by_cases hx : x ∈ l
    · exact ⟨added, by simp [appendUnique, hx], hsub.cons x, hold⟩
    · refine ⟨x :: added, by simp [appendUnique, hx], hsub.cons_cons x, fun y hy => ?_⟩
      rcases mem_cons.1 hy with rfl | hy
      · exact hx
      · exact hold y hy

variable {xs l : List String}

theorem mem_foldl_appendUnique {y : String} :
    y ∈ xs.foldl appendUnique l ↔ y ∈ l ∨ y ∈ xs := by
  induction xs generalizing l with
  | nil => simp
  | cons x xs ih => simp [ih, mem_appendUnique, or_assoc]

theorem nodup_foldl_appendUnique (h : l.Nodup) : (xs.foldl appendUnique l).Nodup := by
  induction xs generalizing l with
  | nil => exact h
  | cons x xs ih =>
    refine ih ?_
    unfold appendUnique
    split
    · exact h
    · rename_i hx
      exact nodup_append.2
        ⟨h, nodup_singleton x, by simpa using fun a ha => ne_of_mem_of_not_mem ha hx⟩

/-- The members of a group that are groups, in order. -/
def nested (T : Groups) (g : String) : List String :=
  ((T.lookup g).getD []).filter fun m => (T.lookup m).isSome

/-- Its other members. -/
def plain (T : Groups) (g : String) : List String :=
  ((T.lookup g).getD []).filter fun m => (T.lookup m).isNone

variable {T : Groups} {g h : String} {start : List String} {w : Work} {rest : List String}
  {out : List String} {tag : String}

theorem refers_iff : Refers T g h ↔ h ∈ nested T g := by
  unfold Refers nested
  cases T.lookup g <;> simp

theorem foldl_expandMember (T : Groups) (members : List String) (w : Work) :
    members.foldl (expandMember T) w =
      ⟨(members.filter fun m => (T.lookup m).isSome).foldl appendUnique w.tags,
        w.count + (members.filter fun m => (T.lookup m).isSome).length,
        (members.filter fun m => (T.lookup m).isNone).foldl appendUnique w.out⟩ := by
  induction members generalizing w with
  | nil => simp
  | cons m members ih =>
    rw [foldl_cons, ih]
    cases hm : T.lookup m with
    | none => simp [expandMember, hm]
    | some ms =>
      simp [expandMember, hm]
      omega

theorem expandTag_eq (T : Groups) (w : Work) (tag : String) :
    expandTag T w tag =
      ⟨((nested T tag).foldl appendUnique w.tags).tail, w.count + (nested T tag).length - 1,
        (plain T tag).foldl appendUnique w.out⟩ := by
  unfold expandTag nested plain
  cases T.lookup tag with
  | none => simp
  | some ms => simp [foldl_expandMember]

/-- One turn: the first group goes, nested groups of it that were not pending come in at the end. -/
theorem expandTag_spec (T : Groups) (hw : w.tags = tag :: rest) :
    ∃ added, (expandTag T w tag).tags = rest ++ added ∧
      (∀ m ∈ added, Refers T tag m ∧ m ≠ tag) ∧
      (∀ m, Refers T tag m → m ≠ tag → m ∈ rest ++ added) ∧
      w.count - 1 + added.length ≤ (expandTag T w tag).count := by
  obtain ⟨added, happ, hsub, hnew⟩ := foldl_appendUnique (nested T tag) w.tags
  rw [hw] at happ hnew
  have hnext : (expandTag T w tag).tags = rest ++ added := by simp [expandTag_eq, happ, hw]
  refine ⟨added, hnext, fun m hm => ⟨refers_iff.2 (hsub.subset hm), ?_⟩, fun m hm hne => ?_, ?_⟩
  · rintro rfl
    exact hnew m hm mem_cons_self
  · have hmem : m ∈ (nested T tag).foldl appendUnique (tag :: rest) :=
      mem_foldl_appendUnique.2 (Or.inr (refers_iff.1 hm))
    rw [happ, cons_append, mem_cons] at hmem
    exact hmem.resolve_left hne
  · have := hsub.length_le
    simp only [expandTag_eq]
    omega

/-! ## When the loop stops -/

/-- **No two groups that can be met refer to each other**, directly or through others. -/
def NoMutual (T : Groups) (start : List String) : Prop :=
  ∀ t ∈ start, ∀ g h, Reaches T t g → Reaches T g h → Reaches T h g → g = h

/-- The references that start from a group that can be met. -/
def RefersFrom (T : Groups) (start : List String) (g h : String) : Prop :=
  (∃ t ∈ start, Reaches T t g) ∧ Refers T g h

theorem RefersFrom.reaches (hr : ReflTransGen (RefersFrom T start) g h) : Reaches T g h :=
  ReflTransGen.mono (fun _ _ h => h.2) _ _ hr

theorem wellFounded_refersFrom (h : NoMutual T start) :
    WellFounded fun b a => RefersFrom T start a b ∧ b ≠ a := by
  refine Worklist.wellFounded_strict (T.map Prod.fst).toFinset ?_ ?_
  · rintro a b ⟨_, ms, _, _, hb⟩
    obtain ⟨ms', hb'⟩ := Option.isSome_iff_exists.1 hb
    obtain ⟨l₁, l₂, rfl, _⟩ := lookup_eq_some_iff.1 hb'
    simp
  · intro a b hab hba
    by_contra hne
    -- a first step out of `a` shows that `a` can be met
    obtain ⟨c, ⟨⟨t, ht, hta⟩, _⟩, _⟩ := Worklist.exists_leaving hab hne
    exact hne (h t ht a b hta (RefersFrom.reaches hab) (RefersFrom.reaches hba))

theorem stops_of_noMutual (h : NoMutual T start) :
    ∀ (w : Work), (∀ x ∈ w.tags, ∃ t ∈ start, Reaches T t x) →
      ∃ fuel, (tagToMembersNested T fuel w).isSome := by
  have hwf := Worklist.wellFounded_step (wellFounded_refersFrom h)
  suffices H : ∀ tags : List String, ∀ w : Work, w.tags = tags →
      (∀ x ∈ w.tags, ∃ t ∈ start, Reaches T t x) → ∃ fuel, (tagToMembersNested T fuel w).isSome from
    fun w => H w.tags w rfl
  intro tags
  induction tags using hwf.induction with
  | _ tags ih =>
    intro w hw hmet
    by_cases hc : 0 < w.count
    · cases hta : w.tags with
      | nil => exact ⟨1, by simp [tagToMembersNested, hc, hta]⟩
      | cons tag rest =>
        obtain ⟨added, hnext, hadd, _, _⟩ := expandTag_spec T hta
        have htag := hmet tag (by rw [hta]; exact mem_cons_self)
        obtain ⟨fuel, hf⟩ := ih (rest ++ added)
          ⟨tag, rest, added, hw.symm.trans hta, rfl,
            fun b hb => ⟨⟨htag, (hadd b hb).1⟩, (hadd b hb).2⟩⟩
          (expandTag T w tag) hnext (fun x hx => by
            rw [hnext] at hx
            rcases mem_append.1 hx with hx | hx
            · exact hmet x (by rw [hta]; exact mem_cons_of_mem _ hx)
            · obtain ⟨t, ht, hre⟩ := htag
              exact ⟨t, ht, hre.tail (hadd x hx).1⟩)
        exact ⟨fuel + 1, by simpa [tagToMembersNested, hc, hta] using hf⟩
    · exact ⟨1, by simp [tagToMembersNested, hc]⟩

/-! ## When it does not -/

/-- A pending group leads to `g`, and the count is not behind. -/
def LeadsTo (T : Groups) (g : String) (w : Work) : Prop :=
  (∃ x ∈ w.tags, Reaches T x g) ∧ (w.tags.length : Int) ≤ w.count

theorem LeadsTo.expandTag (hne : g ≠ h) (hgh : Reaches T g h)
    (hhg : Reaches T h g) (hw : w.tags = tag :: rest)
    (hl : LeadsTo T g w) : LeadsTo T g (expandTag T w tag) := by
  obtain ⟨added, hnext, _, hall, hco⟩ := expandTag_spec T hw
  obtain ⟨⟨x, hx, hre⟩, hlen⟩ := hl
  refine ⟨?_, ?_⟩
  · rw [hnext]
    rw [hw, mem_cons] at hx
    by_cases hxt : x = tag
    · -- the group on the way is the one expanded: it has a nested group that leads on
      subst hxt
      obtain ⟨y, hxy, hyx, hyg⟩ : ∃ y, Refers T x y ∧ y ≠ x ∧ Reaches T y g := by
        by_cases hxg : x = g
        · subst hxg
          obtain ⟨y, h1, h2, h3⟩ := Worklist.exists_leaving hgh hne
          exact ⟨y, h1, h2, h3.trans hhg⟩
        · exact Worklist.exists_leaving hre hxg
      exact ⟨y, hall y hxy hyx, hyg⟩
    · exact ⟨x, mem_append_left _ (hx.resolve_left hxt), hre⟩
  · rw [hnext, length_append]
    rw [hw, length_cons] at hlen
    omega

theorem runs_forever (hne : g ≠ h) (hgh : Reaches T g h)
    (hhg : Reaches T h g) :
    ∀ (fuel : Nat) {w : Work}, LeadsTo T g w → tagToMembersNested T fuel w = none
  | 0, _, _ => rfl
  | fuel + 1, w, hl => by
    obtain ⟨x, hx, _⟩ := hl.1
    cases hw : w.tags with
    | nil => rw [hw] at hx; cases hx
    | cons tag rest =>
      have hc : 0 < w.count := by
        have := hl.2
        rw [hw, length_cons] at this
        omega
      simp only [tagToMembersNested, if_pos hc, hw]
      exact runs_forever hne hgh hhg fuel (hl.expandTag hne hgh hhg hw)

/-! ## The whole function -/

theorem splitTags_eq (names out : List String) :
    splitTags names out =
      ((names.filterMap fun nm => match nm.toList with
        | '$' :: cs => some (String.ofList cs)
        | _ => none).foldl appendUnique [],
        (names.filter fun nm => nm.toList.head? ≠ some '$').foldl appendUnique out) := by
  unfold splitTags
  generalize ([] : List String) = tags
  induction names generalizing tags out with
  | nil => rfl
  | cons nm names ih =>
    rw [foldl_cons]
    split
    · rename_i cs hcs
      simp [ih, hcs]
    · rename_i hne
      have hhe : nm.toList.head? ≠ some '$' := by
        intro hh
        obtain ⟨cs, hcs⟩ := List.head?_eq_some_iff.1 hh
        exact hne cs hcs
      simp [ih, hhe]

theorem splitTags_fst (names out : List String) :
    (splitTags names out).1 = (splitTags names []).1 := by
  rw [splitTags_eq names out, splitTags_eq names []]

/-- A list is expanded to names that are all different. -/
theorem nodup_tagToMembersNested {fuel : Nat} (h : w.out.Nodup)
    (hout : tagToMembersNested T fuel w = some (.success out)) : out.Nodup := by
  induction fuel generalizing w with
  | zero => cases hout
  | succ fuel ih =>
    unfold tagToMembersNested at hout
    split at hout
    · split at hout
      · cases hout
      · refine ih ?_ hout
        rw [expandTag_eq]
        exact nodup_foldl_appendUnique h
    · obtain rfl : w.out = out := by simpa using hout
      exact h

theorem nodup_splitTags {names out : List String} (h : out.Nodup) :
    (splitTags names out).2.Nodup := by
  rw [splitTags_eq]
  exact nodup_foldl_appendUnique h

theorem nodup_parseArrayString {extract : String → Option (List String)} {fuel : Nat}
    {regex : Option String}
    (hout : parseArrayString extract T fuel regex [] = some (.success out)) : out.Nodup := by
  unfold parseArrayString at hout
  split at hout
  · obtain rfl : [] = out := by simpa using hout
    exact nodup_nil
  · split at hout
    · obtain rfl : [] = out := by simpa using hout
      exact nodup_nil
    · split at hout
      · cases hout
      · exact nodup_tagToMembersNested (nodup_splitTags nodup_nil) hout

/-- Groups `A` and `B` are members of each other: expanding `$A` never stops. -/
theorem mutual_groups_run_forever :
    ¬∃ fuel, (parseArrayString (fun r => some [r]) [("A", ["B"]), ("B", ["A"])] fuel (some "$A")
      []).isSome := by
  have hloop : ∀ n, tagToMembersNested [("A", ["B"]), ("B", ["A"])] n ⟨["A"], 1, []⟩ = none ∧
      tagToMembersNested [("A", ["B"]), ("B", ["A"])] n ⟨["B"], 1, []⟩ = none := by
    intro n
    induction n with
    | zero => exact ⟨rfl, rfl⟩
    | succ n ih => exact ⟨ih.2, ih.1⟩
  rintro ⟨fuel, hf⟩
  have hno : parseArrayString (fun r => some [r]) [("A", ["B"]), ("B", ["A"])] fuel
      (some "$A") [] = none :=
    (hloop fuel).1
  rw [hno] at hf
  cases hf

end Sensys.LogicalGroup
