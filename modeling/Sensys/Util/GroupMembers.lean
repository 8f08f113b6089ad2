import Sensys.Orte.NodeList
import Sensys.Util.LogicalGroup
/-!
# The members a list of groups stands for

`parseArrayString` appends a nested group only if it is not pending, but counts it in any case. As
long as no group is met while it is pending, `count` is the number of pending groups, and the loop
is a walk over the references level by level: `InWalk`. When a group is met while it is pending,
`count` stays too large, and the loop ends with a read of the `NULL` behind the last group, if it
ends: on a cycle of groups it does not.
-/
namespace Sensys.LogicalGroup
open Relation Orte List

/-- `orte_regex_extract_node_names` on strings. -/
def extractStrings (L : Libc) (regex : String) : Option (List String) :=
  match (extractNodeNames L regex.toList L.erange).1 with
  | .ok names => some (names.map String.ofList)
  | .error _ => none

/-- A text that is, up to blanks at its ends, a list of names between commas; a name may start
with `$`. -/
structure NameList where
  regex : String
  items : List String
  ne    : items ≠ []
  named : ∀ x ∈ items, x.toList ≠ [] ∧ ∀ c ∈ x.toList, inBase c = true
  text  : trimString regex = String.ofList (commas (items.map String.toList))

/-- The groups named in the list, each once. -/
def NameList.tags (l : NameList) : List String := (splitTags l.items []).1

/-- One turn of the loop, `none` if it has stopped. -/
def turn (T : Groups) (w : Work) : Option Work :=
  if 0 < w.count then
    match w.tags with
    | [] => none
    | tag :: _ => some (expandTag T w tag)
  else none

/-- `n` turns. -/
def afterTurns (T : Groups) : Nat → Work → Option Work
  | 0, w => some w
  | n + 1, w => (turn T w).bind (afterTurns T n)

/-- The loop as it starts. -/
def NameList.start (l : NameList) : Work := ⟨l.tags, l.tags.length, (splitTags l.items []).2⟩

/-- The list has the item `$t`. -/
def NameList.Names (l : NameList) (t : String) : Prop := String.ofList ('$' :: t.toList) ∈ l.items

/-- A plain name of the list, or a plain member of a group that can be reached from it. -/
def Meant (T : Groups) (l : NameList) (x : String) : Prop :=
  (x ∈ l.items ∧ x.toList.head? ≠ some '$') ∨ ∃ t, l.Names t ∧ ∃ g, Reaches T t g ∧ x ∈ plain T g

/-- The nested groups of the named groups, of these, and so on; each as often as it is met. -/
def level (T : Groups) (start : List String) : Nat → List String
  | 0 => start
  | k + 1 => (level T start k).flatMap (nested T)

/-- **No group is met while it is pending**: when a part of a level has been expanded, its other
groups and the nested groups of that part are all different. -/
def MetOnce (T : Groups) (start : List String) : Prop :=
  ∀ k done rest, level T start k = done ++ rest → (rest ++ done.flatMap (nested T)).Nodup

/-- Nothing is left out exactly when all arguments are new and different. -/
theorem length_foldl_appendUnique {xs l : List String} (h : l.Nodup) :
    (xs.foldl appendUnique l).length = l.length + xs.length ↔ (l ++ xs).Nodup := by
  obtain ⟨added, happ, hsub, hnew⟩ := foldl_appendUnique xs l
  constructor
  · intro hlen
    rw [happ, length_append] at hlen
    have : added = xs := hsub.eq_of_length (by omega)
    rw [← this, ← happ]
    exact nodup_foldl_appendUnique h
  · intro hnd
    have : xs.length ≤ added.length := by
      refine (nodup_append.1 hnd).2.1.subperm (fun x hx => ?_) |>.length_le
      have hmem : x ∈ xs.foldl appendUnique l := mem_foldl_appendUnique.2 (Or.inr hx)
      rw [happ, mem_append] at hmem
      exact hmem.resolve_left fun hl => (nodup_append.1 hnd).2.2 x hl x hx rfl
    have := hsub.length_le
    rw [happ, length_append]
    omega

variable {x : String}

theorem foldl_appendUnique_eq {xs l : List String} (h : (l ++ xs).Nodup) :
    xs.foldl appendUnique l = l ++ xs := by
  obtain ⟨added, happ, hsub, -⟩ := foldl_appendUnique xs l
  have hlen := (length_foldl_appendUnique (nodup_append.1 h).1).2 h
  rw [happ, length_append] at hlen
  rw [happ, hsub.eq_of_length (by omega)]

section
variable {T : Groups} {w : Work} {tag : String} {rest : List String}

/-- A turn keeps the count right exactly when no nested group is pending; the pending groups are
then the other ones and all nested groups. -/
theorem expandTag_count (hnd : w.tags.Nodup) (hw : w.tags = tag :: rest)
    (hco : w.count = w.tags.length) :
    ((expandTag T w tag).count = (expandTag T w tag).tags.length ↔ (w.tags ++ nested T tag).Nodup) ∧
      ((w.tags ++ nested T tag).Nodup → (expandTag T w tag).tags = rest ++ nested T tag) := by
  refine ⟨?_, fun h => ?_⟩
  · rw [← length_foldl_appendUnique hnd]
    have hpos : 0 < ((nested T tag).foldl appendUnique w.tags).length := by
      refine length_pos_of_mem (mem_foldl_appendUnique.2 (Or.inl ?_)) (a := tag)
      simp [hw]
    simp only [expandTag_eq, length_tail]
    omega
  · rw [expandTag_eq, foldl_appendUnique_eq h, hw]
    rfl

/-- A turn reads the plain members of the group and puts its nested groups behind the pending
ones. -/
theorem mem_expandTag_out : x ∈ (expandTag T w tag).out ↔ x ∈ w.out ∨ x ∈ plain T tag := by
  rw [expandTag_eq]
  exact mem_foldl_appendUnique

end

/-! ## The walk over the levels -/

theorem afterTurns_succ (T : Groups) (n : Nat) (w : Work) :
    afterTurns T (n + 1) w = (afterTurns T n w).bind (turn T) := by
  induction n generalizing w with
  | zero => cases h : turn T w <;> simp [afterTurns, h]
  | succ n ih =>
    cases h : turn T w with
    | none => simp [afterTurns, h]
    | some w' =>
      have := ih w'
      simpa [afterTurns, h] using this

variable {T : Groups} {w : Work} {tag : String} (names : List String) {rest : List String}
  {l : NameList}

theorem turn_cons (hw : w.tags = tag :: rest)
    (hco : w.count = w.tags.length) : turn T w = some (expandTag T w tag) := by
  have hpos : 0 < w.count := by simp [hco, hw]
  simp [turn, hpos, hw]

/-- What is kept by a turn is kept by every number of turns. -/
theorem afterTurns_rule {P : Work → Prop}
    (hst : ∀ {w : Work} {tag : String} {tl : List String}, P w → w.tags = tag :: tl →
      P (expandTag T w tag)) :
    ∀ {n : Nat} {w w' : Work}, P w → afterTurns T n w = some w' → P w'
  | 0, _, _, h, hn => by
    cases hn
    exact h
  | n + 1, w, w', h, hn => by
    obtain ⟨w1, htu, hn⟩ := Option.bind_eq_some_iff.1 hn
    refine afterTurns_rule hst ?_ hn
    unfold turn at htu
    split at htu
    · split at htu
      · cases htu
      · rename_i tag tl hta
        cases htu
        exact hst h hta
    · cases htu

/-- The pending groups are the rest of a level and what has been found of the next one. -/
def InWalk (T : Groups) (start : List String) (w : Work) : Prop :=
  w.count = w.tags.length ∧
    ∃ k done rest, level T start k = done ++ rest ∧ w.tags = rest ++ done.flatMap (nested T)

section
variable {T : Groups} {start : List String} {w : Work}

theorem InWalk.step (h : InWalk T start w) (hac : ∀ k, ∀ g ∈ level T start k, g ∉ nested T g)
    (ho : MetOnce T start) {tl : List String} (hw : w.tags = tag :: tl) :
    InWalk T start (expandTag T w tag) := by
  obtain ⟨hco, hpos⟩ := h
  -- at the end of a level the next one starts
  obtain ⟨k, done, rest, hle, htl⟩ : ∃ k done rest, level T start k = done ++ tag :: rest ∧
      tl = rest ++ done.flatMap (nested T) := by
    obtain ⟨k, done, rest, hle, hta⟩ := hpos
    rw [hw] at hta
    cases rest with
    | nil => exact ⟨k + 1, [], tl, by simpa [level, hle] using hta.symm, by simp⟩
    | cons x rest =>
      obtain ⟨rfl, rfl⟩ := List.cons.inj hta
      exact ⟨k, done, rest, hle, rfl⟩
  have hnd : w.tags.Nodup := by
    have := ho k done (tag :: rest) hle
    rwa [cons_append, ← htl, ← hw] at this
  have hnext : (w.tags ++ nested T tag).Nodup := by
    have hcut := ho k (done ++ [tag]) rest (by simpa using hle)
    have htag := hac k tag (by rw [hle]; simp)
    rw [hw] at hnd ⊢
    rw [cons_append, nodup_cons, mem_append, not_or]
    exact ⟨⟨(nodup_cons.1 hnd).1, htag⟩, by simpa [htl, append_assoc] using hcut⟩
  obtain ⟨hiff, hta⟩ := expandTag_count hnd hw hco
  exact ⟨hiff.2 hnext, k, done ++ [tag], rest, by simpa using hle, by simp [hta hnext, htl]⟩

theorem InWalk.afterTurns (h : InWalk T start w) (hac : ∀ k, ∀ g ∈ level T start k, g ∉ nested T g)
    (ho : MetOnce T start) {n : Nat} {w' : Work} (hn : LogicalGroup.afterTurns T n w = some w') :
    InWalk T start w' :=
  afterTurns_rule (fun h hta => h.step hac ho hta) h hn

/-- From a point of a level to the next one. -/
theorem visits_next {k : Nat} {done : List String}
    (hco : ∀ n w', LogicalGroup.afterTurns T n w = some w' → w'.count = w'.tags.length)
    (ih : ∀ rest, level T start k = done ++ rest → ∃ n w', LogicalGroup.afterTurns T n w = some w' ∧
      w'.tags = rest ++ done.flatMap (nested T) ∧ w'.tags.Nodup)
    (rest : List String) (hle : level T start k = done ++ [x] ++ rest) :
    ∃ n w', LogicalGroup.afterTurns T n w = some w' ∧
      w'.tags = rest ++ (done ++ [x]).flatMap (nested T) ∧
      w'.tags.Nodup := by
  obtain ⟨n, w1, hn, hta, hnd⟩ := ih (x :: rest) (by simpa using hle)
  have htu : LogicalGroup.afterTurns T (n + 1) w = some (expandTag T w1 x) := by
    rw [afterTurns_succ, hn]
    exact turn_cons hta (hco n w1 hn)
  obtain ⟨hiff, hnext⟩ := expandTag_count hnd hta (hco n w1 hn)
  have hnd' := hiff.1 (hco _ _ htu)
  refine ⟨n + 1, _, htu, ?_, ?_⟩
  · simp [hnext hnd']
  · rw [hta, cons_append] at hnd'
    rw [hnext (by rwa [hta, cons_append])]
    exact (nodup_cons.1 hnd').2

/-- If the count is right after every turn, the walk comes to every point of every level, and the
pending groups are different there. -/
theorem visits (hst : w.tags = start) (hnd : start.Nodup)
    (hco : ∀ n w', LogicalGroup.afterTurns T n w = some w' → w'.count = w'.tags.length) :
    ∀ k done rest, level T start k = done ++ rest →
      ∃ n w', LogicalGroup.afterTurns T n w = some w' ∧ w'.tags = rest ++ done.flatMap (nested T) ∧
      w'.tags.Nodup := by
  intro k
  induction k with
  | zero =>
    intro done
    induction done using List.reverseRecOn with
    | nil =>
      intro rest hle
      refine ⟨0, w, rfl, ?_, hst ▸ hnd⟩
      rw [hst]
      simpa [level] using hle
    | append_singleton done x ih => exact visits_next hco ih
  | succ k ihk =>
    intro done
    induction done using List.reverseRecOn with
    | nil =>
      intro rest hle
      obtain ⟨n, w', hn, hta, hnd'⟩ := ihk (level T start k) [] (by simp)
      refine ⟨n, w', hn, ?_, hnd'⟩
      rw [hta]
      simpa [level] using hle
    | append_singleton done x ih => exact visits_next hco ih

end

/-! ## What is found -/

namespace NameList
variable (l : NameList)

theorem mem_tags {t : String} : t ∈ l.tags ↔ l.Names t := by
  rw [tags, splitTags_eq, mem_foldl_appendUnique, mem_filterMap, NameList.Names]
  simp only [not_mem_nil, false_or]
  constructor
  · rintro ⟨nm, hnm, hm⟩
    split at hm
    · rename_i cs hcs
      cases hm
      rw [String.toList_ofList, ← hcs, String.ofList_toList]
      exact hnm
    · cases hm
  · intro h
    refine ⟨_, h, ?_⟩
    simp

theorem tags_nodup : l.tags.Nodup := by
  rw [tags, splitTags_eq]
  exact nodup_foldl_appendUnique nodup_nil

theorem mem_start_out : x ∈ l.start.out ↔ x ∈ l.items ∧ x.toList.head? ≠ some '$' := by
  rw [start, splitTags_eq]
  simp [mem_foldl_appendUnique]

theorem start_out_nodup : l.start.out.Nodup := by
  rw [start, splitTags_eq]
  exact nodup_foldl_appendUnique nodup_nil

/-- The function on such a list is the loop. -/
theorem parse_eq (L : Libc) (T : Groups) (fuel : Nat) :
    parseArrayString (extractStrings L) T fuel (some l.regex) [] =
      tagToMembersNested T fuel l.start := by
  have hna := extractNodeNames_plain L (by simpa using l.ne) (forall_mem_map.2 l.named)
  have hex : extractStrings L (trimString l.regex) = some l.items := by
    rw [extractStrings, l.text, String.toList_ofList, hna, pure_apply]
    simp [Function.comp_def]
  have hne : trimString l.regex ≠ "" := by
    rw [l.text]
    intro h
    obtain ⟨x, xs, hx⟩ := exists_cons_of_ne_nil l.ne
    have h := congrArg String.toList h
    rw [String.toList_ofList, hx, map_cons, commas_cons] at h
    exact (l.named x (by simp [hx])).1 (append_eq_nil_iff.1 h).1
  simp only [parseArrayString, Option.map_some, if_neg hne, hex]
  rfl

end NameList

/-- What the loop has found: nothing that is not meant, and what is still missing can be reached
from a pending group. -/
structure Found (T : Groups) (l : NameList) (w : Work) : Prop where
  nodup   : w.out.Nodup
  sound   : ∀ x ∈ w.out, Meant T l x
  pending : ∀ g ∈ w.tags, ∃ t, l.Names t ∧ Reaches T t g
  listed  : ∀ x ∈ l.items, x.toList.head? ≠ some '$' → x ∈ w.out
  reached : ∀ t, l.Names t → ∀ g, Reaches T t g → (∀ x ∈ plain T g, x ∈ w.out) ∨
    ∃ p ∈ w.tags, Reaches T p g

theorem Found.start (T : Groups) (l : NameList) : Found T l l.start where
  nodup := l.start_out_nodup
  sound _ hx := Or.inl (l.mem_start_out.1 hx)
  pending g hg := ⟨g, l.mem_tags.1 hg, ReflTransGen.refl⟩
  listed _ hx hh := l.mem_start_out.2 ⟨hx, hh⟩
  reached t ht _ hg := Or.inr ⟨t, l.mem_tags.2 ht, hg⟩

theorem Found.step (h : Found T l w)
    (hw : w.tags = tag :: rest) : Found T l (expandTag T w tag) := by
  obtain ⟨t0, ht0, htag⟩ := h.pending tag (by simp [hw])
  obtain ⟨added, hta, hadd, hall, -⟩ := expandTag_spec T hw
  refine ⟨?_, fun x hx => ?_, fun g hg => ?_,
    fun x hx hh => mem_expandTag_out.2 (Or.inl (h.listed x hx hh)), fun t ht g hg => ?_⟩
  · rw [expandTag_eq]
    exact nodup_foldl_appendUnique h.nodup
  · rcases mem_expandTag_out.1 hx with hx | hx
    · exact h.sound x hx
    · exact Or.inr ⟨t0, ht0, tag, htag, hx⟩
  · rw [hta, mem_append] at hg
    rcases hg with hg | hg
    · exact h.pending g (by simp [hw, hg])
    · exact ⟨t0, ht0, htag.tail (hadd g hg).1⟩
  · rcases h.reached t ht g hg with hdo | ⟨p, hp, hpg⟩
    · exact Or.inl fun x hx => mem_expandTag_out.2 (Or.inl (hdo x hx))
    · rw [hw, mem_cons] at hp
      rcases hp with rfl | hp
      · by_cases hpeq : p = g
        · exact Or.inl fun x hx => mem_expandTag_out.2 (Or.inr (hpeq ▸ hx))
        · obtain ⟨y, hpy, hne, hyg⟩ := Worklist.exists_leaving hpg hpeq
          exact Or.inr ⟨y, hta ▸ hall y hpy hne, hyg⟩
      · exact Or.inr ⟨p, by rw [hta]; exact mem_append_left _ hp, hpg⟩

theorem Found.afterTurns (h : Found T l w) {n : Nat} {w' : Work}
    (hn : LogicalGroup.afterTurns T n w = some w') : Found T l w' :=
  afterTurns_rule Found.step h hn

/-- How the loop ends: with a count of zero, or with one that is too large. -/
theorem tagToMembersNested_ends {fuel : Nat} {o : Outcome}
    (h : tagToMembersNested T fuel w = some o) :
    ∃ n w', afterTurns T n w = some w' ∧
      ((w'.count ≤ 0 ∧ o = .success w'.out) ∨ (0 < w'.count ∧ w'.tags = [] ∧ o = .crash)) := by
  induction fuel generalizing w with
  | zero => cases h
  | succ fuel ih =>
    rw [tagToMembersNested] at h
    split at h
    · rename_i hpos
      split at h
      · rename_i hta
        cases h
        exact ⟨0, w, rfl, Or.inr ⟨hpos, hta, rfl⟩⟩
      · rename_i tag tl hta
        obtain ⟨n, w', hn, ho⟩ := ih h
        exact ⟨n + 1, w', by simp [afterTurns, turn, hpos, hta, hn], ho⟩
    · cases h
      exact ⟨0, w, rfl, Or.inl ⟨by omega, rfl⟩⟩

/-! ## When the function returns -/

/-- **No group that can be met refers to itself**, directly or through others. -/
def AcyclicFrom (T : Groups) (start : List String) : Prop :=
  ∀ t ∈ start, ∀ g, Reaches T t g → ¬ TransGen (Refers T) g g

section
variable {start : List String}

theorem AcyclicFrom.noMutual (h : AcyclicFrom T start) : NoMutual T start := by
  intro t ht g k htg hgk hkg
  by_contra hne
  obtain ⟨y, hgy, -, hyk⟩ := Worklist.exists_leaving hgk hne
  exact h t ht g htg (TransGen.head' hgy (hyk.trans hkg))

theorem exists_reaches_of_mem_level {k : Nat} {g : String} (hg : g ∈ level T start k) :
    ∃ t ∈ start, Reaches T t g := by
  induction k generalizing g with
  | zero => exact ⟨g, hg, ReflTransGen.refl⟩
  | succ k ih =>
    obtain ⟨p, hp, hpg⟩ := mem_flatMap.1 hg
    obtain ⟨t, ht, htp⟩ := ih hp
    exact ⟨t, ht, htp.tail (refers_iff.2 hpg)⟩

theorem exists_mem_level {t g : String} (ht : t ∈ start) (hg : Reaches T t g) :
    ∃ k, g ∈ level T start k := by
  induction hg with
  | refl => exact ⟨0, ht⟩
  | tail _ hpg ih =>
    obtain ⟨k, hk⟩ := ih
    exact ⟨k + 1, mem_flatMap.2 ⟨_, hk, refers_iff.1 hpg⟩⟩

theorem AcyclicFrom.not_mem_nested (h : AcyclicFrom T start) (k : Nat) :
    ∀ g ∈ level T start k, g ∉ nested T g := by
  intro g hg hself
  obtain ⟨t, ht, htg⟩ := exists_reaches_of_mem_level hg
  exact h t ht g htg (TransGen.single (refers_iff.2 hself))

/-- The walk ends with nothing pending. -/
theorem succeeds_of_metOnce (hac : AcyclicFrom T start) (hon : MetOnce T start)
    (hst : w.tags = start) (hco : w.count = w.tags.length) :
    (∃ fuel n w', tagToMembersNested T fuel w = some (.success w'.out) ∧
      afterTurns T n w = some w' ∧ w'.tags = []) ∧
      ∀ n w', afterTurns T n w = some w' → w'.count = w'.tags.length := by
  have hwa : ∀ n w', afterTurns T n w = some w' → InWalk T start w' := fun n w' hn =>
    InWalk.afterTurns ⟨hco, 0, [], start, rfl, by simp [hst]⟩ hac.not_mem_nested hon hn
  refine ⟨?_, fun n w' hn => (hwa n w' hn).1⟩
  obtain ⟨fuel, hfu⟩ :=
    stops_of_noMutual hac.noMutual w fun x hx => ⟨x, hst ▸ hx, ReflTransGen.refl⟩
  obtain ⟨o, ho⟩ := Option.isSome_iff_exists.1 hfu
  obtain ⟨n, w', hn, hend⟩ := tagToMembersNested_ends ho
  have hco' := (hwa n w' hn).1
  rcases hend with ⟨hz, rfl⟩ | ⟨hpos, hnil, -⟩
  · exact ⟨fuel, n, w', ho, hn, length_eq_zero_iff.1 (by omega)⟩
  · simp [hnil] at hco'
    omega

/-- A count that is too large stays too large. -/
theorem expandTag_count_lt (hw : w.tags = tag :: rest) :
    ((w.tags.length : Int) ≤ w.count →
      ((expandTag T w tag).tags.length : Int) ≤ (expandTag T w tag).count) ∧
      ((w.tags.length : Int) < w.count →
      ((expandTag T w tag).tags.length : Int) < (expandTag T w tag).count) := by
  obtain ⟨added, hnext, -, -, hco⟩ := expandTag_spec T hw
  rw [hnext, length_append, hw, length_cons]
  omega

/-- A success shows that the count was right all along. -/
theorem count_of_success {fuel : Nat} {out : List String} (hle : (w.tags.length : Int) ≤ w.count)
    (h : tagToMembersNested T fuel w = some (.success out)) :
    ∀ n w', afterTurns T n w = some w' → w'.count = w'.tags.length := by
  induction fuel generalizing w with
  | zero => cases h
  | succ fuel ih =>
    rw [tagToMembersNested] at h
    split at h
    · rename_i hpos
      split at h
      · cases h
      · rename_i tag tl hta
        obtain ⟨hle', hlt⟩ := expandTag_count_lt (T := T) hta
        have hnext := ih (hle' hle) h
        rintro (_ | n) w' hn
        · cases hn
          have := hnext 0 _ rfl
          omega
        · refine hnext n w' ?_
          simpa [afterTurns, turn, hpos, hta] using hn
    · rename_i hpos
      rintro (_ | n) w' hn
      · cases hn
        omega
      · simp [afterTurns, turn, hpos] at hn

/-- **The loop comes to a normal end exactly when no group that can be met is on a cycle and none
is met while it is pending.** -/
theorem succeeds_iff (hst : w.tags = start) (hnd : start.Nodup) (hco : w.count = w.tags.length) :
    (∃ fuel out, tagToMembersNested T fuel w = some (.success out)) ↔
      AcyclicFrom T start ∧ MetOnce T start := by
  constructor
  · rintro ⟨fuel, out, h⟩
    have hcount := count_of_success (by omega) h
    have hvisits := visits hst hnd hcount
    have hself : ∀ k, ∀ g ∈ level T start k, g ∉ nested T g := by
      intro k g hg hmem
      obtain ⟨done, rest, hle⟩ := append_of_mem hg
      obtain ⟨n, w', hn, hta, hnd'⟩ := visits hst hnd hcount k done (g :: rest) hle
      rw [cons_append] at hta
      have htu : afterTurns T (n + 1) w = some (expandTag T w' g) := by
        rw [afterTurns_succ, hn]
        exact turn_cons hta (hcount n w' hn)
      have := (expandTag_count hnd' hta (hcount n w' hn)).1.1 (hcount _ _ htu)
      rw [hta, cons_append, nodup_cons] at this
      exact this.1 (mem_append_right _ hmem)
    refine ⟨fun t ht g htg hcycle => ?_, fun k done rest hle => ?_⟩
    · obtain ⟨k, hk⟩ := exists_mem_level ht htg
      obtain ⟨y, hgy, hyg⟩ := TransGen.head'_iff.1 hcycle
      have hne : g ≠ y := by
        rintro rfl
        exact hself k g hk (refers_iff.1 hgy)
      have := runs_forever hne (ReflTransGen.single hgy) hyg fuel (w := w)
        ⟨⟨t, hst ▸ ht, htg⟩, by omega⟩
      rw [this] at h
      cases h
    · obtain ⟨n, w', -, hta, hnd'⟩ := hvisits k done rest hle
      rwa [← hta]
  · rintro ⟨hac, hon⟩
    obtain ⟨⟨fuel, n, w', h, -⟩, -⟩ := succeeds_of_metOnce hac hon hst hco
    exact ⟨fuel, w'.out, h⟩

end

/-- A list without groups: the loop does not run. -/
theorem returns_nil (T : Groups) : AcyclicFrom T [] ∧ MetOnce T [] :=
  (succeeds_iff (w := ⟨[], 0, []⟩) rfl nodup_nil rfl).1 ⟨1, [], rfl⟩

/-- **The function returns exactly when no group that can be met from the list is on a cycle and
none is met while it is pending**; otherwise it runs for ever or reads the `NULL` behind the
pending groups. -/
theorem parseArrayString_returns_iff (extract : String → Option (List String)) (T : Groups)
    (regex : Option String) (out : List String) :
    (∃ fuel o, parseArrayString extract T fuel regex out = some o ∧ o ≠ .crash) ↔
      AcyclicFrom T (startTags extract regex) ∧ MetOnce T (startTags extract regex) := by
  unfold parseArrayString startTags
  cases regex.map trimString with
  | none => exact ⟨fun _ => returns_nil T, fun _ => ⟨0, .success out, rfl, by simp⟩⟩
  | some r =>
    by_cases hr : r = ""
    · simp only [if_pos hr]
      exact ⟨fun _ => returns_nil T, fun _ => ⟨0, .success out, rfl, by simp⟩⟩
    · simp only [if_neg hr]
      cases extract r with
      | none => exact ⟨fun _ => returns_nil T, fun _ => ⟨0, .error, rfl, by simp⟩⟩
      | some names =>
        have hnd : (splitTags names out).1.Nodup := by
          rw [splitTags_eq]
          exact nodup_foldl_appendUnique nodup_nil
        rw [Option.getD_some, ← splitTags_fst names out]
        refine Iff.trans ?_
          (succeeds_iff (w := ⟨(splitTags names out).1, (splitTags names out).1.length,
            (splitTags names out).2⟩)
            rfl hnd rfl)
        constructor
        · rintro ⟨fuel, o, ho, hne⟩
          obtain ⟨_, _, -, ⟨-, rfl⟩ | ⟨-, -, rfl⟩⟩ := tagToMembersNested_ends ho
          · exact ⟨fuel, _, ho⟩
          · exact absurd rfl hne
        · rintro ⟨fuel, found, hf⟩
          exact ⟨fuel, .success found, hf, by simp⟩

/-- A group that is its own member is met while it is pending. -/
example : parseArrayString (fun r => some [r]) [("A", ["A", "n0"])] 2 (some "$A") [] =
  some .crash := by decide

/-- **A list is expanded to what it means exactly when no group is met while it is pending**: on a
table without cycles, the function succeeds with the plain names and plain members, each once, and
`count` is the number of pending groups after every turn, if and only if that holds. -/
theorem parseArrayString_members_iff (L : Libc) {T : Groups}
    (hacyclic : ∀ g, ¬ TransGen (Refers T) g g) (l : NameList) :
    ((∃ fuel out, parseArrayString (extractStrings L) T fuel (some l.regex) [] =
      some (.success out) ∧
        out.Nodup ∧ ∀ x, x ∈ out ↔ Meant T l x) ∧
      ∀ n w, afterTurns T n l.start = some w → w.count = w.tags.length) ↔
    MetOnce T l.tags := by
  simp only [l.parse_eq]
  constructor
  · rintro ⟨-, hco⟩ k done rest hle
    obtain ⟨n, w, -, hta, hnd⟩ := visits rfl l.tags_nodup hco k done rest hle
    rwa [← hta]
  · intro hon
    obtain ⟨⟨fuel, n, w, ho, hn, hnil⟩, hco⟩ :=
      succeeds_of_metOnce (w := l.start) (fun _ _ g _ => hacyclic g) hon rfl rfl
    refine ⟨?_, hco⟩
    have hf := (Found.start T l).afterTurns hn
    refine ⟨fuel, w.out, ho, hf.nodup, fun x => ⟨hf.sound x, ?_⟩⟩
    rintro (⟨hx, hh⟩ | ⟨t, ht, g, hg, hx⟩)
    · exact hf.listed x hx hh
    · rcases hf.reached t ht g hg with hdo | ⟨p, hp, -⟩
      · exact hdo x hx
      · rw [hnil] at hp
        cases hp

/-- `A` has the plain member `n0` and the group `B`, `B` the plain member `n1`. -/
def sampleNested : Groups := [("A", ["n0", "B"]), ("B", ["n1", "n0"])]

/-- `n2,$A`. -/
def sampleList : NameList where
  regex := " n2,$A"
  items := ["n2", "$A"]
  ne := by decide
  named := by decide
  text := by decide

theorem sampleNested_acyclic (g : String) : ¬ TransGen (Refers sampleNested) g g := by
  have hB : ∀ h, ¬ Refers sampleNested "B" h := by
    intro h hh
    have : nested sampleNested "B" = [] := by decide
    simpa [this] using refers_iff.1 hh
  have ho : ∀ a b, Refers sampleNested a b → b = "B" := by
    rintro a b ⟨ms, hms, hb, hgr⟩
    simp only [sampleNested, lookup_cons, lookup_nil] at hms hgr
    grind
  intro hg
  obtain ⟨y, hgy, hyg⟩ := TransGen.head'_iff.1 hg
  rw [ho g y hgy] at hyg
  obtain rfl | ⟨z, hz, -⟩ := ReflTransGen.cases_head hyg
  · exact hB _ hgy
  · exact hB z hz

theorem sampleNested_metOnce : MetOnce sampleNested sampleList.tags := by
  have htwo : ∀ k, level sampleNested sampleList.tags (k + 2) = [] := by
    intro k
    induction k with
    | zero => decide
    | succ k ih => rw [level, ih]; rfl
  intro k done rest h
  match k with
  | 0 =>
    rcases singleton_eq_append_iff.1 h with ⟨rfl, rfl⟩ | ⟨rfl, rfl⟩ <;> decide
  | 1 =>
    rcases singleton_eq_append_iff.1 h with ⟨rfl, rfl⟩ | ⟨rfl, rfl⟩ <;> decide
  | k + 2 =>
    rw [htwo] at h
    obtain ⟨rfl, rfl⟩ := append_eq_nil_iff.1 h.symm
    decide

theorem parseArrayString_members_iff_nested :
    (∃ fuel out, parseArrayString (extractStrings sampleLibc) sampleNested fuel (some " n2,$A") [] =
        some (.success out) ∧ out.Nodup ∧ ∀ x, x ∈ out ↔ Meant sampleNested sampleList x) ∧
      ∀ n w, afterTurns sampleNested n sampleList.start = some w → w.count = w.tags.length :=
  (parseArrayString_members_iff sampleLibc sampleNested_acyclic sampleList).2 sampleNested_metOnce

/-- Groups `A` and `B` both have the group `C`: while `C` is pending because of `A`, it is met in
`B`, and expanding `$A,$B` ends in the read of `NULL`. -/
theorem shared_group_crashes :
    parseArrayString (extractStrings sampleLibc) [("A", ["C"]), ("B", ["C"]), ("C", ["n0"])] 4
      (some "$A,$B") [] = some .crash := by decide

end Sensys.LogicalGroup
