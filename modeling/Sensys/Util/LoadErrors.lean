import Sensys.Orte.NodeList
import Sensys.Util.GroupStore
/-!
# Errors while groups are loaded

The status of a tag or of a record of members is kept until the next one of its list
(`logical_group.c:587-622`), so an error is lost when another item follows. A name that cannot be
found is lost in any case (`:777`).

`course` is what a file comes to by itself, whatever groups there are: the strings in it that are
refused, and the errors that would end the load, in the order of the file. The load returns the
first of these.
-/
namespace Sensys.LogicalGroup
open Orte

variable {L : Libc} {items : List Item} {key value : String} {erri : Rc} {s : Store}

/-- What becomes of a tag or of a record of members. -/
def addItem (L : Libc) (key value : String) (s : Store) : Rc × Store :=
  if key = "name" then (.success, processTagLine value s)
  else if key = "members" then
    match s.currentTag with
    | none => (.undefined, s)
    | some tag =>
      let r := add (s.libc L) tag value s.groups
      (r.1, { s with groups := r.2, erange := (reading (s.libc L) value).erange })
  else (.badParam, s)

theorem parsing_string : parsing L (.string key value :: items) erri s =
    if (addItem L key value s).1 = .undefined then addItem L key value s
    else parsing L items (addItem L key value s).1 (addItem L key value s).2 := by
  unfold addItem
  rw [parsing]
  repeat' split
  all_goals simp_all

/-- The status of each item that is reached. -/
def statuses (L : Libc) : List Item → Store → List Rc
  | [], _ => []
  | .string key value :: items, s =>
    (addItem L key value s).1 ::
      if (addItem L key value s).1 = .undefined then []
      else statuses L items (addItem L key value s).2
  | .list key inner :: items, s =>
    if key = "group" then
      statuses L inner s ++
        if (parsing L inner .success s).1 = .success then
          statuses L items (parsing L inner .success s).2
        else []
    else []
  | .other :: _, _ => []

/-- Of the sections of a file, one after the other. -/
def sectionStatuses (L : Libc) : List Item → Store → List Rc
  | .list key inner :: items, s =>
    if key = "logicalgroup" then
      statuses L inner s ++
        if (parsing L inner .success s).1 = .success then
          sectionStatuses L items (parsing L inner .success s).2
        else []
    else sectionStatuses L items s
  | _, _ => []

def Storage.statuses (L : Libc) (file : Storage) (s : Store) : List Rc :=
  if file.opened then sectionStatuses L (file.found.getD []) s else []

/-! ## What a file comes to -/

/-- The status of a string by itself, and `errno` behind it. -/
def judge (L : Libc) (key value : String) (erange : Bool) : Rc × Bool :=
  if key = "name" then (.success, erange)
  else if key = "members" then
    (match extractNames { L with erange } value with
      | .ok _ => .success
      | .error e => e,
      (reading { L with erange } value).erange)
  else (.badParam, erange)

structure Course where
  /-- The errors of the strings. -/
  refused : List Rc := []
  /-- The errors at which the load ends. -/
  stops : List Rc := []
  erange : Bool

/-- One part behind the other. -/
def Course.andThen (c d : Course) : Course := ⟨c.refused ++ d.refused, c.stops ++ d.stops, d.erange⟩

/-- The failure alone. -/
def failed (rc : Rc) : List Rc := if rc = .success then [] else [rc]

/-- A list ends with the status of its last string, or with `erri`. -/
def course (L : Libc) : List Item → Rc → Bool → Course
  | [], erri, erange => ⟨[], failed erri, erange⟩
  | .string key value :: items, _, erange =>
    let (rc, erange) := judge L key value erange
    Course.andThen ⟨failed rc, [], erange⟩ (course L items rc erange)
  | .list key inner :: items, erri, erange =>
    if key = "group" then
      let c := course L inner .success erange
      c.andThen (course L items erri c.erange)
    else Course.andThen ⟨[], [.badParam], erange⟩ (course L items erri erange)
  | .other :: items, erri, erange =>
    Course.andThen ⟨[], [.badParam], erange⟩ (course L items erri erange)

def sectionCourse (L : Libc) : List Item → Bool → Course
  | [], erange => { erange }
  | .list key inner :: items, erange =>
    if key = "logicalgroup" then
      let c := course L inner .success erange
      c.andThen (sectionCourse L items c.erange)
    else sectionCourse L items erange
  | _ :: items, erange => Course.andThen ⟨[], [.error], erange⟩ (sectionCourse L items erange)

def Storage.course (L : Libc) (file : Storage) (erange : Bool) : Course :=
  if file.opened then sectionCourse L (file.found.getD []) erange else { erange }

/-- An error ends the load and is returned, or closing the file fails. -/
def Storage.Returned (L : Libc) (file : Storage) (erange : Bool) : Prop :=
  match (file.course L erange).stops with
  | [] => file.closed ≠ .success
  | rc :: _ => rc ≠ .notFound

/-! ## The load follows it -/

/-- A status is that of the string by itself, unless the list of the group is not to be used. -/
theorem addItem_judge (h : (addItem L key value s).1 ≠ .undefined) :
    judge L key value s.erange = ((addItem L key value s).1, (addItem L key value s).2.erange) := by
  unfold addItem at h ⊢
  unfold judge
  split
  · unfold processTagLine
    split <;> rfl
  · rename_i hname
    rw [if_neg hname] at h
    split
    · rename_i hmem
      rw [if_pos hmem] at h
      cases htag : s.currentTag with
      | none => simp [htag] at h
      | some tag =>
        simp only [htag, add, Store.libc, setValue] at h ⊢
        grind
    · rfl

theorem failed_eq_nil {rc : Rc} : failed rc = [] ↔ rc = .success := by simp [failed]

/-- A part of a load that returned, with the statuses in it: it ends as its course says, and if it
comes to its end all strings were reached. `erri` is the status before its first string. -/
structure Follows (erri : Rc) (r : Rc × Store) (statuses : List Rc) (c : Course) : Prop where
  rc       : r.1 = .success ∧ c.stops = [] ∨ r.1 ≠ .success ∧ c.stops.head? = some r.1
  erange   : c.stops = [] → r.2.erange = c.erange
  refused  : c.stops = [] → statuses.flatMap failed = c.refused
  reached  : c.refused = [] → ∀ x ∈ statuses, x = .success
  notFound : r.1 = .notFound → erri = .notFound ∨ .notFound ∈ statuses

section
variable {r r' : Rc × Store} {l l' : List Rc} {c d : Course}

theorem Follows.andThen (h : Follows .success r l c) (hrc : r.1 = .success)
    (h' : Follows erri r' l' d) :
    Follows erri r' (l ++ l') (c.andThen d) := by
  have hst : c.stops = [] := h.rc.elim And.right fun hne => absurd hrc hne.1
  have hand : c.andThen d = ⟨c.refused ++ d.refused, d.stops, d.erange⟩ := by
    rw [Course.andThen, hst, List.nil_append]
  rw [hand]
  refine ⟨h'.rc, h'.erange, fun hno => ?_, fun hre => ?_, fun hnot => ?_⟩
  · rw [List.flatMap_append, h.refused hst, h'.refused hno]
  · obtain ⟨h1, h2⟩ := List.append_eq_nil_iff.1 hre
    exact List.forall_mem_append.2 ⟨h.reached h1, h'.reached h2⟩
  · rw [List.mem_append]
    exact (h'.notFound hnot).imp_right Or.inr

/-- What would come behind an error does not count. -/
theorem Follows.ended (h : Follows .success r l c) (hrc : r.1 ≠ .success) (d : Course) :
    Follows erri r l (c.andThen d) := by
  have hst : c.stops.head? = some r.1 := h.rc.elim (fun hok => absurd hok.1 hrc) And.right
  obtain ⟨rs, hst⟩ := List.head?_eq_some_iff.1 hst
  have hand : c.andThen d = ⟨c.refused ++ d.refused, r.1 :: (rs ++ d.stops), d.erange⟩ := by
    rw [Course.andThen, hst, List.cons_append]
  rw [hand]
  refine ⟨Or.inr ⟨hrc, rfl⟩,
    by simp, by simp, fun hre => h.reached (List.append_eq_nil_iff.1 hre).1, fun hnot => ?_⟩
  exact (h.notFound hnot).elim (by simp) Or.inr

theorem Follows.stop {rc : Rc} (hrc : rc ≠ .success) (hnot : rc ≠ .notFound) (s : Store) :
    Follows .success (rc, s) [] ⟨[], [rc], s.erange⟩ := by
  constructor <;> simp [hrc, hnot]

/-- A list inside a list, and the items `rest` behind it. -/
theorem Follows.within {rest : Store → Rc × Store} {k : Store → List Rc} {e : Bool → Course}
    (h : r.1 ≠ .undefined → Follows .success r l c)
    (hrest : ∀ s, (rest s).1 ≠ .undefined → Follows erri (rest s) (k s) (e s.erange))
    (hret : (match r with
      | (.success, s) => rest s
      | (rc, s) => (rc, s)).1 ≠ .undefined) :
    Follows erri
      (match r with
      | (.success, s) => rest s
      | (rc, s) => (rc, s))
      (l ++ if r.1 = .success then k r.2 else []) (c.andThen (e c.erange)) := by
  split at hret
  · rename_i s
    have h := h (by simp)
    have hst : c.stops = [] := by simpa using h.rc
    rw [← show s.erange = c.erange from h.erange hst]
    exact h.andThen rfl (hrest s hret)
  · rename_i rc s hrc
    rw [if_neg hrc, List.append_nil]
    exact (h hret).ended hrc _

end

theorem parsing_follows :
    ∀ (items : List Item) (erri : Rc) (s : Store), (parsing L items erri s).1 ≠ .undefined →
    Follows erri (parsing L items erri s) (statuses L items s) (course L items erri s.erange)
  | [], erri, s, _ => by
    rw [parsing, statuses, course]
    constructor <;> simp [failed]
    split <;> simp_all
  | .string key value :: items, erri, s, h => by
    rw [parsing_string] at h ⊢
    by_cases hun : (addItem L key value s).1 = .undefined
    · rw [if_pos hun] at h
      exact absurd hun h
    rw [if_neg hun] at h ⊢
    have ih := parsing_follows items _ _ h
    rw [statuses, if_neg hun, course, addItem_judge hun]
    refine ⟨ih.rc, ih.erange, fun hst => ?_, fun hre => ?_, fun hnot => ?_⟩
    · rw [List.flatMap_cons, ih.refused hst]
      rfl
    · obtain ⟨h1, h2⟩ := List.append_eq_nil_iff.1 hre
      exact List.forall_mem_cons.2 ⟨failed_eq_nil.1 h1, ih.reached h2⟩
    · rw [List.mem_cons]
      exact Or.inr ((ih.notFound hnot).imp_left Eq.symm)
  | .list key inner :: items, erri, s, h => by
    rw [parsing] at h
    rw [parsing, statuses, course]
    by_cases hkey : key = "group"
    · simp only [if_pos hkey] at h ⊢
      exact Follows.within (parsing_follows inner .success s)
        (fun s => parsing_follows items erri s) h
    · simp only [if_neg hkey]
      exact (Follows.stop (by decide) (by decide) s).ended (by simp) _
  | .other :: items, erri, s, _ => by
    rw [parsing, statuses, course]
    exact (Follows.stop (by decide) (by decide) s).ended (by simp) _

theorem parseItems_follows :
    ∀ (items : List Item) (s : Store), (parseItems L items s).1 ≠ .undefined →
    Follows .success (parseItems L items s) (sectionStatuses L items s)
    (sectionCourse L items s.erange)
  | [], s, _ => by
    rw [parseItems, sectionStatuses, sectionCourse]
    · constructor <;> simp
    · simp
  | .list key inner :: items, s, h => by
    rw [parseItems] at h
    rw [parseItems, sectionStatuses, sectionCourse]
    by_cases hkey : key = "logicalgroup"
    · simp only [if_pos hkey] at h ⊢
      exact Follows.within (parsing_follows inner .success s) (parseItems_follows items) h
    · simp only [if_neg hkey] at h ⊢
      exact parseItems_follows items s h
  | .string _ _ :: items, s, _ | .other :: items, s, _ => by
    rw [parseItems, sectionStatuses, sectionCourse]
    · exact (Follows.stop (by decide) (by decide) s).ended (by simp) _
    all_goals simp

/-- A file with the group `g` of these records. -/
def recordsOfG (records : List String) : Storage :=
  ⟨true, some [.list "logicalgroup"
    [.list "group" (.string "name" "g" :: records.map (Item.string "members"))]], .success⟩

theorem libc_sampleLibc {s : Store} (h : s.erange = false) : s.libc sampleLibc = sampleLibc := by
  rw [Store.libc, h]
  rfl

end Sensys.LogicalGroup
