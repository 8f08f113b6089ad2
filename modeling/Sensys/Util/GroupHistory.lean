import Sensys.Lib.Run
import Sensys.Util.GroupStore
import Sensys.Util.RemoveAll
/-!
# Histories of the group table

A history is a list of requests: add, remove, load. `add` releases the list of members on every
error, also the one that is in the table, and it makes a group before it knows whether there are
members for it; `Addable` says where neither happens. What one request leaves in `errno` is there
at the next one, unless other calls of the process came between them.
-/
namespace Sensys.LogicalGroup
open Probing Orte Run

inductive Request where
  | add (tag regex : String)
  | remove (tag regex : String)
  | load (file : Storage)
  /-- Anything else, after which `errno` is `ERANGE` or not. -/
  | elsewhere (erange : Bool)

def perform (L : Libc) (s : Store) : Request → Rc × Store
  | .add tag regex =>
    let r := add (s.libc L) tag regex s.groups
    (r.1, { s with groups := r.2, erange := (reading (s.libc L) regex).erange })
  | .remove tag regex =>
    let r := remove (s.libc L) tag regex s.groups
    let reads := s.groups.size ≠ 0 ∧ regex ≠ "*"
    (r.1, { s with groups := r.2, erange := if reads then (reading (s.libc L) regex).erange
      else s.erange })
  | .load file => loadFromFile L file s
  | .elsewhere erange => (.success, { s with erange })

/-- Nothing comes after a request that has no return value. -/
def step (L : Libc) (s : Store) (r : Request) : Option Store :=
  if (perform L s r).1 = .undefined then none else some (perform L s r).2

/-- The names can be read and are some, or the group exists; or they cannot, and it does not
exist. -/
def Addable (L : Libc) (t : GroupTable) (tag regex : String) : Prop :=
  match extractNames L regex with
  | .ok names => names = [] → t.get hashKey tag ≠ none
  | .error e => e ≠ .undefined ∧ t.get hashKey tag = none

/-- What is looked at when members are to be removed can be read. -/
def Removable (L : Libc) (t : GroupTable) (regex : String) : Prop :=
  t.size ≠ 0 → regex ≠ "*" → extractNames L regex ≠ .error .undefined

/-- Every record of members that is reached has a group and can be added to it. -/
def Loadable (L : Libc) : List Item → Store → Prop
  | [], _ => True
  | .string key value :: items, s =>
    if key = "name" then Loadable L items (processTagLine value s)
    else if key = "members" then
      match s.currentTag with
      | none => False
      | some tag =>
        Addable (s.libc L) s.groups tag value ∧
          Loadable L items
            { s with
              groups := (add (s.libc L) tag value s.groups).2
              erange := (reading (s.libc L) value).erange }
    else Loadable L items s
  | .list key inner :: items, s =>
    key = "group" → Loadable L inner s ∧
      ((parsing L inner .success s).1 = .success → Loadable L items (parsing L inner .success s).2)
  | .other :: _, _ => True

/-- The sections of the file one after the other. -/
def LoadableSections (L : Libc) : List Item → Store → Prop
  | .list key inner :: items, s =>
    if key = "logicalgroup" then
      Loadable L inner s ∧
        ((parsing L inner .success s).1 = .success →
        LoadableSections L items (parsing L inner .success s).2)
    else LoadableSections L items s
  | _, _ => True

def Meets (L : Libc) (s : Store) : Request → Prop
  | .add tag regex => Addable (s.libc L) s.groups tag regex
  | .remove _ regex => Removable (s.libc L) s.groups regex
  | .load file => file.closed ≠ .undefined ∧ LoadableSections L (file.found.getD []) s
  | .elsewhere _ => True

/-- The request returns, the groups are proper after it, and a failure changes nothing. -/
def Clean (t : GroupTable) (r : Rc × GroupTable) : Prop :=
  r.1 ≠ .undefined ∧ Proper r.2 ∧ (r.1 ≠ .success → r.2 = t)

def Returns (r : Rc × Store) : Prop := r.1 ≠ .undefined ∧ Proper r.2.groups

section
variable {L : Libc} {t : GroupTable} {tag regex : String}

theorem add_error {e : Rc} (hna : extractNames L regex = .error e)
    (hno : t.get hashKey tag = none) :
    add L tag regex t = (e, t) := by
  simp only [add, hna, hno]

/-- The list that is released is the one in the table. -/
theorem add_releases (h : t.Sound hashKey opalPolicy) {e : Rc}
    (hna : extractNames L regex = .error e) {list : List String}
    (hget : t.get hashKey tag = some (some list)) :
    (add L tag regex t).1 = e ∧ (add L tag regex t).2.get hashKey tag = some none := by
  simp only [add, hna, hget]
  exact ⟨trivial, by rw [(setValue_eq h tag none).2.2, if_pos rfl]⟩

theorem add_addable (h : Proper t) (ha : Addable L t tag regex) : Clean t (add L tag regex t) := by
  unfold Addable at ha
  split at ha
  · rename_i names hna
    obtain ⟨hrc, -, -⟩ := add_eq h.usable tag hna
    refine ⟨?_, h.add hna ha, fun hne => absurd hrc hne⟩
    rw [hrc]
    decide
  · rename_i e hna
    rw [add_error hna ha.2]
    exact ⟨ha.1, h, fun _ => rfl⟩

end

section
variable {L : Libc} {t : GroupTable} {tag : String} {members list : List String}

theorem leftOver_ne_nil {value : Option (List String)}
    (h : leftOver members (some list) = some value) :
    value ≠ some [] := by
  simp only [leftOver] at h
  split at h
  · cases h
  · rename_i hne
    cases h
    simpa using hne

variable (h : Proper t)
include h

/-- A group that is left with no members is not left. -/
theorem Taken.proper {p : Nat} {t' : GroupTable} (ht : Taken t p tag list members t') :
    Proper t' := by
  refine ht.usable.proper fun q k hq => ?_
  have hval := ht.usable.get_eq_some_iff.2 ⟨q, hq⟩
  rw [ht.get_eq] at hval
  split at hval
  · exact leftOver_ne_nil hval rfl
  · obtain ⟨r, hr⟩ := h.get_eq_some_iff.1 hval
    obtain ⟨_, hso, hne, -⟩ := h.groups hr
    cases hso
    exact hne rfl

theorem removeLoop_proper {i fuel : Nat} (hf : t.capacity - i < fuel) :
    (removeLoop members fuel i t).1 = .success ∧ Proper (removeLoop members fuel i t).2 := by
  refine removeLoop_rule (P := fun _ t => Proper t) (Q := fun r => r.1 = .success ∧
    Proper r.2) ?_ ?_ h.usable h hf
  · exact fun _ hpr _ => ⟨rfl, hpr⟩
  · exact fun _ hpr _ _ _ ht => Taken.proper hpr ht

theorem Proper.removeAll : Proper (removeAll t) :=
  proper_empty (Nat.lt_of_le_of_lt (Nat.zero_le _) h.below)

theorem removeAllTags_proper (members : Option (List String)) :
    Clean t (removeAllTags members t) := by
  cases members with
  | none => exact ⟨by simp [removeAllTags], h.removeAll, fun hne => absurd rfl hne⟩
  | some members =>
    simp only [removeAllTags]
    rcases allMembersExist_cases members h.usable.exists_list with ⟨hex, -⟩ | ⟨hex, -⟩
    · rw [hex]
      obtain ⟨hrc, hpr⟩ := @removeLoop_proper t members h 0 (t.capacity + 1) (by omega)
      exact ⟨by simp [hrc], hpr, fun hne => absurd hrc hne⟩
    · rw [hex]
      exact ⟨by simp, h, fun _ => rfl⟩

theorem removeATag_proper (members : Option (List String)) :
    Clean t (removeATag tag members t) := by
  unfold removeATag
  cases hget : t.get hashKey tag with
  | none => exact ⟨by simp, h, fun _ => rfl⟩
  | some value =>
    obtain ⟨p, hp⟩ := h.get_eq_some_iff.1 hget
    obtain ⟨list, rfl, hne, hnd⟩ := h.groups hp
    cases members with
    | none =>
      obtain ⟨hrc, hso, hg⟩ := removeValue_eq h.toSound hget
      refine ⟨by simp [hrc], ⟨hso, fun {q k value} hq => ?_⟩, fun hne => absurd hrc hne⟩
      have hval := hso.get_eq_some_iff.2 ⟨q, hq⟩
      rw [hg] at hval
      split at hval
      · cases hval
      · obtain ⟨r, hr⟩ := h.get_eq_some_iff.1 hval
        exact h.groups hr
    | some members =>
      obtain ⟨t', heq, ht⟩ := h.usable.removeMembers hp members
      simp only [heq]
      split
      · exact ⟨by simp, Taken.proper h ht, fun hne => absurd rfl hne⟩
      · exact ⟨by simp, h, fun _ => rfl⟩

theorem remove_removable {regex : String} (hr : Removable L t regex) :
    Clean t (remove L tag regex t) := by
  have hin : ∀ members, Clean t (removeInternal tag members t) := by
    intro members
    unfold removeInternal
    split
    · exact removeAllTags_proper h members
    · exact removeATag_proper h members
  unfold remove
  split
  · exact ⟨by simp, h, fun _ => rfl⟩
  · rename_i hsi
    split
    · exact hin none
    · rename_i hre
      have hr := hr hsi hre
      split
      · rename_i e he
        refine ⟨?_, h, fun _ => rfl⟩
        rintro rfl
        exact hr he
      · exact hin _

end

section
variable {L : Libc} {items : List Item}

theorem processTagLine_groups (tag : String) (s : Store) :
    (processTagLine tag s).groups = s.groups := by
  unfold processTagLine
  split <;> rfl

theorem parsing_loadable {erri : Rc} {s : Store} (h : Proper s.groups) (hl : Loadable L items s)
    (he : erri ≠ .undefined) : Returns (parsing L items erri s) := by
  fun_induction parsing L items erri s with
  | case1 => exact ⟨he, h⟩
  | case2 value items _ s ih =>
    rw [Loadable, if_pos rfl] at hl
    exact ih (by rwa [processTagLine_groups]) hl (by decide)
  | case3 value items _ s htag hkey =>
    rw [Loadable, if_neg hkey, if_pos rfl] at hl
    simp only [htag] at hl
  | case4 value items _ s tag htag erange groups hadd hkey =>
    rw [Loadable, if_neg hkey, if_pos rfl] at hl
    simp only [htag] at hl
    have hrc := (add_addable h hl.1).1
    rw [hadd] at hrc
    exact absurd rfl hrc
  | case5 value items _ s tag htag erange erri groups hne hadd hkey ih =>
    rw [Loadable, if_neg hkey, if_pos rfl] at hl
    simp only [htag] at hl
    have hpr := (add_addable h hl.1).2.1
    rw [hadd] at hpr hl
    rw [htag] at ih ⊢
    exact ih hpr hl.2 hne
  | case6 key value items _ s hname hm ih =>
    rw [Loadable, if_neg hname, if_neg hm] at hl
    exact ih h hl (by decide)
  | case7 inner items erri s s' hinner ihinner ih =>
    rw [Loadable] at hl
    obtain ⟨hli, hlr⟩ := hl rfl
    have hpr := (ihinner h hli (by decide)).2
    rw [hinner] at hpr hlr
    exact ih hpr (hlr rfl) he
  | case8 inner items erri s rc s' hne hinner ihinner =>
    rw [Loadable] at hl
    rw [← hinner]
    exact ihinner h (hl rfl).1 (by decide)
  | case9 | case10 => exact ⟨by simp, h⟩

theorem parseItems_loadable {s : Store} (h : Proper s.groups) (hl : LoadableSections L items s) :
    Returns (parseItems L items s) := by
  fun_induction parseItems L items s with
  | case1 | case5 => exact ⟨by simp, h⟩
  | case2 inner items s s' hinner ih =>
    rw [LoadableSections, if_pos rfl] at hl
    have hpr := (@parsing_loadable L inner .success s h hl.1 (by decide)).2
    rw [hinner] at hpr hl
    exact ih hpr (hl.2 rfl)
  | case3 inner items s rc s' hne hinner =>
    rw [← hinner]
    exact parsing_loadable h hl.1 (by decide)
  | case4 key inner items s hkey ih =>
    rw [LoadableSections, if_neg hkey] at hl
    exact ih h hl

theorem loadFromFile_loadable {file : Storage} {s : Store} (h : Proper s.groups)
    (hcl : file.closed ≠ .undefined) (hl : LoadableSections L (file.found.getD []) s) :
    Returns (loadFromFile L file s) := by
  have hpa : Returns (parseFromFile L file.found s) := by
    cases hf : file.found with
    | none => exact ⟨by simp [parseFromFile], h⟩
    | some items =>
      rw [hf] at hl
      exact parseItems_loadable h hl
  unfold loadFromFile
  split
  · split
    · rename_i s' hs'
      rw [hs'] at hpa
      exact ⟨hcl, hpa.2⟩
    · rename_i s' hs'
      rw [hs'] at hpa
      exact ⟨by simp, hpa.2⟩
    · rename_i hs'
      rw [hs'] at hpa
      exact hpa
  · exact ⟨by simp, h⟩

end

/-- A request that adds or removes and fails leaves the table as it was. -/
def FailsCleanly (L : Libc) (s : Store) : Request → Prop
  | .load _ | .elsewhere _ => True
  | r => (perform L s r).1 ≠ .success → (perform L s r).2.groups = s.groups

theorem perform_meets {L : Libc} {s : Store} {r : Request} (h : Proper s.groups)
    (hm : Meets L s r) :
    (perform L s r).1 ≠ .undefined ∧ Proper (perform L s r).2.groups ∧ FailsCleanly L s r := by
  cases r with
  | add tag regex => exact add_addable h hm
  | remove tag regex => exact remove_removable h hm
  | load file =>
    obtain ⟨hrc, hpr⟩ := loadFromFile_loadable h hm.1 hm.2
    exact ⟨hrc, hpr, trivial⟩
  | elsewhere erange => exact ⟨by simp [perform], h, trivial⟩

theorem run_proper {L : Libc} {s : Store} (h : Proper s.groups) {rs : List Request}
    (hm : Along (step L) (Meets L) s rs) :
    (∃ s', run (step L) s rs = some s' ∧ Proper s'.groups) ∧
      Along (step L) (FailsCleanly L) s rs := by
  have hst : ∀ s r, Proper s.groups → Meets L s r → step L s r = some (perform L s r).2 :=
    fun s r h hm => if_neg (perform_meets h hm).1
  constructor
  · exact exists_run (I := fun s => Proper s.groups)
      (fun s r h hm => ⟨_, hst s r h hm, (perform_meets h hm).2.1⟩) h hm
  · refine along_of_invariant (I := fun s => Proper s.groups)
      (fun s r h hm => ⟨(perform_meets h hm).2.2, ?_⟩) h hm
    intro s' hs'
    rw [hst s r h hm] at hs'
    exact Option.some.inj hs' ▸ (perform_meets h hm).2.1

/-- From the empty table: every request returns, after it every group has members, each once, and
one that fails has changed nothing. -/
theorem history_proper {L : Libc} {rs : List Request}
    (hm : Along (step L) (Meets L) Store.start rs) :
    (∃ s, run (step L) Store.start rs = some s ∧ Proper s.groups) ∧
      Along (step L) (FailsCleanly L) Store.start rs :=
  run_proper proper_init hm

/-- Two groups, one of them from a file. -/
def sampleHistory : List Request :=
  [.add "g" "x,y", .load ⟨true,
    some [.list "logicalgroup" [.list "group" [.string "name" "h", .string "members" "x"]]],
    .success⟩, .remove "*" "x", .remove "g" "z"]

theorem history_proper_sample :
    (∃ s, run (step sampleLibc) Store.start sampleHistory = some s ∧ Proper s.groups) ∧
      Along (step sampleLibc) (FailsCleanly sampleLibc) Store.start sampleHistory := by
  have hadd : ∀ (s : Store) t tag regex names, extractNames (s.libc sampleLibc) regex = .ok names →
    names ≠ [] →
      Addable (s.libc sampleLibc) t tag regex := by
    intro s t tag regex names hna hne
    simp only [Addable, hna]
    exact fun hnil => absurd hnil hne
  have hm : ∀ r ∈ sampleHistory, ∀ s, Meets sampleLibc s r := by
    intro r hr s
    simp only [sampleHistory, List.mem_cons, List.not_mem_nil, or_false] at hr
    rcases hr with rfl | rfl | rfl | rfl
    · exact hadd s _ "g" "x,y" ["x", "y"] rfl (by simp)
    · refine ⟨by simp, ?_⟩
      have hx : ∀ s : Store, Addable (s.libc sampleLibc) s.groups "h" "x" := fun s =>
        hadd s _ _ _ ["x"] (extractNames_x _) (by simp)
      by_cases htag : s.currentTag =
        some "h" <;> simp [LoadableSections, Loadable, processTagLine, htag, hx]
    · intro _ _ h
      cases h
    · intro _ _ h
      cases h
  exact history_proper ((along_of_forall hm _).mono fun s r h => h s)

/-- An error for a group that exists: the list in the table is released. -/
theorem failed_add_releases :
    ∃ s, run (step sampleLibc) Store.start [.add "g" "x"] = some s ∧
      s.groups.get hashKey "g" = some (some ["x"]) ∧
      (perform sampleLibc s (.add "g" "[")).1 = .badParam ∧
      (perform sampleLibc s (.add "g" "[")).2.groups.get hashKey "g" = some none := by
  obtain ⟨hrc, hso, hget⟩ := @add_eq init "x" sampleLibc ["x"] proper_init.usable "g" rfl
  have hg : (add sampleLibc "g" "x" init).2.get hashKey "g" = some (some ["x"]) := by
    rw [hget, if_pos rfl, init_get]
    rfl
  have hpe : perform sampleLibc Store.start (.add "g" "x") =
      ((add sampleLibc "g" "x" init).1, ⟨(add sampleLibc "g" "x" init).2, none, false⟩) := rfl
  generalize add sampleLibc "g" "x" init = added at hrc hso hg hpe
  obtain ⟨rc, t⟩ := added
  obtain ⟨hf, hre⟩ :=
    add_releases hso (show extractNames sampleLibc "[" = .error .badParam from rfl) hg
  have hst : step sampleLibc Store.start (.add "g" "x") = some ⟨t, none, false⟩ := by
    unfold step
    rw [hpe, if_neg]
    simp only at hrc
    simp [hrc]
  exact ⟨⟨t, none, false⟩, by simp only [run, hst], hg, hf, hre⟩

end Sensys.LogicalGroup
