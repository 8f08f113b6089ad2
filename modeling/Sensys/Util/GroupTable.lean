import Sensys.Lib.ProbingRemove
import Sensys.Orte.Extract
import Sensys.Util.LogicalGroup
/-!
# The table of logical groups (`orcm/util/logical_group.c:168-443`)

| here | there |
| --- | --- |
| `hashKey`, `opalPolicy` | `opal_hash_hash_key_ptr`, the default density and growth (`opal_hash_table.c:167-171, 587-599`) |
| `Table.get`, `set`, `remove` | `opal_hash_table_get_value_ptr`, `set_value_ptr`, `remove_value_ptr` (`:627-739`) |
| `Table.removeAt` | `opal_hash_table_remove_elt_at` (`:262-315`) |
| `nextElt` | `:757-773` |
| `init`, `removeAll` | `opal_hash_table_init`, `opal_hash_table_remove_all` |
| `add` | `orcm_logical_group_add` (`logical_group.c:241-269`) |
| `removeMembers` | `:319-345` |
| `removeAllTags`, `removeATag`, `remove` | `orcm_logical_group_remove_all_tags`, `..._remove_a_tag`, `orcm_logical_group_remove` (`:347-443`) |

The table maps a name to a pointer to a list of members. A list that has been released is `none`;
reading it is `Rc.undefined`. Arguments are taken as not `NULL` and memory as available; names are
not `*`, which the tool refuses before it calls `add`.
-/
namespace Sensys.LogicalGroup
open Probing Orte

/-- The name and its terminator, byte by byte. -/
def hashKey (key : String) : Nat :=
  (key.toUTF8.data.toList.map UInt8.toNat ++ [0]).foldl (fun h b => (31 * h + b) % 2 ^ 64) 0

/-- `opal_hash_round_capacity_up`. -/
def roundCapacityUp (capacity : Nat) : Nat := (capacity + 29) / 30 * 30 + 1

/-- A density of 1/2 and a growth of 2/1. -/
def opalPolicy : Table.Policy where
  trigger c := c * 1 / 2
  grown c := roundCapacityUp (c * 2 / 1)
  trigger_lt := by intro c hc; omega
  lt_grown := by intro c; unfold roundCapacityUp; omega
  trigger_lt_grown := by intro c hc; unfold roundCapacityUp; omega

/-- `none`: the list has been released. -/
abbrev GroupTable := Table String (Option (List String))

/-- `HASH_SIZE`. -/
def hashSize : Nat := 1000

def init : GroupTable := ⟨List.replicate (roundCapacityUp (hashSize * 2 / 1)) none, 0⟩

def removeAll (t : GroupTable) : GroupTable := ⟨List.replicate t.capacity none, 0⟩

/-- The first entry from slot `i` on. -/
def nextElt (t : GroupTable) (i : Nat) : Option Nat :=
  (List.range' i (t.capacity - i)).find? fun p => (t.slot p).isSome

inductive Rc where
  | success
  | badParam
  | notFound
  | nodeNotExist
  | groupNotExist
  | noAnyGroup
  /-- `ORCM_ERROR`. -/
  | error
  /-- Not a return value: a read of released memory, a write outside a buffer, or a loop without
  end. -/
  | undefined
deriving DecidableEq, Repr

def Rc.ofFailure : Failure → Rc
  | .badParam => .badParam
  | .notFound => .notFound
  | .overrun => .undefined

/-- `orte_regex_extract_node_names` on strings. -/
def extractNames (L : Libc) (regex : String) : Except Rc (List String) :=
  match (extractNodeNames L regex.toList L.erange).1 with
  | .ok names => .ok (names.map String.ofList)
  | .error e => .error (.ofFailure e)

/-- The library with what these names leave in `errno`. -/
def reading (L : Libc) (regex : String) : Libc :=
  { L with erange := (extractNodeNames L regex.toList L.erange).2 }

def setValue (t : GroupTable) (tag : String) (value : Option (List String)) : Rc × GroupTable :=
  match t.set hashKey opalPolicy tag value with
  | some t' => (.success, t')
  | none => (.undefined, t)

def removeValue (t : GroupTable) (tag : String) : Rc × GroupTable :=
  match t.remove hashKey tag with
  | some t' => (.success, t')
  | none => (.notFound, t)

/-- A member goes to the end of the list unless it is there. -/
def addMember (list : List String) (m : String) : List String :=
  if m ∈ list then list else list ++ [m]

/-- When the names cannot be read, the list is released, which is the one in the table if the
group exists. -/
def add (L : Libc) (tag regex : String) (t : GroupTable) : Rc × GroupTable :=
  let group := t.get hashKey tag
  match extractNames L regex with
  | .error e =>
    match group with
    | none => (e, t)
    | some none => (.undefined, t)
    | some (some _) => (e, (setValue t tag none).2)
  | .ok names =>
    match group.getD (some []) with
    | none => (.undefined, t)
    | some list => setValue t tag (some (names.foldl addMember list))

/-- Each member is taken out once; a group without members is taken out of the table. -/
def removeMembers (tag : String) (list members : List String) (t : GroupTable) : Rc × GroupTable :=
  match members.foldl List.erase list with
  | [] => removeValue t tag
  | rest => setValue t tag (some rest)

/-- `orcm_logical_group_all_members_exist_one_tag` for one entry after the other. -/
def allMembersExist (members : List String) : List (Option (String × Option (List String))) → Rc
  | [] => .success
  | none :: slots => allMembersExist members slots
  | some (_, some list) :: slots =>
    if ∀ m ∈ members, m ∈ list then allMembersExist members slots else .nodeNotExist
  | some (_, none) :: slots => if members = [] then allMembersExist members slots else .undefined

/-- The loop over the entries: the next one is looked for behind the slot of the last one. -/
def removeLoop (members : List String) : Nat → Nat → GroupTable → Rc × GroupTable
  | 0, _, t => (.undefined, t)
  | fuel + 1, i, t =>
    match nextElt t i with
    | none => (.success, t)
    | some p =>
      match t.slot p with
      | some (tag, some list) =>
        match removeMembers tag list members t with
        | (.success, t') => removeLoop members fuel (p + 1) t'
        | (e, t') => (e, t')
      | _ => (.undefined, t)

/-- `members` is `none` for `*`. -/
def removeAllTags (members : Option (List String)) (t : GroupTable) : Rc × GroupTable :=
  match members with
  | none => (.success, removeAll t)
  | some members =>
    match allMembersExist members t.slots with
    | .success => removeLoop members (t.capacity + 1) 0 t
    | e => (e, t)

def removeATag (tag : String) (members : Option (List String)) (t : GroupTable) : Rc × GroupTable :=
  match t.get hashKey tag with
  | none => (.groupNotExist, t)
  | some value =>
    match members with
    | none => removeValue t tag
    | some members =>
      match value with
      | none => (.undefined, t)
      | some list =>
        if ∀ m ∈ members, m ∈ list then removeMembers tag list members t else (.nodeNotExist, t)

def removeInternal (tag : String) (members : Option (List String)) (t : GroupTable) :
    Rc × GroupTable :=
  if tag = "*" then removeAllTags members t else removeATag tag members t

def remove (L : Libc) (tag regex : String) (t : GroupTable) : Rc × GroupTable :=
  if t.size = 0 then (.noAnyGroup, t)
  else if regex = "*" then removeInternal tag none t
  else
    match extractNames L regex with
    | .error e => (e, t)
    | .ok members => removeInternal tag (some members) t

/-! ## Tables as they should be -/

/-- No list is released, and none has a member twice. -/
structure Usable (t : GroupTable) : Prop extends t.Sound hashKey opalPolicy where
  lists : ∀ {p tag value}, t.slot p = some (tag, value) → ∃ list, value = some list ∧ list.Nodup

/-- Every group has members, each once. -/
structure Proper (t : GroupTable) : Prop extends t.Sound hashKey opalPolicy where
  groups : ∀ {p tag value}, t.slot p = some (tag, value) →
    ∃ list, value = some list ∧ list ≠ [] ∧ list.Nodup

variable {t : GroupTable} {tag regex : String} {L : Libc} {list names : List String}

theorem Proper.usable (h : Proper t) : Usable t := by
  refine ⟨h.toSound, fun hp => ?_⟩
  obtain ⟨list, hval, -, hnd⟩ := h.groups hp
  exact ⟨list, hval, hnd⟩

theorem Usable.proper (h : Usable t) (hne : ∀ p tag, t.slot p ≠ some (tag, some [])) :
    Proper t := by
  refine ⟨h.toSound, fun {p tag value} hp => ?_⟩
  obtain ⟨list, rfl, hnd⟩ := h.lists hp
  refine ⟨list, rfl, ?_, hnd⟩
  rintro rfl
  exact hne p tag hp

theorem init_slot (p : Nat) : init.slot p = none := Table.slot_replicate _ _ p

/-- A table without entries, large enough to hold one. -/
theorem proper_empty {n : Nat} (hn : 0 < opalPolicy.trigger n) :
    Proper ⟨List.replicate n none, 0⟩ := by
  have hcap : Table.capacity (⟨List.replicate n none, 0⟩ : GroupTable) = n := List.length_replicate
  have hco :
      (List.replicate n (none : Option (String × Option (List String)))).countP Option.isSome =
      0 := by
    simp [List.countP_replicate]
  have hpos : 0 < n := Nat.pos_of_ne_zero fun h => by simp [h, opalPolicy] at hn
  refine ⟨⟨⟨Table.placed_replicate hpos 0, hco.symm⟩, by rw [hcap]; exact hn⟩, fun hp => ?_⟩
  simp [Table.slot_replicate] at hp

theorem proper_init : Proper init := proper_empty (by decide)

@[simp]
theorem init_get (k : String) : init.get hashKey k = none :=
  proper_init.get_eq_none_iff.2 fun p v => by simp [init_slot]

/-- The table after a request that changes what is found for one tag. -/
def Updates (t : GroupTable) (tag : String) (found : Option (Option (List String)))
    (r : Rc × GroupTable) : Prop :=
  r.1 = .success ∧ r.2.Sound hashKey opalPolicy ∧ ∀ k, r.2.get hashKey k = if k = tag then found
    else t.get hashKey k

theorem setValue_eq (h : t.Sound hashKey opalPolicy) (tag : String) (value : Option (List String)) :
    Updates t tag (some value) (setValue t tag value) := by
  obtain ⟨t', ht', hs, hget⟩ := h.set tag value
  rw [setValue, ht']
  exact ⟨rfl, hs, hget⟩

theorem removeValue_eq (h : t.Sound hashKey opalPolicy) {value : Option (List String)}
    (htag : t.get hashKey tag = some value) :
    Updates t tag none (removeValue t tag) := by
  obtain ⟨t', ht', hs, hget⟩ := h.remove htag
  rw [removeValue, ht']
  exact ⟨rfl, hs, hget⟩

/-- A new group that does not fill the table goes into the free slot at which its walk ends. -/
theorem setValue_new {i : Nat} (hf : t.find hashKey tag = some i)
    (hno : t.slot i = none) (hroom : t.size + 1 < opalPolicy.trigger t.capacity)
    (value : Option (List String)) :
    setValue t tag value = (.success, t.enter i (tag, value)) := by
  have hsi : (t.enter i (tag, value)).size = t.size + 1 := rfl
  simp only [setValue, Table.set, hf, Option.map_some, hno, Table.capacity_enter, hsi]
  rw [if_neg (Nat.not_le_of_lt hroom)]

theorem add_new {i : Nat} (hna : extractNames L regex = .ok names)
    (hf : t.find hashKey tag = some i) (hno : t.slot i = none)
    (hroom : t.size + 1 < opalPolicy.trigger t.capacity) :
    add L tag regex t = (.success, t.enter i (tag, some (names.foldl addMember []))) := by
  have hget : t.get hashKey tag = none := by simp [Table.get, hf, hno]
  simp only [add, hna, hget, Option.getD_none]
  exact setValue_new hf hno hroom _

theorem add_eq (h : Usable t) (tag : String) (hna : extractNames L regex = .ok names) :
    Updates t tag (some (some (names.foldl addMember ((t.get hashKey tag).join.getD []))))
      (add L tag regex t) := by
  cases hget : t.get hashKey tag with
  | none =>
    simp only [add, hna, hget, Option.getD_none]
    exact setValue_eq h.toSound tag _
  | some value =>
    obtain ⟨p, hp⟩ := h.get_eq_some_iff.1 hget
    obtain ⟨list, rfl, -⟩ := h.lists hp
    simp only [add, hna, hget, Option.getD_some]
    exact setValue_eq h.toSound tag _

theorem addMember_eq : addMember = appendUnique := rfl

theorem Usable.add (h : Usable t) (tag : String) (hna : extractNames L regex = .ok names) :
    Usable (add L tag regex t).2 := by
  obtain ⟨-, hso, hget⟩ := add_eq h tag hna
  refine ⟨hso, fun {p k value} hp => ?_⟩
  have hval := hso.get_eq_some_iff.2 ⟨p, hp⟩
  rw [hget] at hval
  split at hval
  · cases hval
    refine ⟨_, rfl, ?_⟩
    cases hold : t.get hashKey tag with
    | none => exact nodup_foldl_appendUnique List.nodup_nil
    | some value =>
      obtain ⟨q, hq⟩ := h.get_eq_some_iff.1 hold
      obtain ⟨list, rfl, hnd⟩ := h.lists hq
      exact nodup_foldl_appendUnique hnd
  · obtain ⟨q, hq⟩ := h.get_eq_some_iff.1 hval
    exact h.lists hq

/-- New members keep the table as it should be, unless there are none for a new group. -/
theorem Proper.add (h : Proper t) (hna : extractNames L regex = .ok names)
    (hne : names = [] → t.get hashKey tag ≠ none) :
    Proper (add L tag regex t).2 := by
  obtain ⟨-, hso, hget⟩ := add_eq h.usable tag hna
  refine (h.usable.add tag hna).proper fun p k hp => ?_
  have hval := hso.get_eq_some_iff.2 ⟨p, hp⟩
  rw [hget] at hval
  split at hval
  · have hnil : ∀ m, m ∉ names.foldl appendUnique ((t.get hashKey tag).join.getD []) := by
      rw [← addMember_eq]
      simp only [Option.some.injEq] at hval
      simp [hval]
    have hna : names = [] :=
      List.eq_nil_iff_forall_not_mem.2 fun m hm => hnil m (mem_foldl_appendUnique.2 (Or.inr hm))
    cases hold : t.get hashKey tag with
    | none => exact hne hna hold
    | some value =>
      obtain ⟨q, hq⟩ := h.get_eq_some_iff.1 hold
      obtain ⟨list, rfl, hl, -⟩ := h.groups hq
      obtain ⟨m, hm⟩ := List.exists_mem_of_ne_nil _ hl
      exact hnil m (mem_foldl_appendUnique.2 (Or.inl (by simpa [hold] using hm)))
  · obtain ⟨q, hq⟩ := h.get_eq_some_iff.1 hval
    obtain ⟨_, hsom, hl, -⟩ := h.groups hq
    cases hsom
    exact hl rfl

/-- What is left of a group, `none` if nothing is. -/
def leftOver (members : List String) (value : Option (List String)) :
    Option (Option (List String)) :=
  match value with
  | none => some none
  | some list =>
    match list.filter (· ∉ members) with
    | [] => none
    | rest => some (some rest)

theorem removeMembers_eq (h : t.Sound hashKey opalPolicy)
    (hnd : list.Nodup) (htag : t.get hashKey tag = some (some list)) (members : List String) :
    Updates t tag (leftOver members (some list)) (removeMembers tag list members t) := by
  simp only [removeMembers, ← List.diff_eq_foldl, hnd.sdiff_eq_filter, leftOver]
  cases list.filter (· ∉ members) with
  | nil => exact removeValue_eq h htag
  | cons m rest => exact setValue_eq h tag (some (m :: rest))

end Sensys.LogicalGroup
