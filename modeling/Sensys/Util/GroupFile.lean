import Sensys.Orte.NodeList
import Sensys.Util.GroupStore
/-!
# A table that is saved and loaded

The members of a group are packed into records in order, as many as there is room for, and the
records are added to the group one by one. The test for room forgets the comma, so a record that
comes to exactly the size of the buffer is written one byte behind its end; so is a name that does
not fit into a record at all.
-/
namespace Sensys.LogicalGroup
open Probing Orte List

/-- The groups that are found under one name in two tables have the same members. -/
def SameGroup : Option (Option (List String)) → Option (Option (List String)) → Prop
  | none, none => True
  | some (some l), some (some l') => ∀ m, m ∈ l ↔ m ∈ l'
  | _, _ => False

/-- The table is saved, and loading it into an empty one gives the same groups. -/
def Restores {File : Type} (L : Libc) (P : Parser File) (file : File) (currentTag : Option String)
    (t : GroupTable) :
    Prop :=
  ∃ file', saveToFile P file t = some file' ∧
    (loadFromFile L ⟨true, P.retrieveSection file', .success⟩ ⟨init, currentTag, L.erange⟩).1 =
    .success ∧
    ∀ k, SameGroup (t.get hashKey k)
      ((loadFromFile L ⟨true, P.retrieveSection file', .success⟩
        ⟨init, currentTag, L.erange⟩).2.groups.get
        hashKey k)

/-- Members fit into records of `limit` bytes, the first one of which has `used` bytes already:
every name does, and none fills its record up to the last byte together with the comma. -/
def Packs (limit : Nat) : Nat → List String → Prop
  | _, [] => True
  | used, m :: ms =>
    m.utf8ByteSize < limit ∧
      if used = 0 ∨ limit < used + m.utf8ByteSize + 1 then Packs limit m.utf8ByteSize ms
      else used + m.utf8ByteSize + 1 ≠ limit ∧ Packs limit (used + 1 + m.utf8ByteSize) ms

instance decidablePacks (limit : Nat) : ∀ used ms, Decidable (Packs limit used ms)
  | _, [] => isTrue trivial
  | used, m :: ms =>
    have := decidablePacks limit m.utf8ByteSize ms
    have := decidablePacks limit (used + 1 + m.utf8ByteSize) ms
    inferInstanceAs (Decidable (_ ∧ _))

/-- Every group has members, none of them is empty, and they can be packed. -/
def Storable (t : GroupTable) : Prop :=
  ∀ {p tag list}, t.slot p = some (tag, some list) → list ≠ [] ∧ "" ∉ list ∧ Packs recordSize 0 list

/-- A name without the characters that mean something in a list. -/
def PlainName (m : String) : Prop := ∀ c ∈ m.toList, inBase c = true
deriving Decidable

variable {l : List (Option (String × Option (List String)))} {items : List Item}

section
variable {limit : Nat} {memberlist m : String} {ms out records : List String} {c : List String}

theorem size_comma (a b : String) :
    (a ++ "," ++ b).utf8ByteSize = a.utf8ByteSize + 1 + b.utf8ByteSize := by
  rw [String.utf8ByteSize_append, String.utf8ByteSize_append]
  rfl

theorem doConvertion_over
    (h : limit ≤ m.utf8ByteSize ∨
      memberlist ≠ "" ∧ memberlist.utf8ByteSize + m.utf8ByteSize + 1 = limit) :
    doConvertion limit (m :: ms) memberlist out = none := by
  unfold doConvertion
  rw [if_pos]
  rcases h with h | ⟨hne, h⟩
  · rw [if_pos (show limit < memberlist.utf8ByteSize + m.utf8ByteSize + 1 by omega), if_pos rfl]
    omega
  · rw [if_neg (show ¬ limit < memberlist.utf8ByteSize + m.utf8ByteSize + 1 by omega), if_neg hne,
      size_comma]
    omega

theorem doConvertion_first (hm : m.utf8ByteSize < limit) :
    doConvertion limit (m :: ms) "" out =
      doConvertion limit ms m (if ms = [] ∧ m ≠ "" then out ++ [m] else out) := by
  have hroom : ¬ limit < "".utf8ByteSize + m.utf8ByteSize + 1 := by
    simp only [String.utf8ByteSize_empty]
    omega
  conv => lhs; unfold doConvertion
  simp only [if_neg hroom, if_true]
  rw [if_neg (by omega)]

theorem doConvertion_full (hm : m.utf8ByteSize < limit)
    (h : limit < memberlist.utf8ByteSize + m.utf8ByteSize + 1) :
    doConvertion limit (m :: ms) memberlist out =
      doConvertion limit ms m
      (if ms = [] ∧ m ≠ "" then out ++ [memberlist] ++ [m] else out ++ [memberlist]) := by
  conv => lhs; unfold doConvertion
  simp only [if_pos h, if_true]
  rw [if_neg (by omega)]

theorem doConvertion_append (hne : memberlist ≠ "")
    (h : memberlist.utf8ByteSize + m.utf8ByteSize + 1 < limit) :
    doConvertion limit (m :: ms) memberlist out =
      doConvertion limit ms (memberlist ++ "," ++ m)
        (if ms = [] ∧ memberlist ++ "," ++ m ≠ "" then out ++ [memberlist ++ "," ++ m]
          else out) := by
  conv => lhs; unfold doConvertion
  simp only [if_neg (show ¬ limit < memberlist.utf8ByteSize + m.utf8ByteSize + 1 by omega),
    if_neg hne]
  rw [if_neg]
  rw [size_comma]
  omega

theorem doConvertion_isSome_iff :
    (doConvertion limit ms memberlist out).isSome ↔ Packs limit memberlist.utf8ByteSize ms := by
  induction ms generalizing memberlist out with
  | nil => simp [doConvertion, Packs]
  | cons m ms ih =>
    unfold Packs
    simp only [String.utf8ByteSize_eq_zero_iff]
    by_cases hm : m.utf8ByteSize < limit
    · simp only [hm, true_and]
      split
      · rename_i hst
        rcases hst with rfl | hf
        · rw [doConvertion_first hm, ih]
        · rw [doConvertion_full hm hf, ih]
      · rename_i hroom
        push Not at hroom
        by_cases hfi : memberlist.utf8ByteSize + m.utf8ByteSize + 1 = limit
        · rw [doConvertion_over (Or.inr ⟨hroom.1, hfi⟩)]
          simp [hfi]
        · rw [doConvertion_append hroom.1 (by omega), ih, size_comma]
          simp [hfi]
    · rw [doConvertion_over (Or.inl (by omega))]
      simp [hm]

/-- Names with commas between them. -/
def joined (c : List String) : String := String.ofList (commas (c.map String.toList))

theorem joined_singleton (m : String) : joined [m] = m := by
  simp [joined, commas, String.ofList_toList]

theorem joined_concat (hc : c ≠ []) (m : String) : joined (c ++ [m]) = joined c ++ "," ++ m := by
  apply String.toList_injective
  simp [joined, commas_concat, hc]

theorem doConvertion_pieces {cur : List String} (hcur : cur ≠ []) (hne : joined cur ≠ "")
    (hlt : (joined cur).utf8ByteSize < limit) (hp : Packs limit (joined cur).utf8ByteSize ms) :
    ∃ cs : List (List String), [] ∉ cs ∧ cs.flatten = cur ++ ms ∧
      (∀ c ∈ cs, joined c ≠ "" ∧ (joined c).utf8ByteSize < limit) ∧
      doConvertion limit ms (joined cur)
      (if ms = [] ∧ joined cur ≠ "" then out ++ [joined cur] else out) =
        some (out ++ cs.map joined) := by
  induction ms generalizing cur out with
  | nil =>
    exact ⟨[cur], by simpa using hcur.symm, by simp, by simp [hne, hlt], by simp [doConvertion, hne]⟩
  | cons m ms ih =>
    unfold Packs at hp
    simp only [String.utf8ByteSize_eq_zero_iff, hne, false_or] at hp
    rw [if_neg (by simp)]
    obtain ⟨hm, hp⟩ := hp
    split at hp
    · rename_i hf
      have hm' : m ≠ "" := by
        rintro rfl
        simp only [String.utf8ByteSize_empty] at hf
        omega
      have ih := @ih (out ++ [joined cur]) [m] (by simp)
      simp only [joined_singleton] at ih
      obtain ⟨cs, hcs, hfla, hre, hco⟩ := ih hm' hm hp
      rw [doConvertion_full hm hf, hco]
      exact ⟨cur :: cs, by simp [hcs, hcur.symm], by simp [hfla], by simpa [hne, hlt] using hre, by simp⟩
    · have hlt' : (joined cur).utf8ByteSize + m.utf8ByteSize + 1 < limit := by omega
      have hsi : (joined (cur ++ [m])).utf8ByteSize = (joined cur).utf8ByteSize + 1 +
          m.utf8ByteSize := by
        rw [joined_concat hcur, size_comma]
      obtain ⟨cs, hcs, hfla, hre, hco⟩ := @ih out (cur ++ [m]) (by simp)
        (by rw [← String.utf8ByteSize_eq_zero_iff.ne]; omega) (by omega) (by rw [hsi]; exact hp.2)
      rw [doConvertion_append hne hlt', ← joined_concat hcur]
      exact ⟨cs, hcs, by simpa using hfla, hre, hco⟩

theorem doConvertion_records (hh : ms.head? ≠ some "") (hp : Packs limit 0 ms) :
    ∃ cs : List (List String), [] ∉ cs ∧ cs.flatten = ms ∧
      (∀ c ∈ cs, joined c ≠ "" ∧ (joined c).utf8ByteSize < limit) ∧
      doConvertion limit ms "" [] = some (cs.map joined) := by
  cases ms with
  | nil => exact ⟨[], by simp, rfl, by simp, rfl⟩
  | cons m ms =>
    obtain ⟨hm, hp⟩ := hp
    have hpi := @doConvertion_pieces limit ms [] [m] (by simp)
    simp only [joined_singleton] at hpi
    rw [doConvertion_first hm]
    exact hpi (by simpa using hh) hm hp

/-! ### Records of any size -/

/-- The records are pieces of the members in their order, none of them empty, and shorter than the
limit if the members are. -/
def Splits (limit : Nat) (ms : List String) : Prop :=
  ∃ (r : Option (List String)) (cs : List (List String)), convertMembersList ms limit = some r ∧
    r.getD [] = cs.map joined ∧ cs.flatten = ms ∧
    ∀ c ∈ cs, joined c ≠ "" ∧ ((∀ m ∈ ms, m.utf8ByteSize < limit) → (joined c).utf8ByteSize < limit)

theorem doConvertion_dropWhile (hli : 0 < limit) (ms : List String) :
    doConvertion limit ms "" [] = doConvertion limit (ms.dropWhile (· = "")) "" [] := by
  induction ms with
  | nil => rfl
  | cons m ms ih =>
    by_cases hm : m = ""
    · subst hm
      rw [dropWhile_cons_of_pos (by simp), ← ih, doConvertion_first hli]
      simp
    · rw [dropWhile_cons_of_neg (by simpa using hm)]

/-- All that can be converted comes in pieces. -/
theorem doConvertion_eq_some (h : doConvertion limit ms "" [] = some records) :
    ∃ cs : List (List String), records = cs.map joined ∧ cs.flatten = ms.dropWhile (· = "") ∧
      ∀ c ∈ cs, joined c ≠ "" := by
  have hpa : ∀ {ms}, doConvertion limit ms "" [] = some records → Packs limit 0 ms := fun h =>
    (@doConvertion_isSome_iff limit "" _ []).1 (Option.isSome_iff_exists.2 ⟨_, h⟩)
  cases ms with
  | nil => exact ⟨[], by simpa [doConvertion] using h.symm, rfl, by simp⟩
  | cons m ms =>
    rw [doConvertion_dropWhile ((Nat.zero_le _).trans_lt (hpa h).1)] at h
    have hh := head?_dropWhile_not (fun m => decide (m = "")) (m :: ms)
    obtain ⟨cs, -, hf, hre, heq⟩ :=
      doConvertion_records (fun hempty => by simp [hempty] at hh) (hpa h)
    exact ⟨cs, Option.some.inj (h.symm.trans heq), hf, fun c hc => (hre c hc).1⟩

def weight (ms : List String) : Nat := (ms.map fun m => m.utf8ByteSize + 1).sum

theorem weight_joined (hc : c ≠ []) : (joined c).utf8ByteSize + 1 = weight c := by
  induction c using List.reverseRecOn with
  | nil => exact absurd rfl hc
  | append_singleton c m ih =>
    cases c with
    | nil => simp [joined_singleton, weight]
    | cons d c =>
      have ih := ih (by simp)
      rw [joined_concat (by simp), size_comma]
      simp only [weight, map_append, sum_append, map_cons, map_nil, sum_cons, sum_nil] at ih ⊢
      omega

theorem weight_records {cs : List (List String)} (hcs : ∀ c ∈ cs, joined c ≠ "") :
    weight (cs.map joined) = weight cs.flatten := by
  induction cs with
  | nil => rfl
  | cons c cs ih =>
    rw [forall_mem_cons] at hcs
    have hc : c ≠ [] := by
      rintro rfl
      exact hcs.1 rfl
    have ih := ih hcs.2
    have hwe := weight_joined hc
    simp only [weight, map_cons, sum_cons, flatten_cons, map_append, sum_append] at ih hwe ⊢
    omega

theorem weight_dropWhile_le (ms : List String) : weight (ms.dropWhile (· = "")) ≤ weight ms :=
  ((dropWhile_sublist _).map _).sum_le_sum fun _ _ => Nat.zero_le _

/-- **The records hold the members**, whatever the limit, if the members can be packed and the
first one is not empty; and only then. -/
theorem splits_iff (limit : Nat) (ms : List String) :
    Splits limit ms ↔ Packs limit 0 ms ∧ ms.head? ≠ some "" := by
  constructor
  · rintro ⟨r, cs, hco, hr, rfl, hre⟩
    rw [convertMembersList] at hco
    by_cases hempty : cs.flatten = [] ∨ limit = 0
    · rw [if_pos hempty] at hco
      cases hco
      obtain rfl : cs = [] := by simpa using hr
      simp [Packs]
    · rw [if_neg hempty] at hco
      obtain ⟨records, hso, rfl⟩ := Option.map_eq_some_iff.1 hco
      obtain rfl : records = cs.map joined := hr
      refine ⟨(@doConvertion_isSome_iff limit "" _ []).1 (Option.isSome_iff_exists.2 ⟨_, hso⟩),
        fun hh => ?_⟩
      -- the records hold one name less
      obtain ⟨ms, hms⟩ : ∃ ms, cs.flatten = "" :: ms := ⟨_, (eq_cons_of_mem_head? hh)⟩
      obtain ⟨cs', heq, hf, hre'⟩ := doConvertion_eq_some hso
      have hwe := weight_records fun c hc => (hre c hc).1
      rw [heq, weight_records hre', hf, hms, dropWhile_cons_of_pos (by simp)] at hwe
      have hle := weight_dropWhile_le ms
      simp only [weight, map_cons, sum_cons] at hwe hle
      omega
  · rintro ⟨hp, hh⟩
    obtain ⟨cs, -, hf, hre, hco⟩ := doConvertion_records hh hp
    by_cases hms : ms = []
    · exact ⟨none, [], by simp [convertMembersList, hms], rfl, hms.symm, by simp⟩
    · have hli : limit ≠ 0 := by
        rintro rfl
        obtain ⟨m, ms, rfl⟩ := exists_cons_of_ne_nil hms
        exact Nat.not_lt_zero _ hp.1
      exact ⟨some (cs.map joined), cs, by simp [convertMembersList, hms, hli, hco], rfl, hf,
        fun c hc => ⟨(hre c hc).1, fun _ => (hre c hc).2⟩⟩

/-- The second name comes into the record with a comma that it has no room for. -/
theorem exact_fit_not_split : ¬ Splits 4 ["a", "bc"] := by
  rintro ⟨r, cs, hco, -⟩
  cases hco

end

/-! ## Reading the records -/

section
variable {L : Libc}

theorem extractNames_joined (L : Libc) {c : List String} (hc : c ≠ []) (hne : "" ∉ c)
    (hplain : ∀ m ∈ c, PlainName m) :
    extractNames L (joined c) = .ok c ∧ reading L (joined c) = L := by
  have hna := @extractNodeNames_plain L (c.map String.toList) (by simpa using hc)
    (forall_mem_map.2 fun m hm =>
      ⟨fun h => hne (String.toList_eq_nil_iff.1 h ▸ hm), hplain m hm⟩)
  unfold extractNames reading joined
  rw [String.toList_ofList, hna, pure_apply]
  refine ⟨?_, rfl⟩
  simp [Function.comp_def]

theorem processTagLine_eq (tag : String) (s : Store) :
    processTagLine tag s = { s with currentTag := some tag } := by
  unfold processTagLine
  split
  · rename_i h
    rw [← h]
  · rfl

theorem parsing_records {cs : List (List String)} {e : Bool} {t : GroupTable}
    (hcs : ∀ c ∈ cs, extractNames { L with erange := e } (joined c) = .ok c ∧
      reading { L with erange := e } (joined c) = { L with erange := e })
    (h : Usable t) (tag : String) (erri : Rc) (hne : cs ≠ []) :
    ∃ t', parsing L (cs.map fun c => .string "members" (joined c)) erri ⟨t, some tag, e⟩ =
        (.success, ⟨t', some tag, e⟩) ∧ Usable t' ∧ ∀ k, t'.get hashKey k =
        if k = tag then some (some (cs.flatten.foldl addMember ((t.get hashKey tag).join.getD [])))
        else t.get hashKey k := by
  induction cs generalizing t erri with
  | nil => exact absurd rfl hne
  | cons c cs ih =>
    obtain ⟨hna, hre⟩ := hcs c mem_cons_self
    obtain ⟨hrc, -, hget⟩ := add_eq h tag hna
    have hus := h.add tag hna
    have hadd : add { L with erange := e } tag (joined c) t =
        (.success, (add { L with erange := e } tag (joined c) t).2) :=
      Prod.ext hrc rfl
    generalize (add { L with erange := e } tag (joined c) t).2 = t1 at hget hus hadd
    have hst : parsing L ((c :: cs).map fun c => .string "members" (joined c)) erri
      ⟨t, some tag, e⟩ =
        parsing L (cs.map fun c => .string "members" (joined c)) .success ⟨t1, some tag, e⟩ := by
      rw [map_cons, parsing, if_neg (by decide), if_pos rfl]
      simp only [Store.libc, hadd, hre]
    rw [hst]
    by_cases hcs' : cs = []
    · subst hcs'
      exact ⟨t1, by rw [map_nil, parsing], hus, by simpa using hget⟩
    · obtain ⟨t', heq, hus', hget'⟩ := ih (forall_mem_cons.1 hcs).2 hus .success hcs'
      refine ⟨t', heq, hus', fun k => ?_⟩
      rw [hget', hget, hget]
      by_cases hk : k = tag <;> simp [hk]

theorem parsing_group {tag : String} {list : List String} (hl : list ≠ []) (hne : "" ∉ list)
    (hplain : ∀ m ∈ list, PlainName m) (hp : Packs recordSize 0 list) :
    ∃ inner, saveToFileConcat tag list = some [.list "group" inner] ∧
      ∀ {s : Store}, Usable s.groups → s.groups.get hashKey tag = none →
        ∃ s', parsing L inner .success s = (.success, s') ∧ Usable s'.groups ∧
          SameGroup (some (some list)) (s'.groups.get hashKey tag) ∧
          ∀ k, k ≠ tag → s'.groups.get hashKey k = s.groups.get hashKey k := by
  obtain ⟨m, ms, rfl⟩ := exists_cons_of_ne_nil hl
  have hh : (m :: ms).head? ≠ some "" := fun h => hne (mem_of_mem_head? h)
  obtain ⟨cs, hcs, hf, -, hst⟩ := doConvertion_records hh hp
  refine ⟨.string "name" tag :: cs.map fun c => .string "members" (joined c), ?_,
    fun {s} hs hno => ?_⟩
  · simp [saveToFileConcat, hst, Function.comp_def]
  · have hsub : ∀ c ∈ cs, ∀ x ∈ c, x ∈ m :: ms := by
      intro c hc x hx
      have hmem : x ∈ cs.flatten := mem_flatten.2 ⟨c, hc, hx⟩
      rwa [hf] at hmem
    have hcsn : cs ≠ [] := by
      rintro rfl
      simp at hf
    have hex :=
      fun c hc => extractNames_joined { L with erange := s.erange } (fun h => hcs (h ▸ hc))
      (fun h => hne (hsub c hc _ h)) fun x hx => hplain x (hsub c hc x hx)
    obtain ⟨t', heq, hus, hget⟩ := parsing_records hex hs tag .success hcsn
    refine ⟨⟨t', some tag, s.erange⟩, ?_, hus, ?_, fun k hk => by rw [hget, if_neg hk]⟩
    · rw [parsing, if_pos rfl, processTagLine_eq]
      exact heq
    · rw [hget, if_pos rfl, hno, hf, addMember_eq]
      intro x
      simp [mem_foldl_appendUnique, mem_appendUnique]

theorem parsing_entries (hap : Table.Apart l)
    (hl : ∀ tag value, some (tag, value) ∈ l →
      ∃ list, value = some list ∧ list ≠ [] ∧ "" ∉ list ∧ (∀ m ∈ list, PlainName m) ∧
      Packs recordSize 0 list) :
    ∃ items, saveEntries l = some items ∧
      ∀ {s : Store}, Usable s.groups →
      (∀ tag value, some (tag, value) ∈ l → s.groups.get hashKey tag = none) →
        ∀ erri, ∃ s', parsing L items erri s = (erri, s') ∧ Usable s'.groups ∧
          (∀ tag list, some (tag, some list) ∈ l →
          SameGroup (some (some list)) (s'.groups.get hashKey tag)) ∧
          ∀ k, (∀ value, some (k, value) ∉ l) →
          s'.groups.get hashKey k = s.groups.get hashKey k := by
  induction l with
  | nil =>
    refine ⟨[], rfl, fun {s} hs _ erri =>
      ⟨s, by rw [parsing], hs, fun tag list h => ?_, fun _ _ => rfl⟩⟩
    cases h
  | cons x l ih =>
    obtain ⟨hx, hap⟩ := pairwise_cons.1 hap
    obtain ⟨items, hsa, hlo⟩ := ih hap fun tag value h => hl tag value (mem_cons_of_mem _ h)
    cases x with
    | none =>
      refine ⟨items, hsa, fun {s} hs hno erri => ?_⟩
      obtain ⟨s', heq, hus, hsam, hf⟩ :=
        hlo hs (fun tag value h => hno tag value (mem_cons_of_mem _ h)) erri
      exact ⟨s', heq, hus, fun tag list h => hsam tag list (by simpa using h),
        fun k hk => hf k fun value h => hk value (mem_cons_of_mem _ h)⟩
    | some e =>
      obtain ⟨tag, value⟩ := e
      obtain ⟨list, rfl, hne, hempty, hplain, hpa⟩ := hl tag value mem_cons_self
      obtain ⟨inner, hg, hgl⟩ := @parsing_group L tag list hne hempty hplain hpa
      refine ⟨.list "group" inner :: items,
        by simp [saveEntries, hg, hsa], fun {s} hs hno erri => ?_⟩
      obtain ⟨s1, heq1, hus1, hsam1, hf1⟩ := hgl hs (hno tag _ mem_cons_self)
      have ho : ∀ k value, some (k, value) ∈ l → k ≠ tag := fun k value h hk =>
        hx _ h (tag, some list) (k, value) rfl rfl hk.symm
      obtain ⟨s', heq, hus, hsam, hf⟩ := hlo hus1 (fun k value h => by
        rw [hf1 k (ho k value h), hno k value (mem_cons_of_mem _ h)]) erri
      refine ⟨s', ?_, hus, fun k list' h => ?_, fun k hk => ?_⟩
      · rw [parsing, if_pos rfl, heq1]
        exact heq
      · rcases mem_cons.1 h with h | h
        · cases h
          rw [hf tag fun value h => ho tag value h rfl]
          exact hsam1
        · exact hsam k list' h
      · rw [hf k fun value h => hk value (mem_cons_of_mem _ h), hf1]
        rintro rfl
        exact hk _ mem_cons_self

end

/-! ## What cannot be read back -/

theorem doConvertion_noBracket {limit : Nat} {ms records : List String}
    (hms : ∀ m ∈ ms, '[' ∉ m.toList) (h : doConvertion limit ms "" [] = some records) :
    ∀ r ∈ records, '[' ∉ r.toList := by
  obtain ⟨cs, rfl, hf, -⟩ := doConvertion_eq_some h
  intro r hr
  obtain ⟨c, hc, rfl⟩ := mem_map.1 hr
  rw [joined, String.toList_ofList]
  refine notMem_commas (fun t ht => ?_) (by decide)
  obtain ⟨m, hm, rfl⟩ := mem_map.1 ht
  have hmem : m ∈ cs.flatten := mem_flatten.2 ⟨c, hc, hm⟩
  rw [hf] at hmem
  exact hms m ((dropWhile_sublist _).subset hmem)

variable {tag : String} {list : List String}

theorem saveEntries_eq_some (h : saveEntries (some (tag, some list) :: l) = some items) :
    ∃ others, saveEntries l = some others ∧ (list = [] ∧ items = others ∨
      list ≠ [] ∧ ∃ records, doConvertion recordSize list "" [] = some records ∧
        items = .list "group" (.string "name" tag :: records.map (Item.string "members")) ::
        others) := by
  rw [saveEntries] at h
  split at h
  · cases h
  · rename_i first hf
    obtain ⟨others, ho, rfl⟩ := Option.map_eq_some_iff.1 h
    refine ⟨others, ho, ?_⟩
    unfold saveToFileConcat at hf
    split at hf
    · rename_i hnil
      cases hf
      exact Or.inl ⟨hnil, rfl⟩
    · rename_i hne
      obtain ⟨records, hre, rfl⟩ := Option.map_eq_some_iff.1 hf
      exact Or.inr ⟨hne, records, hre, rfl⟩

section
variable {L : Libc} {names : List Orte.Text} {base : Orte.Text}

/-- Without brackets every name that is read is one before a comma, and these are not empty. -/
theorem extractItem_noBracket (h : '[' ∉ base) {rest : Option Orte.Text} {e e' : Bool}
    (hit : extractItem L base e = (.ok (names, rest), e')) :
    [] ∉ names ∧ ∀ more, rest = some more → '[' ∉ more := by
  have hdr : ∀ c ∈ base.dropWhile inBase, c ∈ base := fun c hc => (dropWhile_sublist _).subset hc
  generalize hx : extractItem L base = x at hit
  unfold extractItem at hx
  simp only at hx
  split at hx
  · cases hx; cases hit
  · rename_i hname
    split at hx
    · cases hx; cases hit
      exact ⟨by simpa using Ne.symm hname, fun more h => by cases h⟩
    · rename_i more heq
      cases hx; cases hit
      refine ⟨by simpa using Ne.symm hname, fun more' hm hmem => h (hdr _ ?_)⟩
      cases hm
      rw [heq]
      exact mem_cons_of_mem _ hmem
    · rename_i heq
      exact absurd (hdr '[' (by rw [heq]; exact mem_cons_self)) h
    · cases hx; cases hit

theorem extractNodeNames_noBracket (h : '[' ∉ base) {e e' : Bool}
    (hok : extractNodeNames L base e = (.ok names, e')) : [] ∉ names := by
  induction hn : base.length using Nat.strong_induction_on generalizing base names e with
  | _ n ih =>
    rw [extractNodeNames_eq] at hok
    obtain ⟨⟨ns, rest⟩, e1, hit, hok⟩ := exists_of_bind_apply hok
    obtain ⟨hns, hm⟩ := extractItem_noBracket h hit
    cases rest with
    | none =>
      cases hok
      exact hns
    | some more =>
      simp only [map_eq_pure_bind] at hok
      obtain ⟨ns', e2, hok', hna⟩ := exists_of_bind_apply hok
      cases hna
      have hlt := extractItem_rest_lt hit
      have hre := ih _ (hn ▸ hlt) (hm more rfl) hok' rfl
      simp [hns, hre]

theorem extractNames_noBracket {regex : String} (h : '[' ∉ regex.toList) {names : List String}
    (hok : extractNames L regex = .ok names) : "" ∉ names := by
  unfold extractNames at hok
  split at hok
  · rename_i ns hns
    cases hok
    intro hmem
    obtain ⟨n, hn, hempty⟩ := mem_map.1 hmem
    have hnil : n = [] := by simpa using congrArg String.toList hempty
    exact extractNodeNames_noBracket h (Prod.ext hns rfl) (hnil ▸ hn)
  · cases hok

/-- No group has a member with an empty name. -/
def NoEmptyName (t : GroupTable) : Prop :=
  t.Sound hashKey opalPolicy ∧ ∀ k list, t.get hashKey k = some (some list) → "" ∉ list

/-- Only one group changes, and it gets no member with an empty name. -/
def ChangesOnly (tag : String) (t t' : GroupTable) : Prop :=
  NoEmptyName t' ∧ ∀ k, k ≠ tag → t'.get hashKey k = t.get hashKey k

variable {t : GroupTable}

theorem setValue_noEmptyName (h : NoEmptyName t) {value : Option (List String)}
    (hv : ∀ list, value = some list → "" ∉ list) :
    ChangesOnly tag t (setValue t tag value).2 := by
  obtain ⟨-, hso, hget⟩ := setValue_eq h.1 tag value
  refine ⟨⟨hso, fun k list hk => ?_⟩, fun k hk => by rw [hget, if_neg hk]⟩
  rw [hget] at hk
  split at hk
  · exact hv list (Option.some.inj hk)
  · exact h.2 k list hk

theorem add_noEmptyName (h : NoEmptyName t) (tag : String) {regex : String}
    (hre : '[' ∉ regex.toList) :
    ChangesOnly tag t (add L tag regex t).2 := by
  unfold add
  cases hna : extractNames L regex with
  | error e =>
    cases t.get hashKey tag with
    | none => exact ⟨h, fun _ _ => rfl⟩
    | some value =>
      cases value with
      | none => exact ⟨h, fun _ _ => rfl⟩
      | some list => exact setValue_noEmptyName h fun _ hv => by cases hv
  | ok names =>
    have hna := extractNames_noBracket hre hna
    cases hg : t.get hashKey tag with
    | none =>
      refine setValue_noEmptyName h fun list hl => ?_
      cases hl
      simpa [addMember_eq, mem_foldl_appendUnique] using hna
    | some value =>
      cases value with
      | none => exact ⟨h, fun _ _ => rfl⟩
      | some old =>
        refine setValue_noEmptyName h fun list hl => ?_
        cases hl
        have hold := h.2 tag old hg
        simp [addMember_eq, mem_foldl_appendUnique, hna, hold]

theorem parsing_records_noEmptyName {records : List String} (hre : ∀ r ∈ records, '[' ∉ r.toList)
    (h : NoEmptyName t) (tag : String) (erri : Rc) (e : Bool) :
    ChangesOnly tag t (parsing L (records.map (Item.string "members")) erri
      ⟨t, some tag, e⟩).2.groups := by
  induction records generalizing t erri e with
  | nil =>
    rw [map_nil, parsing]
    exact ⟨h, fun _ _ => rfl⟩
  | cons r records ih =>
    obtain ⟨hadd, hf⟩ := @add_noEmptyName { L with erange := e } t h tag r (hre r mem_cons_self)
    rw [map_cons, parsing, if_neg (by decide), if_pos rfl]
    simp only [Store.libc]
    split
    · rename_i t1 heq
      rw [heq] at hadd hf
      exact ⟨hadd, hf⟩
    · rename_i erri1 t1 hne heq
      rw [heq] at hadd hf
      obtain ⟨hres, hf'⟩ := ih (forall_mem_cons.1 hre).2 hadd erri1 _
      exact ⟨hres, fun k hk => by rw [hf' k hk, hf k hk]⟩

/-- Whatever is saved: no name that is read is empty, and a group without members is not read. -/
theorem parsing_entries_frame
    (hl : ∀ tag list, some (tag, some list) ∈ l → ∀ m ∈ list, '[' ∉ m.toList)
    (hsa : saveEntries l = some items) {s : Store} (h : NoEmptyName s.groups) (erri : Rc) :
    NoEmptyName (parsing L items erri s).2.groups ∧
      ∀ k, (∀ list, some (k, some list) ∈ l → list = []) →
        (parsing L items erri s).2.groups.get hashKey k = s.groups.get hashKey k := by
  induction l generalizing items s with
  | nil =>
    cases hsa
    rw [parsing]
    exact ⟨h, fun _ _ => rfl⟩
  | cons x l ih =>
    have hl' : ∀ tag list, some (tag, some list) ∈ l → ∀ m ∈ list, '[' ∉ m.toList :=
      fun tag list hm => hl tag list (mem_cons_of_mem _ hm)
    rcases x with _ | ⟨tag, _ | list⟩
    case none =>
      obtain ⟨hres, hf⟩ := ih hl' hsa h
      exact ⟨hres, fun k hk => hf k fun list hm => hk list (mem_cons_of_mem _ hm)⟩
    case some.none => cases hsa
    case some.some =>
      obtain ⟨others, hen, ⟨-, rfl⟩ | ⟨hne, records, hre, rfl⟩⟩ := saveEntries_eq_some hsa
      · obtain ⟨hres, hf⟩ := ih hl' hen h
        exact ⟨hres, fun k hk => hf k fun list hm => hk list (mem_cons_of_mem _ hm)⟩
      · have hnob := doConvertion_noBracket (hl tag list mem_cons_self) hre
        obtain ⟨hg, hgf⟩ :=
          @parsing_records_noEmptyName L s.groups records hnob h tag .success s.erange
        have hinner :
          parsing L (.string "name" tag :: records.map (Item.string "members")) .success s =
            parsing L (records.map (Item.string "members")) .success
            ⟨s.groups, some tag, s.erange⟩ := by
          rw [parsing, if_pos rfl, processTagLine_eq]
        have htag : ∀ k, (∀ list', some (k, some list') ∈ some (tag, some list) :: l → list' = []) →
            k ≠ tag := by
          rintro k hk rfl
          exact hne (hk list mem_cons_self)
        rw [parsing, if_pos rfl, hinner]
        split
        · rename_i s1 heq
          rw [heq] at hg hgf
          obtain ⟨hres, hf⟩ := ih hl' hen hg
          refine ⟨hres, fun k hk => ?_⟩
          rw [hf k fun list hm => hk list (mem_cons_of_mem _ hm), hgf k (htag k hk)]
        · rename_i heq
          rw [heq] at hg hgf
          exact ⟨hg, fun k hk => hgf k (htag k hk)⟩

end

/-! ## The whole table -/

theorem saveEntries_none (h : ∀ x ∈ l, x = none) : saveEntries l = some [] := by
  induction l with
  | nil => rfl
  | cons x l ih =>
    rw [h x mem_cons_self]
    exact ih (forall_mem_cons.1 h).2

theorem saveEntries_packs (hsa : saveEntries l = some items) (hmem : some (tag, some list) ∈ l) :
    Packs recordSize 0 list := by
  induction l generalizing items with
  | nil => cases hmem
  | cons x l ih =>
    match x with
    | none => exact ih hsa (by simpa using hmem)
    | some (_, none) => cases hsa
    | some (tag', some list') =>
      obtain ⟨others, ho, hl'⟩ := saveEntries_eq_some hsa
      rcases mem_cons.1 hmem with hmem | hmem
      · cases hmem
        rcases hl' with ⟨rfl, -⟩ | ⟨-, records, hre, -⟩
        · trivial
        · exact doConvertion_isSome_iff.1 (Option.isSome_iff_exists.2 ⟨records, hre⟩)
      · exact ih ho hmem

section
variable {File : Type} {L : Libc} {P : Parser File} {file : File} {currentTag : Option String}
  {t : GroupTable}

theorem loadFromFile_saved (items : Option (List Item)) :
    loadFromFile L ⟨true, P.retrieveSection (P.writeSection file items), .success⟩
      ⟨init, currentTag, L.erange⟩ =
      match parsing L (items.getD []) .success ⟨init, currentTag, L.erange⟩ with
      | (.notFound, s) => (.success, s)
      | r => r := by
  rw [loadFromFile, if_pos rfl, P.retrieve_write, parseFromFile, parseItems, if_pos rfl]
  rcases parsing L (items.getD []) .success ⟨init, currentTag, L.erange⟩ with ⟨rc, s⟩
  cases rc <;> rfl

section
variable (h : Usable t)
  (hplain : ∀ {p tag list}, t.slot p = some (tag, some list) → ∀ m ∈ list, PlainName m)
include h hplain

theorem storable_restores (hs : Storable t) : Restores L P file currentTag t := by
  have hl : ∀ tag value, some (tag, value) ∈ t.slots →
    ∃ list, value = some list ∧ list ≠ [] ∧ "" ∉ list ∧
      (∀ m ∈ list, PlainName m) ∧ Packs recordSize 0 list := by
    intro tag value hmem
    obtain ⟨p, hp⟩ := Table.mem_slots_iff.1 hmem
    obtain ⟨list, rfl, -⟩ := h.lists hp
    obtain ⟨hne, hempty, hpa⟩ := hs hp
    exact ⟨list, rfl, hne, hempty, hplain hp, hpa⟩
  obtain ⟨items, hsav, hlo⟩ := @parsing_entries t.slots L h.apart hl
  have hst : Usable (Store.mk init currentTag L.erange).groups := proper_init.usable
  obtain ⟨s', heq, -, hsam, hf⟩ := hlo hst (fun tag _ _ => init_get tag) .success
  -- an empty table is written as no items at all
  have hsa : ∃ items', saveToFileInternal t = some items' ∧ items'.getD [] = items := by
    unfold saveToFileInternal
    split
    · rename_i hsi
      refine ⟨none, rfl, ?_⟩
      have hempty : saveEntries t.slots = some [] := saveEntries_none fun x hx => by
        cases x with
        | none => rfl
        | some e =>
          obtain ⟨p, hp⟩ := Table.mem_slots_iff.1 hx
          simp [h.slot_eq_none hsi] at hp
      rw [hempty] at hsav
      exact Option.some.inj hsav
    · exact ⟨some items, by rw [hsav]; rfl, rfl⟩
  obtain ⟨items', hin, hg⟩ := hsa
  refine ⟨P.writeSection file items', by rw [saveToFile, hin]; rfl, ?_⟩
  rw [loadFromFile_saved, hg, heq]
  refine ⟨rfl, fun k => ?_⟩
  cases hk : t.get hashKey k with
  | none =>
    have hnot : ∀ value, some (k, value) ∉ t.slots := by
      intro value hmem
      obtain ⟨p, hp⟩ := Table.mem_slots_iff.1 hmem
      exact h.get_eq_none_iff.1 hk p value hp
    rw [hf k hnot, init_get]
    trivial
  | some value =>
    obtain ⟨p, hp⟩ := h.get_eq_some_iff.1 hk
    obtain ⟨list, rfl, -⟩ := h.lists hp
    exact hsam k list (Table.mem_slots_iff.2 ⟨p, hp⟩)

theorem restores_storable (hr : Restores L P file currentTag t) : Storable t := by
  intro p tag list hp
  obtain ⟨file', hsa, -, hsam⟩ := hr
  obtain ⟨items', hin, hfi⟩ := Option.map_eq_some_iff.1 hsa
  have hsi : t.size ≠ 0 := fun hsi => by simp [h.slot_eq_none hsi] at hp
  rw [saveToFileInternal, if_neg hsi] at hin
  obtain ⟨items, hsav, hit⟩ := Option.map_eq_some_iff.1 hin
  subst hit hfi
  have hbr : ∀ tag list, some (tag, some list) ∈ t.slots → ∀ m ∈ list, '[' ∉ m.toList := by
    intro tag list hmem m hm hc
    obtain ⟨q, hq⟩ := Table.mem_slots_iff.1 hmem
    exact absurd (hplain hq m hm '[' hc) (by decide)
  have hst : NoEmptyName (Store.mk init currentTag L.erange).groups := by
    refine ⟨proper_init.toSound, fun k list hk => ?_⟩
    simp at hk
  obtain ⟨hcl, hf⟩ :=
    @parsing_entries_frame t.slots items L hbr hsav ⟨init, currentTag, L.erange⟩ hst .success
  have hloa : (loadFromFile L ⟨true, P.retrieveSection (P.writeSection file (some items)), .success⟩
      ⟨init, currentTag, L.erange⟩).2 =
      (parsing L items .success ⟨init, currentTag, L.erange⟩).2 := by
    rw [loadFromFile_saved, Option.getD_some]
    rcases parsing L items .success ⟨init, currentTag, L.erange⟩ with ⟨rc, s⟩
    cases rc <;> rfl
  have hg := hsam tag
  rw [hloa, h.get_eq_some_iff.2 ⟨p, hp⟩] at hg
  refine ⟨?_, fun hempty => ?_, saveEntries_packs hsav (Table.mem_slots_iff.2 ⟨p, hp⟩)⟩
  · rintro rfl
    rw [hf tag] at hg
    · rw [init_get] at hg
      exact hg
    · intro list hmem
      obtain ⟨q, hq⟩ := Table.mem_slots_iff.1 hmem
      rw [h.distinct hq hp, hp] at hq
      cases hq
      rfl
  · cases hget :
      (parsing L items .success ⟨init, currentTag, L.erange⟩).2.groups.get hashKey tag with
    | none => rw [hget] at hg; exact hg
    | some value =>
      cases value with
      | none => rw [hget] at hg; exact hg
      | some list' =>
        rw [hget] at hg
        exact hcl.2 tag list' hget ((hg "").1 hempty)

end

/-- When a table is what is loaded after it was saved. -/
theorem restores_iff (h : Usable t)
    (hplain : ∀ {p tag list}, t.slot p = some (tag, some list) → ∀ m ∈ list, PlainName m) :
    Restores L P file currentTag t ↔ Storable t :=
  ⟨restores_storable h hplain, storable_restores h hplain⟩

end

/-- A parser that keeps the items. -/
def sampleParser : Parser (Option (List Item)) where
  writeSection _ items := items
  retrieveSection file := some [.list "logicalgroup" (file.getD [])]
  retrieve_write _ _ := rfl

/-- The group `g` alone. -/
def sampleGroup (names : List String) : GroupTable := (add sampleLibc "g" (joined names) init).2

section
variable {names : List String} (hne : names ≠ []) (hempty : "" ∉ names)
  (hplain : ∀ m ∈ names, PlainName m)
include hne hempty hplain

theorem sampleGroup_usable : Usable (sampleGroup names) :=
  proper_init.usable.add "g" (extractNames_joined _ hne hempty hplain).1

theorem sampleGroup_get (k : String) :
    (sampleGroup names).get hashKey k = if k = "g" then some (some (names.foldl addMember []))
      else none := by
  obtain ⟨-, -, hget⟩ := @add_eq init (joined names) sampleLibc names proper_init.usable "g"
    (extractNames_joined _ hne hempty hplain).1
  rw [sampleGroup, hget, init_get, init_get]
  rfl

theorem sampleGroup_slot (hna : names.foldl addMember [] = names) {p : Nat}
    (hp : (sampleGroup names).slot p = some (tag, some list)) : list = names := by
  have hget := (sampleGroup_usable hne hempty hplain).get_eq_some_iff.2 ⟨p, hp⟩
  rw [sampleGroup_get hne hempty hplain] at hget
  split at hget
  · rw [hna] at hget
    cases hget
    rfl
  · cases hget

theorem sampleGroup_overruns (hna : names.foldl addMember [] = names)
    (hpa : ¬ Packs recordSize 0 names) :
    ¬ Restores sampleLibc sampleParser none none (sampleGroup names) := by
  intro hre
  have hus := sampleGroup_usable hne hempty hplain
  have hg : (sampleGroup names).get hashKey "g" = some (some names) := by
    rw [sampleGroup_get hne hempty hplain, hna, if_pos rfl]
  obtain ⟨p, hp⟩ := hus.get_eq_some_iff.1 hg
  refine hpa (restores_storable hus (fun hq => ?_) hre hp).2.2
  rw [sampleGroup_slot hne hempty hplain hna hq]
  exact hplain

end

/-- Two short names come back. -/
theorem restores_iff_short :
    Restores sampleLibc sampleParser none none (sampleGroup ["x", "y"]) := by
  have hsl : ∀ {p tag list}, (sampleGroup ["x", "y"]).slot p = some (tag, some list) →
      list = ["x", "y"] :=
    fun hp => sampleGroup_slot (by decide) (by decide) (by decide) (by decide) hp
  have hus : Usable (sampleGroup ["x", "y"]) :=
    sampleGroup_usable (by decide) (by decide) (by decide)
  refine (restores_iff hus fun hp => ?_).2 fun {p tag list} hp => ?_
  · rw [hsl hp]
    decide
  · rw [hsl hp]
    exact ⟨by decide, by decide, by decide⟩

/-- Together with the comma these fill a record up to the last byte. -/
def longNames : List String :=
  [String.ofList (List.replicate 500 'a'), String.ofList (List.replicate 511 'b')]

theorem plainName_replicate {c : Char} (hc : inBase c = true) (n : Nat) :
    PlainName (String.ofList (List.replicate n c)) := by
  intro d hd
  rw [String.toList_ofList] at hd
  rw [eq_of_mem_replicate hd, hc]

theorem full_record_overruns :
    ¬ Restores sampleLibc sampleParser none none (sampleGroup longNames) := by
  have hplain : ∀ m ∈ longNames, PlainName m := by
    intro m hm
    rcases mem_pair.1 hm with rfl | rfl
    · exact plainName_replicate rfl 500
    · exact plainName_replicate rfl 511
  exact sampleGroup_overruns (cons_ne_nil _ _) (by decide +kernel) hplain (by decide +kernel)
    (by decide +kernel)

end Sensys.LogicalGroup
