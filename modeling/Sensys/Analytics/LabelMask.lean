import Sensys.Orte.Extract
/-!
# Masks of labels (`orcm/mca/analytics/cott/host_analyze_counters.cpp`)

| here | there |
| --- | --- |
| `maskParts` | `mask_parts_`, as `set_value_label_mask` makes them (`:59-83`) |
| `find` | `std::string::find`, from a position on |
| `isWantedLabel` | `:116-141` |

Each part is looked for behind the one before it, the first one anywhere: a mask that starts or
ends with text accepts labels that do not.
-/
namespace Sensys.Cott
open Orte List

/-- A mask without `*` has no parts. -/
def maskParts (mask : Text) : List Text :=
  if '*' ∈ mask then (mask.splitOn '*').filter (· ≠ []) else []

/-- What is behind the first `part` in a text. -/
def find (part : Text) : Text → Option Text
  | [] => if part = [] then some [] else none
  | c :: t => if part.isPrefixOf (c :: t) then some ((c :: t).drop part.length) else find part t

def scanParts : List Text → Text → Bool
  | [], _ => true
  | part :: parts, t => (find part t).any (scanParts parts)

def isWantedLabel (mask label : Text) : Bool :=
  if label = [] then false
  else if mask.all (· = '*') then true
  else if maskParts mask = [] then label = mask
  else scanParts (maskParts mask) label

/-- The whole label matches the mask, with `*` for any text. -/
def Matches : Text → Text → Prop
  | [], label => label = []
  | c :: mask, label =>
    ∃ rest, (if c = '*' then rest <:+ label else label = c :: rest) ∧ Matches mask rest

/-! ## The search -/

/-- The parts are there, one behind the other. -/
def Spread : List Text → Text → Prop
  | [], _ => True
  | part :: parts, t => ∃ rest, part ++ rest <:+ t ∧ Spread parts rest

variable {part t u : Text} {parts : List Text} {mask : Text} {text : Text} {c : Char}

theorem Spread.mono (h : Spread parts t) (htu : t <:+ u) : Spread parts u := by
  cases parts with
  | nil => trivial
  | cons part parts =>
    obtain ⟨rest, hre, h⟩ := h
    exact ⟨rest, hre.trans htu, h⟩

theorem spread_flatten (parts : List Text) (t : Text) : Spread parts (parts.flatten ++ t) := by
  induction parts with
  | nil => trivial
  | cons part parts ih => exact ⟨_, by simp, ih⟩

theorem find_cases (part t : Text) :
    (find part t = none ∧ ∀ rest, ¬ part ++ rest <:+ t) ∨
      ∃ rest, find part t = some rest ∧ part ++ rest <:+ t ∧ ∀ rest', part ++ rest' <:+ t →
      rest' <:+ rest := by
  induction t with
  | nil => by_cases hpa : part = [] <;> simp [find, hpa]
  | cons c t ih =>
    rw [find]
    by_cases hp : part.isPrefixOf (c :: t)
    · obtain ⟨rest, hre⟩ := isPrefixOf_iff_prefix.1 hp
      refine Or.inr ⟨rest, by simp [← hre], hre ▸ suffix_rfl, fun rest' h' => ?_⟩
      -- both are at the end of the text, and the first `part` is the longest way from it
      have hlen := h'.length_le
      rw [← hre] at h' hlen
      simp only [length_append] at hlen
      exact suffix_of_suffix_length_le ((suffix_append _ _).trans h') (suffix_append _ _) (by omega)
    · have hnot : ∀ rest, part ++ rest <:+ c :: t ↔ part ++ rest <:+ t := by
        intro rest
        rw [suffix_cons_iff, or_iff_right]
        intro h
        exact hp ( isPrefixOf_iff_prefix.2 ⟨rest, h⟩)
      simpa only [if_neg hp, hnot] using ih

theorem scanParts_iff : scanParts parts t = true ↔ Spread parts t := by
  induction parts generalizing t with
  | nil => simp [scanParts, Spread]
  | cons part parts ih =>
    rw [scanParts, Spread]
    obtain ⟨hnon, hno⟩ | ⟨rest, hso, hre, hlon⟩ := find_cases part t
    · simp [hnon, hno]
    · simp only [hso, Option.any_some, ih]
      exact ⟨fun h => ⟨rest, hre, h⟩, fun ⟨rest', hre', h⟩ => h.mono (hlon rest' hre')⟩

theorem mem_of_matches (h : Matches mask t) (hc : c ∈ mask) (hst : c ≠ '*') : c ∈ t := by
  induction mask generalizing t with
  | nil => cases hc
  | cons d mask ih =>
    obtain ⟨rest, hd, h⟩ := h
    rcases mem_cons.1 hc with rfl | hc
    · simp_all
    · have hmem := ih h hc
      split at hd
      · exact hd.subset hmem
      · exact hd ▸ mem_cons_of_mem d hmem

theorem matches_append (h : '*' ∉ text) :
    Matches (text ++ mask) t ↔ ∃ rest, t = text ++ rest ∧ Matches mask rest := by
  induction text generalizing t with
  | nil => simp
  | cons c text ih =>
    rw [mem_cons, not_or] at h
    simp only [cons_append, Matches, Ne.symm h.1, if_false, ih h.2]
    grind

theorem getLast?_of_matches (hc : c ≠ '*') (h : Matches (mask ++ [c]) t) : t.getLast? = some c := by
  induction mask generalizing t with
  | nil => simp_all [Matches]
  | cons d mask ih =>
    obtain ⟨rest, hd, h⟩ := h
    have hlast := ih h
    split at hd
    · obtain ⟨pre, rfl⟩ := hd
      rw [List.getLast?_append, hlast, Option.some_or]
    · rw [hd, List.getLast?_cons, hlast, Option.getD_some]

theorem matches_star_append (h : '*' ∉ text) :
    Matches ('*' :: (text ++ mask)) t ↔ ∃ rest, text ++ rest <:+ t ∧ Matches mask rest := by
  simp only [Matches, if_true, matches_append h]
  exact ⟨fun ⟨_, hs, rest, hr, hm⟩ => ⟨rest, hr ▸ hs, hm⟩,
    fun ⟨rest, hs, hm⟩ => ⟨_, hs, rest, rfl, hm⟩⟩

theorem matches_part (h : '*' ∉ text)
    (hm : ∀ u, Matches ('*' :: mask) u ↔ Spread ((mask.splitOn '*').filter (· ≠ [])) u) :
    Matches ('*' :: (text ++ '*' :: mask)) t ↔
      Spread (((text ++ '*' :: mask).splitOn '*').filter (· ≠ [])) t := by
  rw [matches_star_append h, splitOn_append_cons_self_of_not_mem h]
  simp only [hm]
  cases text with
  | nil => exact ⟨fun ⟨rest, hs, hr⟩ => hr.mono hs, fun hr => ⟨t, suffix_rfl, hr⟩⟩
  | cons c text => rfl

/-- Between two `*` the parts may be anywhere. -/
theorem matches_starred (h : '*' ∉ text) (mask t : Text) :
    Matches ('*' :: (text ++ mask ++ ['*'])) t ↔
      Spread (((text ++ mask ++ ['*']).splitOn '*').filter (· ≠ [])) t := by
  -- the first part grows until the next `*`
  induction mask generalizing text t with
  | nil =>
    rw [append_nil]
    exact matches_part h fun u => by simp [Matches, Spread]
  | cons c mask ih =>
    by_cases hc : c = '*'
    · rw [hc, append_assoc, cons_append]
      exact matches_part h fun u => @ih [] (by simp) u
    · simpa using @ih (text ++ [c]) (by simp [h, Ne.symm hc]) t

theorem mem_splitOn (hc : c ∈ mask) (hne : c ≠ '*') : ∃ part ∈ mask.splitOn '*', c ∈ part := by
  induction mask with
  | nil => cases hc
  | cons d mask ih =>
    obtain ⟨part, parts, hsp⟩ := exists_cons_of_ne_nil (splitOn_ne_nil '*' mask)
    rw [splitOn_eq_splitOnP] at hsp ih ⊢
    rw [splitOnP_cons_eq_if_modifyHead, hsp, modifyHead_cons]
    rcases mem_cons.1 hc with rfl | hc
    · simp [hne]
    · split <;> grind

section
variable (htext : ∃ c ∈ mask, c ≠ '*')
include htext

theorem isWantedLabel_iff (hst : '*' ∈ mask) (label : Text) :
    isWantedLabel mask label = true ↔ label ≠ [] ∧ Spread (maskParts mask) label := by
  obtain ⟨c, hc, hne⟩ := htext
  obtain ⟨part, hpar, hmem⟩ := mem_splitOn hc hne
  have hpa : maskParts mask ≠ [] := by
    rw [maskParts, if_pos hst, ne_eq, filter_eq_nil_iff]
    grind
  have hall : mask.all (· = '*') = false := by simpa using ⟨c, hc, hne⟩
  simp [isWantedLabel, hall, hpa, scanParts_iff]

/-- What is only in front of the parts or behind them is accepted. -/
theorem starred_of_exact (h : ∀ label, isWantedLabel mask label = true → Matches mask label)
    (hst : '*' ∈ mask) :
    ∃ m, mask = '*' :: m ++ ['*'] := by
  have hch : Nontrivial Char := ⟨'a', 'b', by decide⟩
  have hac := isWantedLabel_iff htext hst
  obtain ⟨c, m, rfl⟩ := exists_cons_of_ne_nil (ne_nil_of_mem hst)
  obtain rfl : c = '*' := by
    obtain ⟨d, hd⟩ := exists_ne c
    obtain ⟨rest, hre, -⟩ := h (d :: (maskParts (c :: m)).flatten)
      ((hac _).2 ⟨by simp, (spread_flatten _ []).mono (by simp)⟩)
    grind
  obtain rfl | ⟨m, c, rfl⟩ := m.eq_nil_or_concat'
  · simp at htext
  · obtain rfl : c = '*' := by
      obtain ⟨d, hd⟩ := exists_ne c
      have hlast := fun hc => @getLast?_of_matches _ ('*' :: m) c hc
        (h ((maskParts ('*' :: (m ++ [c]))).flatten ++ [d])
          ((hac _).2 ⟨by simp, spread_flatten _ _⟩))
      grind
    exact ⟨m, rfl⟩

end

/-- **Labels are accepted as the mask says**, whatever the label, if the mask is a text without
`*`, or starts and ends with `*` and is not made of `*` only; and only then. -/
theorem isWantedLabel_exact_iff (mask : Text) :
    (∀ label, isWantedLabel mask label = true ↔ Matches mask label) ↔
      (∃ c ∈ mask, c ≠ '*') ∧ ('*' ∈ mask → ∃ m, mask = '*' :: m ++ ['*']) := by
  constructor
  · intro h
    have htext : ∃ c ∈ mask, c ≠ '*' := by
      by_contra hall
      push Not at hall
      have hem : Matches mask [] := by
        clear h
        induction mask with
        | nil => rfl
        | cons c mask ih =>
          exact ⟨[], by simp [hall c mem_cons_self], ih (forall_mem_cons.1 hall).2⟩
      simp [← h, isWantedLabel] at hem
    exact ⟨htext, starred_of_exact htext fun label => (h label).1⟩
  · rintro ⟨⟨c, hc, hne⟩, hen⟩ label
    by_cases hst : '*' ∈ mask
    · have hwa := isWantedLabel_iff ⟨c, hc, hne⟩ hst label
      obtain ⟨m, rfl⟩ := hen hst
      have hm := @matches_starred [] (by simp) m label
      have hpa : maskParts ('*' :: m ++ ['*']) = ((m ++ ['*']).splitOn '*').filter (· ≠ []) := by
        rfl
      rw [hwa, hpa]
      refine ⟨fun h => hm.2 h.2, fun h => ⟨ne_nil_of_mem (mem_of_matches h hc hne), hm.1 h⟩⟩
    · have hm := @matches_append label [] mask hst
      rw [append_nil] at hm
      have hall : mask.all (· = '*') = false := by simpa using ⟨c, hc, hne⟩
      simp only [hm, Matches, isWantedLabel, hall, maskParts, if_neg hst]
      grind

theorem unanchored_label_accepted :
    isWantedLabel "CE*".toList "xCE1".toList = true ∧ ¬ Matches "CE*".toList "xCE1".toList := by
  refine ⟨by decide, ?_⟩
  rintro ⟨rest, hre, -⟩
  cases hre

end Sensys.Cott
