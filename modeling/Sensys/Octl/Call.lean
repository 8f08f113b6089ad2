import Sensys.Octl.Query
/-!
# The call that a query makes

The slots of a function take their arguments from the front of the command line, one after the
other: `Reads` is what a type takes and the text it becomes, and `Fills` is the list of arguments
that results. An argument is left out only where the slot allows it and nothing for it stands in
front; but a list that cannot be expanded is dropped where one is optional. Dates, intervals and
numbers, which are not escaped in the text of the call, have been matched with patterns that leave
no room for a quote, a comma or a parenthesis.
-/
namespace Sensys.Octl
open Orte Db Text Quoting Results List

/-- The seconds in a unit. -/
def unitSeconds (units : Char) : Nat :=
  if units = 'S' then 1 else if units = 'M' then 60 else 3600

/-- So many seconds, forth or back. -/
def secondsText (back : Bool) (n : Nat) : Text :=
  intervalText (back && n ≠ 0, ↑(n / 3600), ↑(n / 60 % 60), ↑(n % 60))

/-- A number of units that doubles and an `int` hold. -/
def isWhole (t : Text) : Bool := isDigits t && digitsValue t < 2 ^ 31

/-- An argument, and the text of the interval it stands for. -/
inductive ReadsInterval (E : Env) (defaultUnit : Char) (before : Bool) : Text → Text → Prop where
  | whole {q : Text} (h : isQuantity q = true) (hw : isWhole (quantityOf q) = true) :
    ReadsInterval E defaultUnit before q (secondsText (before ^^ isNegative q)
      (digitsValue (quantityOf q) * unitSeconds ((unitOf q).getD defaultUnit)))
  | fraction {q : Text} {p : Bool × Int × Int × Int} (h : isQuantity q = true)
    (hw : isWhole (quantityOf q) = false)
    (hp : quantityInterval E (quantityOf q) ((unitOf q).getD defaultUnit) (before ^^ isNegative q) =
      some p) :
    ReadsInterval E defaultUnit before q (intervalText p)
  | interval {t : Text} (hq : isQuantity t = false) (h : isInterval t = true)
      (hb : before = false) :
    ReadsInterval E defaultUnit before t t
  | beforeNegative {t : Text} (hq : isQuantity t = false) (h : isInterval t = true)
      (hb : before = true)
    (hn : isNegative t = true) : ReadsInterval E defaultUnit before t (unsigned t)
  | before {t u : Text} (hq : isQuantity t = false) (h : isInterval t = true) (hb : before = true)
    (hn : isNegative t = false) (hu : E.strcpyNext (unsigned t) = some u) :
    ReadsInterval E defaultUnit before t ('-' :: u)

/-- What a type takes from the front of the command line, its text, and what is left. -/
inductive Reads (E : Env)
    (defaultUnit : Char) : ArgType → List Text → Option Text → List Text → Prop where
  | dateTime {d : Text} {rest : List Text} (h : isDateTime d = true) :
    Reads E defaultUnit .date (d :: rest) (some d) rest
  | date {d : Text} {rest : List Text} (h : isDate d = true)
      (hn : ∀ t ∈ rest.head?, isTimeOfDay t = false) :
    Reads E defaultUnit .date (d :: rest) (some (d ++ " 00:00:00".toList)) rest
  | dateAndTime {d t : Text} {rest : List Text} (h : isDate d = true) (h' : isTimeOfDay t = true) :
    Reads E defaultUnit .date (d :: t :: rest) (some (d ++ ' ' :: t)) rest
  | float {x : Text} {rest : List Text} (h : isFloat x = true) :
    Reads E defaultUnit .float (x :: rest) (some x) rest
  | integer {n : Text} {rest : List Text} (h : isInteger n = true) :
    Reads E defaultUnit .integer (n :: rest) (some n) rest
  | interval {t u : Text} {rest : List Text} (hk : befAft t = none)
    (h : ReadsInterval E defaultUnit false t u) :
    Reads E defaultUnit .interval (t :: rest) (some u) rest
  | keyword {k t u : Text} {before : Bool} {rest : List Text} (hk : befAft k = some before)
    (h : ReadsInterval E defaultUnit before t u) :
    Reads E defaultUnit .interval (k :: t :: rest) (some u) rest
  | list {s t : Text} {rest : List Text} (h : s ≠ []) (ht : E.expand s = .ok t) :
    Reads E defaultUnit .ocommaList (s :: rest) (some t) rest
  | dropped {s : Text} {rest : List Text} (h : s ≠ []) (ht : E.expand s = .error .badParam) :
    Reads E defaultUnit .ocommaList (s :: rest) none rest
  | string {s : Text} {rest : List Text} (h : s ≠ []) : Reads E defaultUnit .string
      (s :: rest) (some s) rest

/-- The arguments of the slots. Those of the command line that no slot takes are ignored. -/
inductive Fills (E : Env) (defaultUnit : Char) : List Slot → List Text → List Arg → Prop where
  | nil (rest : List Text) : Fills E defaultUnit [] rest []
  | null {slot : Slot} {slots : List Slot} {argv : List Text} {args : List Arg}
      (h : slot.null = true)
    (hs : Fills E defaultUnit slots argv args) :
    Fills E defaultUnit (slot :: slots) argv (⟨slot.type, none⟩ :: args)
  | given {slot : Slot} {slots : List Slot} {argv rest : List Text} {args : List Arg}
      {value : Option Text}
    (h : slot.null = false) (hr : Reads E defaultUnit slot.type argv value rest)
    (ho : value = none → slot.optional = true) (hs : Fills E defaultUnit slots rest args) :
    Fills E defaultUnit (slot :: slots) argv (⟨slot.type, value⟩ :: args)
  | omitted {slot : Slot} {slots : List Slot} {argv : List Text} {args : List Arg}
      (h : slot.null = false)
    (ho : slot.optional = true) (hr : ∀ value rest, ¬ Reads E defaultUnit slot.type argv value rest)
    (hs : Fills E defaultUnit slots argv args) :
    Fills E defaultUnit (slot :: slots) argv (⟨slot.type, none⟩ :: args)

variable {argv : List Text} {t : Text} {c : Char} {rest : List Text} {a : Arg}

section
variable {E : Env} {defaultUnit units : Char} {slot : Slot}

/-! ## Intervals -/

theorem isUnit_of_unitOf (hu : isUnit defaultUnit = true) :
    isUnit ((unitOf t).getD defaultUnit) = true := by
  cases h : unitOf t with
  | none => exact hu
  | some c => exact (Option.filter_eq_some_iff.1 h).2

theorem mem_units (hu : isUnit units = true) :
    (units, unitSeconds units) ∈ [('S', 1), ('M', 60), ('H', 3600)] := by
  simp only [isUnit, Bool.or_eq_true, decide_eq_true_eq] at hu
  obtain (rfl | rfl) | rfl := hu <;> decide

theorem quantityInterval_ne_none (hu : isUnit units = true) (q : Text) (before : Bool) :
    quantityInterval E q units before ≠ none := by
  simp only [isUnit, Bool.or_eq_true, decide_eq_true_eq] at hu
  obtain (rfl | rfl) | rfl := hu <;> simp [quantityInterval, doubleToInterval]

theorem quantityInterval_whole (hE : E.Sound) (hu : isUnit units = true) {q : Text}
    (hw : isWhole q = true) (before : Bool) : ∃ p, quantityInterval E q units before = some p ∧
      intervalText p = secondsText before (digitsValue q * unitSeconds units) := by
  obtain ⟨hd, hlt⟩ : isDigits q = true ∧ digitsValue q < 2 ^ 31 := by simpa [isWhole] using hw
  generalize hn : digitsValue q = n at hlt
  have hq : (if before then -E.atof q else E.atof q) =
      ((if before then -(n : Int) else n : Int) : ℚ) := by
    rw [hE.atof q hd (hn ▸ hlt), hn]
    cases before <;> simp
  have habs : |((if before then -(n : Int) else n : Int) : ℚ)| = n := by cases before <;> simp
  have hlt' : (n : ℚ) < 2 ^ 31 := by exact_mod_cast hlt
  have hsign : decide ((if before then -(n : Int) else n : Int) < 0) =
      (before && n * unitSeconds units ≠ 0) := by
    have hpos : 0 < unitSeconds units := by
      rw [unitSeconds]
      split_ifs <;> omega
    cases before <;> simp [Nat.pos_iff_ne_zero, hpos.ne']
  refine ⟨_, ?_, rfl⟩
  simp only [quantityInterval, hq, doubleToInterval_eq _ habs (mem_units hu) rfl, habs,
    if_pos hlt', hsign]
  rfl

theorem not_readsInterval {before : Bool} (hq : isQuantity t = false) (hi : isInterval t = false)
    (u : Text) :
    ¬ ReadsInterval E defaultUnit before t u := by
  intro h
  cases h <;> simp_all

/-- The first argument is the interval, or none is read and all are left. -/
theorem validateBefAftInterval_spec (hE : E.Sound) (hu : isUnit defaultUnit = true) (before : Bool)
    (argv : List Text) :
    (∀ t, (validateBefAftInterval E defaultUnit before argv).2 = .ok t → ∃ arg,
      argv = arg :: (validateBefAftInterval E defaultUnit before argv).1 ∧
        ReadsInterval E defaultUnit before arg t) ∧
    ((validateBefAftInterval E defaultUnit before argv).2 = .error .badParam →
      (validateBefAftInterval E defaultUnit before argv).1 = argv ∧
        ∀ arg rest u, argv = arg :: rest → ¬ ReadsInterval E defaultUnit before arg u) := by
  cases argv with
  | nil => simp [validateBefAftInterval]
  | cons arg argv =>
    rw [validateBefAftInterval]
    have hunit := isUnit_of_unitOf (t := arg) hu
    split_ifs with hqu hin haf hneg
    · cases hp : quantityInterval E (quantityOf arg) ((unitOf arg).getD defaultUnit)
          (before ^^ isNegative arg) with
      | none => exact absurd hp (quantityInterval_ne_none hunit _ _)
      | some p =>
        refine ⟨?_, by simp⟩
        rintro _ ⟨⟩
        refine ⟨arg, rfl, ?_⟩
        cases hw : isWhole (quantityOf arg) with
        | false => exact .fraction hqu hw hp
        | true =>
          obtain ⟨p', hp', htext⟩ := quantityInterval_whole hE hunit hw (before ^^ isNegative arg)
          obtain rfl := Option.some.inj (hp.symm.trans hp')
          rw [htext]
          exact .whole hqu hw
    · refine ⟨?_, by simp⟩
      rintro _ ⟨⟩
      exact ⟨arg, rfl, .interval (by simpa using hqu) hin (by simpa using haf)⟩
    · refine ⟨?_, by simp⟩
      rintro _ ⟨⟩
      exact ⟨arg, rfl, .beforeNegative (by simpa using hqu) hin (by simpa using haf) hneg⟩
    · cases hco : E.strcpyNext (unsigned arg) with
      | none => simp
      | some u =>
        refine ⟨?_, by simp⟩
        rintro _ ⟨⟩
        exact ⟨arg, rfl, .before (by simpa using hqu) hin (by simpa using haf)
          (by simpa using hneg) hco⟩
    · refine ⟨by simp, fun _ => ⟨rfl, ?_⟩⟩
      rintro _ _ u ⟨⟩
      exact not_readsInterval (by simpa using hqu) (by simpa using hin) u

/-! ## The validation of a slot -/

/-- An accepted text is what is read; otherwise nothing can be read and all is left, or a list was
dropped. -/
structure Validates (E : Env) (defaultUnit : Char) (type : ArgType) (argv : List Text)
    (v : Validation) :
    Prop where
  ok : ∀ t, v.2 = .ok t → Reads E defaultUnit type argv (some t) v.1
  badParam : v.2 = .error .badParam → Reads E defaultUnit type argv none v.1 ∨
    v.1 = argv ∧ ∀ value rest, ¬ Reads E defaultUnit type argv value rest

variable {type : ArgType}

theorem validates_ok (h : Reads E defaultUnit type argv (some t) rest) :
    Validates E defaultUnit type argv (rest, .ok t) where
  ok := by
    rintro _ ⟨⟩
    exact h
  badParam := by
    rintro ⟨⟩

theorem validates_badParam (h : ∀ value rest, ¬ Reads E defaultUnit type argv value rest) :
    Validates E defaultUnit type argv (argv, .error .badParam) where
  ok := by
    rintro _ ⟨⟩
  badParam _ := .inr ⟨rfl, h⟩

theorem not_reads_nil (value : Option Text) (rest : List Text) :
    ¬ Reads E defaultUnit type [] value rest := by
  rintro ⟨⟩

/-- A type that takes one argument of a pattern. -/
theorem validateWith_validates {p : Text → Bool} (argv : List Text)
    (hp : ∀ arg rest, p arg = true → Reads E defaultUnit type (arg :: rest) (some arg) rest)
    (hn : ∀ arg argv value rest, p arg = false →
      ¬ Reads E defaultUnit type (arg :: argv) value rest) :
    Validates E defaultUnit type argv (validateWith p argv) := by
  cases argv with
  | nil => exact validates_badParam not_reads_nil
  | cons arg argv =>
    rw [validateWith]
    split_ifs with h
    · exact validates_ok (hp arg argv h)
    · exact validates_badParam fun value rest => hn arg argv value rest (by simpa using h)

theorem validateDate_validates (argv : List Text) :
    Validates E defaultUnit .date argv (validateDate argv) := by
  cases argv with
  | nil => exact validates_badParam not_reads_nil
  | cons arg argv =>
    rw [validateDate]
    split_ifs with hda hdat hti
    · exact validates_ok (.dateTime hda)
    · cases argv with
      | nil => exact validates_ok (.date hdat (by simp))
      | cons next rest =>
        rw [withTimeOfDay]
        split_ifs with hti
        · exact validates_ok (.dateAndTime hdat hti)
        · exact validates_ok (.date hdat (by simpa using hti))
    · exact ⟨by simp, by simp⟩
    · refine validates_badParam fun value rest h => ?_
      cases h <;> contradiction

theorem validateBefAft_validates (hE : E.Sound) (hu : isUnit defaultUnit = true)
    (argv : List Text) :
    Validates E defaultUnit .interval argv (validateBefAft E defaultUnit argv) := by
  cases argv with
  | nil => exact validates_badParam not_reads_nil
  | cons arg argv =>
    rw [validateBefAft]
    cases hk : befAft arg with
    | none =>
      obtain ⟨hok, hbad⟩ := validateBefAftInterval_spec hE hu false (arg :: argv)
      refine ⟨fun t ht => ?_, fun he => .inr ⟨(hbad he).1, ?_⟩⟩
      · obtain ⟨arg', heq, hr⟩ := hok t ht
        obtain ⟨rfl, hrest⟩ := cons.inj heq
        rw [← hrest]
        exact .interval hk hr
      · intro value rest h
        cases h with
        | interval _ h => exact (hbad he).2 _ _ _ rfl h
        | keyword hk' h => simp [hk] at hk'
    | some before =>
      obtain ⟨hok, hbad⟩ := validateBefAftInterval_spec hE hu before argv
      dsimp only
      split
      · rename_i rest hv
        rw [hv] at hbad
        obtain ⟨rfl, hno⟩ := hbad rfl
        rw [Nat.sub_self]
        refine validates_badParam fun value rest' h => ?_
        cases h with
        | interval hk' _ => simp [hk] at hk'
        | keyword hk' h =>
          obtain rfl := Option.some.inj (hk.symm.trans hk')
          exact hno _ _ _ rfl h
      · rename_i hne
        refine ⟨fun t ht => ?_, fun he => (hne _ (Prod.ext rfl he)).elim⟩
        obtain ⟨arg', heq, hr⟩ := hok t ht
        have hread :=
          @Reads.keyword E _ _ _ _ _ (validateBefAftInterval E defaultUnit before argv).1 hk hr
        rwa [← heq] at hread

theorem validateList_validates (argv : List Text) :
    Validates E defaultUnit .ocommaList argv (validateList E argv) := by
  cases argv with
  | nil => exact validates_badParam not_reads_nil
  | cons s argv =>
    cases s with
    | nil =>
      refine validates_badParam fun value rest h => ?_
      cases h <;> contradiction
    | cons c s =>
      have hne : c :: s ≠ [] := cons_ne_nil c s
      exact ⟨fun t ht => .list hne ht, fun he => .inl (.dropped hne he)⟩

theorem validate_validates (hE : E.Sound) (hu : isUnit defaultUnit = true) (type : ArgType)
    (argv : List Text) :
    Validates E defaultUnit type argv (validate E defaultUnit type argv) := by
  cases type with
  | date => exact validateDate_validates argv
  | float =>
    refine validateWith_validates argv (fun _ _ h => .float h) fun _ _ _ _ hp h => ?_
    cases h
    simp_all
  | integer =>
    refine validateWith_validates argv (fun _ _ h => .integer h) fun _ _ _ _ hp h => ?_
    cases h
    simp_all
  | interval => exact validateBefAft_validates hE hu argv
  | ocommaList => exact validateList_validates argv
  | string =>
    refine validateWith_validates argv (fun _ _ h => .string (by simpa using h)) fun _ _ _ _ hp h =>
      ?_
    cases h
    simp_all

/-! ## The list of arguments -/

/-- One slot, in front of those that are filled from what it leaves. -/
theorem argsSlot_fills (hE : E.Sound) (hu : isUnit defaultUnit = true) {slots : List Slot}
    {args : List Arg} (h : argsSlot E defaultUnit argv slot = .ok (rest, a))
    (hs : Fills E defaultUnit slots rest args) :
    Fills E defaultUnit (slot :: slots) argv (a :: args) := by
  rw [argsSlot] at h
  split_ifs at h with hnu
  · obtain ⟨a', hpo, heq⟩ := map_eq_ok h
    obtain ⟨rfl, rfl⟩ := Prod.mk.inj heq
    simp only [argsPostVal, hnu, if_true, Except.ok.injEq] at hpo
    rw [← hpo]
    exact .null hnu hs
  · have hnu : slot.null = false := by simpa using hnu
    obtain ⟨hok, hbad⟩ := validate_validates hE hu slot.type argv
    obtain ⟨a', hpo, heq⟩ := map_eq_ok h
    obtain ⟨rfl, rfl⟩ := Prod.mk.inj heq
    cases hv : (validate E defaultUnit slot.type argv).2 with
    | ok t =>
      simp only [hv, argsPostVal, hnu, Bool.false_eq_true, if_false, Except.ok.injEq] at hpo
      rw [← hpo]
      exact .given hnu (hok t hv) (by simp) hs
    | error e =>
      rw [hv] at hpo
      cases e with
      | badParam =>
        rw [argsPostVal] at hpo
        split_ifs at hpo with ho
        obtain rfl := Except.ok.inj hpo
        obtain hr | ⟨heq, hno⟩ := hbad hv
        · exact .given hnu hr (fun _ => ho) hs
        · rw [heq] at hs
          exact .omitted hnu ho hno hs
      | error | undefined => cases hpo

theorem mapAccumM_fills (hE : E.Sound) (hu : isUnit defaultUnit = true) {slots : List Slot}
    {args : List Arg} (h : Lists.mapAccumM (argsSlot E defaultUnit) argv slots = .ok (rest, args)) :
    Fills E defaultUnit slots argv args := by
  induction slots generalizing argv args with
  | nil =>
    cases h
    exact .nil _
  | cons slot slots ih =>
    obtain ⟨⟨rest', a⟩, hsl, h⟩ := exists_of_bind_ok h
    obtain ⟨⟨rest'', args'⟩, hre, h⟩ := exists_of_bind_ok h
    cases h
    exact argsSlot_fills hE hu hsl (ih hre)

theorem isUnit_intervalDflt (f : QueryFunc) : isUnit (queryCmd f).intervalDflt = true := by
  cases f <;> rfl

theorem argsList_fills (hE : E.Sound) {f : QueryFunc} {args : List Arg}
    (h : argsList E f argv = .ok args) :
    Fills E (queryCmd f).intervalDflt (queryCmd f).args argv args := by
  obtain ⟨⟨rest, args'⟩, hpa, rfl⟩ := map_eq_ok h
  exact mapAccumM_fills hE (isUnit_intervalDflt f) hpa

end

theorem notMem_of_fits {ps : List (Char → Bool)} (h : fits ps t = true)
    (hps : ∀ p ∈ ps, p c = false) : c ∉ t := by
  induction ps generalizing t with
  | nil =>
    cases t with
    | nil => exact not_mem_nil
    | cons d t => cases h
  | cons p ps ih =>
    obtain ⟨hp, hps⟩ := forall_mem_cons.mp hps
    cases t with
    | nil => cases h
    | cons d t =>
      obtain ⟨hd, ht⟩ : p d = true ∧ fits ps t = true := by simpa [fits] using h
      rw [mem_cons, not_or]
      refine ⟨?_, ih ht hps⟩
      rintro rfl
      rw [hp] at hd
      cases hd

theorem mem_unsigned (h : c ∈ t) : c = '+' ∨ c = '-' ∨ c ∈ unsigned t := by
  rw [unsigned.eq_def]
  split
  · exact (mem_cons.mp h).imp_right .inr
  · exact .inr (mem_cons.mp h)
  · exact .inr (.inr h)

theorem mem_of_mem_unsigned (h : c ∈ unsigned t) : c ∈ t := by
  rw [unsigned.eq_def] at h
  split at h
  · exact mem_cons_of_mem _ h
  · exact mem_cons_of_mem _ h
  · exact h

theorem isWord_of_unsigned (hne : unsigned t ≠ [])
    (h : ∀ c ∈ unsigned t, c.isDigit = true ∨ c = '.') : IsWord t := by
  refine ⟨?_, ?_⟩
  · rintro rfl
    exact hne rfl
  · intro c hc
    obtain rfl | rfl | hc := mem_unsigned hc
    · rfl
    · rfl
    · obtain hdi | rfl := h c hc
      · exact isWord_of_isDigit hdi
      · rfl

theorem isDigits_iff : isDigits t = true ↔ t ≠ [] ∧ ∀ c ∈ t, c.isDigit = true := by
  simp [isDigits]

theorem chars_of_isDecimal (h : isDecimal t = true) :
    t ≠ [] ∧ ∀ c ∈ t, c.isDigit = true ∨ c = '.' := by
  rw [isDecimal] at h
  split at h
  · next hdr =>
    have hall : ∀ c ∈ t, c.isDigit = true := dropWhile_eq_nil_iff.mp hdr
    exact ⟨by simpa using h, fun c hc => .inl (hall c hc)⟩
  · next fraction hdr =>
    have ht : t = t.takeWhile Char.isDigit ++ '.' :: fraction := by
      rw [← hdr, takeWhile_append_dropWhile]
    refine ⟨by rw [ht]; simp, ?_⟩
    intro c hc
    rw [ht, mem_append, mem_cons] at hc
    obtain hc | rfl | hc := hc
    · exact .inl (mem_takeWhile_imp hc)
    · exact .inr rfl
    · exact .inl ((isDigits_iff.mp h).2 c hc)
  · cases h

theorem notMem_of_isInterval (h : isInterval t = true) : '\'' ∉ t := by
  obtain ⟨-, hf⟩ := Bool.and_eq_true_iff.mp h
  intro hc
  obtain hc | hc | hc := mem_unsigned hc
  · cases hc
  · cases hc
  · rw [← takeWhile_append_dropWhile (p := Char.isDigit) (l := unsigned t), mem_append] at hc
    obtain hc | hc := hc
    · have hdi := mem_takeWhile_imp hc
      cases hdi
    · exact notMem_of_fits hf (by decide) hc

theorem notMem_show2 (n : Int) : '\'' ∉ show2 n := by
  rw [show2]
  split_ifs
  · exact notMem_showInt rfl n
  · intro hc
    have hdi := isDigit_of_mem_pad hc
    cases hdi

theorem notMem_intervalText (p : Bool × Int × Int × Int) : '\'' ∉ intervalText p := by
  have hsi : '\'' ∉ if p.1 then ['-'] else [] := by split_ifs <;> simp
  simp [intervalText, hsi, notMem_show2]


section
variable {E : Env} {defaultUnit : Char}

theorem ReadsInterval.plain (hE : E.Sound) {before : Bool} {u : Text}
    (h : ReadsInterval E defaultUnit before t u) : '\'' ∉ u := by
  cases h with
  | whole | fraction => exact notMem_intervalText _
  | interval hq h => exact notMem_of_isInterval h
  | beforeNegative hq h => exact fun hc => notMem_of_isInterval h (mem_of_mem_unsigned hc)
  | @before u hq h hb hn hu =>
    have hu' : '\'' ∉ u :=
      fun hc => notMem_of_isInterval h (mem_of_mem_unsigned (hE.strcpyNext _ u hu _ hc))
    simp [hu']

theorem Reads.plain (hE : E.Sound) {type : ArgType}
    (h : Reads E defaultUnit type argv (some t) rest) :
    Arg.Plain ⟨type, some t⟩ := by
  cases h with
  | dateTime h => exact notMem_of_fits h (by decide)
  | @date d _ h =>
    have hda : '\'' ∉ d := notMem_of_fits h (by decide)
    change '\'' ∉ d ++ " 00:00:00".toList
    rw [mem_append, not_or]
    exact ⟨hda, by decide⟩
  | @dateAndTime d t _ h h' =>
    have hda : '\'' ∉ d := notMem_of_fits h (by decide)
    have hti : '\'' ∉ t := notMem_of_fits h' (by decide)
    change '\'' ∉ d ++ ' ' :: t
    simp [hda, hti]
  | float h => exact isWord_of_unsigned (chars_of_isDecimal h).1 (chars_of_isDecimal h).2
  | integer h =>
    obtain ⟨hne, hdi⟩ := isDigits_iff.mp h
    exact isWord_of_unsigned hne fun c hc => .inl (hdi c hc)
  | interval hk h | keyword hk h => exact h.plain hE
  | list h ht | string h => exact trivial

theorem plain_none (type : ArgType) : Arg.Plain ⟨type, none⟩ := by
  cases type <;> exact trivial

theorem Fills.plain (hE : E.Sound) {slots : List Slot} {args : List Arg}
    (h : Fills E defaultUnit slots argv args) : ∀ a ∈ args, a.Plain := by
  induction h with
  | nil => simp
  | null _ _ ih | omitted _ _ _ _ ih => exact forall_mem_cons.2 ⟨plain_none _, ih⟩
  | @given _ _ _ _ _ value _ hr _ _ ih =>
    refine forall_mem_cons.2 ⟨?_, ih⟩
    cases value with
    | none => exact plain_none _
    | some t => exact hr.plain hE

end

theorem isWord_sqlFuncName (f : QueryFunc) : IsWord (queryCmd f).sqlFuncName := by
  cases f <;> decide +kernel

/-- Whole numbers are read, other doubles are 0; the library copies the text as it is, and lists
are not expanded. -/
def plainEnv : Env where
  atof t := if isDigits t then digitsValue t else 0
  beyond _ _ := (0, 0, 0)
  strcpyNext t := some t
  expand t := .ok t

end Sensys.Octl
