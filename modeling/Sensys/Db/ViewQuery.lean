import Sensys.Db.SqlText
/-!
# Queries of views (`orcm/mca/db/base/db_base_utils.c:130-263`)

| here | there |
| --- | --- |
| `FilterValue` | the `opal_value_t` of a filter |
| `Op`, `Op.text` | `orcm_db_comparison_op_t` (`orcm/mca/db/db.h:51-63`), `op_strings` |
| `Filter` | `orcm_db_filter_t` |
| `getOpalValueAsSqlString` | `get_opal_value_as_sql_string` |
| `addWhereClauses`, `buildQueryFromViewNameAndFilters` | `:215-263` |

A real number is given by what `%f` prints of it, and a time by what `timeval_to_iso8601` makes of
it. Keys are not `NULL`, and a value of an unsupported type is printed as `(null)`.
-/
namespace Sensys.Db
open Orte Quoting Text List

inductive FilterValue where
  | string (s : Text)
  | integer (type : IntType) (n : Int)
  | float (shown : Text)
  | double (shown : Text)
  | timeval (iso : Text)
  | time (iso : Text)
  | other (type : Nat)
deriving DecidableEq, Repr

def FilterValue.type : FilterValue → Nat
  | .string _ => 3
  | .integer t _ => t.code
  | .float _ => 16
  | .double _ => 17
  | .timeval _ => 18
  | .time _ => 19
  | .other t => t

inductive Op where
  | none
  | lt
  | gt
  | eq
  | ne
  | le
  | ge
  | contains
  | startsWith
  | endsWith
  | in
deriving DecidableEq, Repr

def Op.text : Op → Text
  | .none => []
  | .lt => " < ".toList
  | .gt => " > ".toList
  | .eq => " = ".toList
  | .ne => " <> ".toList
  | .le => " <= ".toList
  | .ge => " >= ".toList
  | .contains => " like ".toList
  | .startsWith => " like ".toList
  | .endsWith => " like ".toList
  | .in => " in ".toList

structure Filter where
  key   : Text
  value : FilterValue
  op    : Op
deriving DecidableEq, Repr

/-- `%d` and `%ld` read their argument as a signed number of so many bits. -/
def printSigned (bits : Nat) (n : Int) : Text := showInt (n.bmod (2 ^ bits))

def getOpalValueAsSqlString : FilterValue → Option Text
  | .string s => some s
  | .integer (.fixed .int) n => some (printSigned 32 n)
  | .integer (.fixed .int8) n => some (printSigned 32 n)
  | .integer (.fixed .int16) n => some (printSigned 32 n)
  | .integer (.fixed .int32) n => some (printSigned 32 n)
  | .integer (.fixed .int64) n => some (printSigned 64 n)
  | .integer (.fixed .uint) n => some (printSigned 32 n)
  | .integer (.fixed .uint8) n => some (printSigned 32 n)
  | .integer (.fixed .uint16) n => some (printSigned 32 n)
  | .integer (.fixed .uint32) n => some (printSigned 32 n)
  | .integer (.fixed .uint64) n => some (printSigned 64 n)
  | .integer .bool _ => none
  | .integer .size _ => none
  | .integer .pid _ => none
  | .float x => some x
  | .double x => some x
  | .timeval t => some t
  | .time t => some t
  | .other _ => none

/-- The text before the value. -/
def clauseHead (firstClause : Bool) (key : Text) (op : Op) : Text :=
  (if firstClause then " where ".toList else " and ".toList) ++ key ++ op.text

/-- The value between its delimiters. -/
def Filter.operand (x : Filter) : Text :=
  (if x.op = .in then '(' else '\'') :: (getOpalValueAsSqlString x.value).getD nullText ++
    [if x.op = .in then ')' else '\'']

/-- The query, and whether the next clause is the first one. -/
def addWhereClauses (q : Text × Bool) (x : Filter) : Option (Text × Bool) :=
  if x.op = .none then none else some (q.1 ++ clauseHead q.2 x.key x.op ++ x.operand, false)

def buildQueryFromViewNameAndFilters (viewName : Option Text) (filters : Option (List Filter)) :
    Option Text :=
  match viewName with
  | none => none
  | some [] => none
  | some view =>
    match filters with
    | none => some ("select * from ".toList ++ view ++ ";".toList)
    | some [] => some ("select * from ".toList ++ view ++ ";".toList)
    | some (x :: xs) =>
      ((x :: xs).foldlM addWhereClauses ("select * from ".toList ++ view, true)).map fun q =>
        q.1 ++ " LIMIT 10000;".toList

/-- The numbers of a type. -/
def IntType.Holds : IntType → Int → Prop
  | .bool, n => 0 ≤ n ∧ n < 2
  | .size, n => 0 ≤ n ∧ n < 2 ^ 64
  | .pid, n => -2 ^ 31 ≤ n ∧ n < 2 ^ 31
  | .fixed type, n => type.Holds n

/-- Integers are in the range of their type, and the texts are such as the library prints. -/
def FilterValue.Valid : FilterValue → Prop
  | .string _ => True
  | .integer t n => t.Holds n
  | .float x => IsWord x
  | .double x => IsWord x
  | .timeval t => '\'' ∉ t
  | .time t => '\'' ∉ t
  | .other _ => True

/-! ## Reading a query -/

/-- A literal of a query: in quotes, or a bare number. -/
inductive Literal where
  | quoted (s : Text)
  | bare (w : Text)
deriving DecidableEq, Repr

/-- A string or a time is not a literal without quotes. -/
def Literal.Denotes : Literal → FilterValue → Prop
  | .quoted t, .string s => t = s
  | .quoted t, .integer _ n => t = showInt n
  | .quoted t, .float x => t = x
  | .quoted t, .double x => t = x
  | .quoted t, .timeval iso => t = iso
  | .quoted t, .time iso => t = iso
  | .bare w, .integer _ n => w = showInt n
  | .bare w, .float x => w = x
  | .bare w, .double x => w = x
  | _, _ => False

/-- The literal of a clause, and what is behind it. -/
def readOperand (op : Op) : Text → Option (Literal × Text)
  | [] => none
  | c :: t =>
    if op = .in then
      if c = '(' ∧ ')' ∈ t then some (.bare (t.takeWhile (· ≠ ')')), (t.dropWhile (· ≠ ')')).tail)
      else none
    else if c = '\'' then (readLiteral '\'' t).map fun p => (.quoted p.1, p.2)
    else none

def dropText (p t : Text) : Option Text := if p.isPrefixOf t then some (t.drop p.length) else none

/-- The literals of the clauses with these keys and operators, and what is behind them. -/
def readClauses : Bool → List (Text × Op) → Text → Option (List Literal × Text)
  | _, [], t => some ([], t)
  | firstClause, (key, op) :: shape, t => do
    let t ← dropText (clauseHead firstClause key op) t
    let (l, t) ← readOperand op t
    let (ls, t) ← readClauses false shape t
    pure (l :: ls, t)

/-- What is behind the clauses. -/
def queryEnd (shape : List (Text × Op)) : Text :=
  if shape = [] then ";".toList else " LIMIT 10000;".toList

/-- A query of the view with clauses of these keys and operators, and nothing else. -/
def readQuery (view : Text) (shape : List (Text × Op)) (t : Text) : Option (List Literal) := do
  let t ← dropText ("select * from ".toList ++ view) t
  let (ls, t) ← readClauses true shape t
  if t = queryEnd shape then pure ls else none

def Filter.clause (x : Filter) : Text × Op := (x.key, x.op)

/-- Both texts are queries of the view with the clauses of the filters, and the literals in them
denote the values. -/
def DifferInLiterals (view : Text) (f : List Filter) (query : Text) (g : List Filter)
    (query' : Text) : Prop :=
  (∃ ls, readQuery view (f.map Filter.clause) query = some ls ∧
    List.Forall₂ Literal.Denotes ls (f.map Filter.value)) ∧
  ∃ ls, readQuery view (f.map Filter.clause) query' = some ls ∧
  List.Forall₂ Literal.Denotes ls (g.map Filter.value)

theorem showInt_inj {m n : Int} : showInt m = showInt n ↔ m = n := by
  have hdi {k l : Nat} (h : Nat.toDigits 10 k = Nat.toDigits 10 l) : k = l := by
    rw [← digitsValue_toDigits k, h, digitsValue_toDigits]
  have hsi (k l : Nat) : '-' :: Nat.toDigits 10 k ≠ Nat.toDigits 10 l := by
    intro h
    have hm := (IsNumber.toDigits l).2 '-' (h ▸ mem_cons_self)
    cases hm
  refine ⟨?_, congrArg showInt⟩
  intro h
  simp only [showInt] at h
  split_ifs at h
  · have := hdi (List.cons.inj h).2
    omega
  · exact absurd h (hsi _ _)
  · exact absurd h.symm (hsi _ _)
  · have := hdi h
    omega

/-- The conversion with which a number is printed. -/
def IntType.bits : IntType → Option Nat
  | .bool | .size | .pid => none
  | .fixed .int64 | .fixed .uint64 => some 64
  | .fixed _ => some 32

theorem getOpalValueAsSqlString_integer (t : IntType) (n : Int) :
    getOpalValueAsSqlString (.integer t n) = t.bits.map fun bits => printSigned bits n := by
  rcases t with _ | _ | _ | type
  case fixed => cases type <;> rfl
  all_goals rfl

/-- The type is supported, and an unsigned number is one of the signed type of its width. -/
def IntType.Printable : IntType → Int → Prop
  | .bool, _ => False
  | .size, _ => False
  | .pid, _ => False
  | .fixed .uint, n => n < 2 ^ 31
  | .fixed .uint32, n => n < 2 ^ 31
  | .fixed .uint64, n => n < 2 ^ 63
  | .fixed _, _ => True

variable {t : IntType} {n : Int}

theorem printable_iff (h : t.Holds n) :
    t.Printable n ↔ ∃ bits, t.bits = some bits ∧ n.bmod (2 ^ bits) = n := by
  rcases t with _ | _ | _ | type
  case fixed =>
    cases type <;>
      simp [IntType.Holds, Opal.IntType.Holds, Opal.IntType.bounds, IntType.Printable, IntType.bits,
        Int.bmod] at h ⊢ <;>
      split <;> omega
  all_goals simp [IntType.Printable, IntType.bits]

def Filter.printed (x : Filter) : Text := (getOpalValueAsSqlString x.value).getD nullText

def Filter.literal (x : Filter) : Literal :=
  if x.op = .in then .bare x.printed else .quoted x.printed

/-- Strings have no quotes, and they and times are not in the list of an `in`. -/
def Filter.Safe (x : Filter) : Prop :=
  match x.value with
  | .string s => x.op ≠ .in ∧ '\'' ∉ s
  | .integer t n => t.Printable n
  | .float _ => True
  | .double _ => True
  | .timeval _ => x.op ≠ .in
  | .time _ => x.op ≠ .in
  | .other _ => False

section
variable {x : Filter} {rest : Text}

theorem readOperand_quoted (hop : x.op ≠ .in) :
    readOperand x.op (x.operand ++ rest) = (readLiteral '\'' (x.printed ++ '\'' :: rest)).map
      fun p => (.quoted p.1, p.2) := by
  simp [readOperand, Filter.operand, Filter.printed, hop]

theorem readOperand_bare (hop : x.op = .in) :
    readOperand x.op (x.operand ++ rest) =
      some (.bare ((x.printed ++ ')' :: rest).takeWhile (· ≠ ')')),
      ((x.printed ++ ')' :: rest).dropWhile (· ≠ ')')).tail) := by
  simp [readOperand, Filter.operand, Filter.printed, hop]

theorem readOperand_operand (hqu : x.op ≠ .in → '\'' ∉ x.printed)
    (hcl : x.op = .in → ')' ∉ x.printed) (hre : rest.head? ≠ some '\'') :
    readOperand x.op (x.operand ++ rest) = some (x.literal, rest) := by
  by_cases hop : x.op = .in
  · have hpa := decide_ne_of_notMem (hcl hop)
    rw [readOperand_bare hop, takeWhile_append_cons hpa (by decide),
      dropWhile_append_cons hpa (by decide), Filter.literal, if_pos hop]
    rfl
  · rw [readOperand_quoted hop, (readLiteral_eq_self_iff hre).mpr ⟨hqu hop, rfl⟩,
      Filter.literal, if_neg hop]
    rfl

variable {l : Literal} {r : Text}

theorem exists_bare_of_readOperand (hop : x.op = .in)
    (h : readOperand x.op (x.operand ++ rest) = some (l, r)) :
    l = .bare ((x.printed ++ ')' :: rest).takeWhile (· ≠ ')')) := by
  rw [readOperand_bare hop] at h
  exact (Prod.mk.inj (Option.some.inj h)).1.symm

theorem exists_quoted_of_readOperand (hop : x.op ≠ .in)
    (h : readOperand x.op (x.operand ++ rest) = some (l, r)) :
    ∃ s, readLiteral '\'' (x.printed ++ '\'' :: rest) = some (s, r) ∧ l = .quoted s := by
  rw [readOperand_quoted hop] at h
  obtain ⟨⟨s, r'⟩, hre, hl⟩ := Option.map_eq_some_iff.mp h
  obtain ⟨rfl, rfl⟩ := Prod.mk.inj hl
  exact ⟨s, hre, rfl⟩

theorem printed_integer (hx : x.value = .integer t n) :
    x.printed = (t.bits.map fun bits => printSigned bits n).getD nullText := by
  rw [Filter.printed, hx, getOpalValueAsSqlString_integer]

/-- What is printed ends where the delimiter of the operand stands, and denotes the value. -/
def Filter.Readable (x : Filter) : Prop :=
  ((x.op ≠ .in → '\'' ∉ x.printed) ∧ (x.op = .in → ')' ∉ x.printed)) ∧ x.literal.Denotes x.value

theorem Filter.readable_of_word {w : Text} (hp : x.printed = w) (hw : IsWord w)
    (hqu : (Literal.quoted w).Denotes x.value) (hba : (Literal.bare w).Denotes x.value) :
    x.Readable := by
  have hnot (c : Char) (hc : sql.isWord c = false) : c ∉ x.printed := by
    intro h
    rw [hw.2 c (hp ▸ h)] at hc
    cases hc
  refine ⟨⟨fun _ => hnot '\'' rfl, fun _ => hnot ')' rfl⟩, ?_⟩
  rw [Filter.literal, hp]
  split_ifs
  · exact hba
  · exact hqu

theorem Filter.readable_of_quoted {s : Text} (hop : x.op ≠ .in) (hp : x.printed = s) (hs : '\'' ∉ s)
    (hqu : (Literal.quoted s).Denotes x.value) : x.Readable := by
  refine ⟨⟨fun _ => hp ▸ hs, fun h => absurd h hop⟩, ?_⟩
  rw [Filter.literal, if_neg hop, hp]
  exact hqu

theorem Filter.Safe.readable (hv : x.value.Valid) (h : x.Safe) : x.Readable := by
  obtain ⟨key, value, op⟩ := x
  cases value with
  | string s => exact readable_of_quoted h.1 rfl h.2 rfl
  | integer t n =>
    obtain ⟨bits, hbi, hn⟩ := (printable_iff hv).mp h
    have hp : Filter.printed ⟨key, .integer t n, op⟩ = showInt n := by
      rw [printed_integer rfl, hbi, Option.map_some, Option.getD_some, printSigned, hn]
    exact readable_of_word hp (isWord_showInt n) rfl rfl
  | float y | double y => exact readable_of_word rfl hv rfl rfl
  | timeval t | time t => exact readable_of_quoted h rfl hv rfl
  | other t => exact h.elim

/-- An integer is read as it is printed, which is not as a number if its type is not supported. -/
theorem printable_of_readOperand (hx : x.value = .integer t n) (ht : t.Holds n)
    (hre : rest.head? ≠ some '\'') (h : readOperand x.op (x.operand ++ rest) = some (l, r))
    (hl : l.Denotes x.value) :
    t.Printable n := by
  rw [hx] at hl
  cases hbi : t.bits with
  | none =>
    have hp : x.printed = nullText := by rw [printed_integer hx, hbi]; rfl
    have hpa : '(' ∈ showInt n := by
      by_cases hop : x.op = .in
      · obtain rfl := exists_bare_of_readOperand hop h
        rw [hp] at hl
        exact hl ▸ mem_cons_self
      · obtain ⟨s, hrea, rfl⟩ := exists_quoted_of_readOperand hop h
        rw [hp, (readLiteral_eq_self_iff hre).mpr ⟨by decide, rfl⟩] at hrea
        obtain ⟨rfl, -⟩ := Prod.mk.inj (Option.some.inj hrea)
        exact hl ▸ mem_cons_self
    exact absurd hpa (notMem_showInt rfl n)
  | some bits =>
    have hp : x.printed = showInt (n.bmod (2 ^ bits)) := by rw [printed_integer hx, hbi]; rfl
    have hrea : readOperand x.op (x.operand ++ rest) = some (x.literal, rest) :=
      readOperand_operand (fun _ => hp ▸ notMem_showInt rfl _)
        (fun _ => hp ▸ notMem_showInt rfl _) hre
    obtain ⟨rfl, -⟩ := Prod.mk.inj (Option.some.inj (hrea.symm.trans h))
    have hn : showInt (n.bmod (2 ^ bits)) = showInt n := by
      rw [Filter.literal, hp] at hl
      split_ifs at hl <;> exact hl
    exact (printable_iff ht).mpr ⟨bits, hbi, showInt_inj.mp hn⟩

theorem Filter.Safe.of_readOperand (hv : x.value.Valid) (hre : rest.head? ≠ some '\'')
    (h : readOperand x.op (x.operand ++ rest) = some (l, r)) (hl : l.Denotes x.value) : x.Safe := by
  obtain ⟨key, value, op⟩ := x
  have hba (hop : op = .in) (hnot : ∀ w, ¬(Literal.bare w).Denotes value) : False := by
    obtain rfl := exists_bare_of_readOperand hop h
    exact hnot _ hl
  cases value with
  | string s =>
    have hop : op ≠ .in := fun hop => hba hop fun _ hw => hw
    obtain ⟨t, hrea, rfl⟩ := exists_quoted_of_readOperand hop h
    obtain rfl : t = s := hl
    exact ⟨hop, ((readLiteral_eq_self_iff hre).mp hrea).1⟩
  | integer t n => exact printable_of_readOperand rfl hv hre h hl
  | float y | double y => exact trivial
  | timeval t | time t => exact fun hop => hba hop fun _ hw => hw
  | other t =>
    cases l with
    | quoted s | bare w => exact hl

end

def clausesText : Bool → List Filter → Text
  | _, [] => []
  | firstClause, x :: xs => clauseHead firstClause x.key x.op ++ (x.operand ++ clausesText false xs)

variable {f : List Filter} {view query : Text} {rest : Text}

theorem foldlM_addWhereClauses {q r : Text × Bool} (h : f.foldlM addWhereClauses q = some r) :
    r.1 = q.1 ++ clausesText q.2 f := by
  induction f generalizing q with
  | nil =>
    obtain rfl : q = r := Option.some.inj h
    simp [clausesText]
  | cons x f ih =>
    obtain ⟨q', hq', h⟩ := Option.bind_eq_some_iff.mp h
    rw [addWhereClauses] at hq'
    split_ifs at hq'
    obtain rfl := Option.some.inj hq'
    rw [ih h, clausesText]
    simp

theorem buildQuery_eq_some
    (h : buildQueryFromViewNameAndFilters (some view) (some f) = some query) :
    query = "select * from ".toList ++ view ++
      (clausesText true f ++ queryEnd (f.map Filter.clause)) := by
  cases view with
  | nil => cases h
  | cons c view =>
    cases f with
    | nil =>
      obtain rfl := Option.some.inj h
      rfl
    | cons x f =>
      obtain ⟨q, hq, rfl⟩ := Option.map_eq_some_iff.mp h
      rw [foldlM_addWhereClauses hq, append_assoc]
      rfl

theorem dropText_append (p t : Text) : dropText p (p ++ t) = some t := by
  rw [dropText, if_pos ( isPrefixOf_iff_prefix.mpr (prefix_append p t)), drop_left]

theorem head?_clausesText (h : rest.head? ≠ some '\'') (f : List Filter) :
    (clausesText false f ++ rest).head? ≠ some '\'' := by
  cases f with
  | nil => exact h
  | cons x f => simp [clausesText, clauseHead]

theorem readClauses_cons (firstClause : Bool) (x : Filter) (f : List Filter) (rest : Text) :
    readClauses firstClause ((x :: f).map Filter.clause)
      (clausesText firstClause (x :: f) ++ rest) =
      (readOperand x.op (x.operand ++ (clausesText false f ++ rest))).bind fun p =>
        (readClauses false (f.map Filter.clause) p.2).map fun r => (p.1 :: r.1, r.2) := by
  rw [map_cons, Filter.clause, readClauses, clausesText, append_assoc, append_assoc,
    dropText_append]
  simp [Option.map_eq_bind, Function.comp_def]

theorem readClauses_iff (hv : ∀ x ∈ f, x.value.Valid) (hre : rest.head? ≠ some '\'')
    (firstClause : Bool) :
    (∃ ls, readClauses firstClause (f.map Filter.clause) (clausesText firstClause f ++ rest) =
      some (ls, rest) ∧
      List.Forall₂ Literal.Denotes ls (f.map Filter.value)) ↔ ∀ x ∈ f, x.Safe := by
  induction f generalizing firstClause with
  | nil => simp [readClauses, clausesText]
  | cons x f ih =>
    obtain ⟨hx, hf⟩ := forall_mem_cons.mp hv
    have hh := head?_clausesText hre f
    have hrea (h : x.Safe) : readOperand x.op (x.operand ++ (clausesText false f ++ rest)) =
        some (x.literal, clausesText false f ++ rest) :=
      readOperand_operand (h.readable hx).1.1 (h.readable hx).1.2 hh
    rw [forall_mem_cons, ← ih hf false]
    constructor
    · rintro ⟨ls, h, hls⟩
      rw [readClauses_cons] at h
      obtain ⟨⟨l, r⟩, hop, h⟩ := Option.bind_eq_some_iff.mp h
      obtain ⟨⟨ls', r'⟩, hcl, h⟩ := Option.map_eq_some_iff.mp h
      obtain ⟨rfl, rfl⟩ := Prod.mk.inj h
      rw [map_cons, forall₂_cons] at hls
      -- the literal that was read denotes the value, so the next clause is read from where it begins
      have hsa := Filter.Safe.of_readOperand hx hh hop hls.1
      obtain ⟨rfl, rfl⟩ := Prod.mk.inj (Option.some.inj ((hrea hsa).symm.trans hop))
      exact ⟨hsa, ls', hcl, hls.2⟩
    · rintro ⟨hsa, ls, hcl, hls⟩
      refine ⟨x.literal :: ls, ?_, forall₂_cons.mpr ⟨(hsa.readable hx).2, hls⟩⟩
      rw [readClauses_cons, hrea hsa, Option.bind_some, hcl]
      rfl

theorem readQuery_iff (hv : ∀ x ∈ f, x.value.Valid)
    (h : buildQueryFromViewNameAndFilters (some view) (some f) = some query) :
    (∃ ls, readQuery view (f.map Filter.clause) query = some ls ∧
      List.Forall₂ Literal.Denotes ls (f.map Filter.value)) ↔
      ∀ x ∈ f, x.Safe := by
  have hend : (queryEnd (f.map Filter.clause)).head? ≠ some '\'' := by
    rw [queryEnd]
    split_ifs <;> decide
  rw [← readClauses_iff hv hend true, buildQuery_eq_some h, readQuery, dropText_append]
  change (∃ ls, (readClauses true (f.map Filter.clause)
    (clausesText true f ++ queryEnd (f.map Filter.clause))).bind
    (fun p => if p.2 = queryEnd (f.map Filter.clause) then some p.1 else none) = some ls ∧ _) ↔ _
  cases hre : readClauses true (f.map Filter.clause)
    (clausesText true f ++ queryEnd (f.map Filter.clause)) with
  | none => simp
  | some p =>
    obtain ⟨ls, t⟩ := p
    by_cases ht : t = queryEnd (f.map Filter.clause) <;> simp [ht]

/-- Queries of the same view with the same keys, operators and types of values. -/
theorem buildQuery_differInLiterals {view query query' : Text} {f g : List Filter}
    (hf : ∀ x ∈ f, x.value.Valid) (hg : ∀ x ∈ g, x.value.Valid)
    (hshape : f.map (fun x => (x.key, x.op, x.value.type)) = g.map fun x =>
      (x.key, x.op, x.value.type))
    (hquery : buildQueryFromViewNameAndFilters (some view) (some f) = some query)
    (hquery' : buildQueryFromViewNameAndFilters (some view) (some g) = some query') :
    DifferInLiterals view f query g query' ↔ (∀ x ∈ f, x.Safe) ∧ ∀ x ∈ g, x.Safe := by
  have hcl : f.map Filter.clause = g.map Filter.clause := by
    have hk := congrArg (List.map fun s => (s.1, s.2.1)) hshape
    rwa [map_map, map_map] at hk
  rw [DifferInLiterals, readQuery_iff hf hquery, hcl, readQuery_iff hg hquery']

def events (node : Text) (id : Int) : List Filter :=
  [⟨"node".toList, .string node, .eq⟩, ⟨"id".toList, .integer (.fixed .uint) id, .in⟩]

theorem events_differInLiterals :
    DifferInLiterals "event".toList
      (events "n1".toList 3)
        "select * from event where node = 'n1' and id in (3) LIMIT 10000;".toList
      (events "n25".toList 40)
        "select * from event where node = 'n25' and id in (40) LIMIT 10000;".toList := by
  refine (buildQuery_differInLiterals ?_ ?_ (by rfl) (by decide +kernel) (by decide +kernel)).mpr ?_
  · simp [events, FilterValue.Valid, IntType.Holds, Opal.IntType.Holds, Opal.IntType.bounds]
  · simp [events, FilterValue.Valid, IntType.Holds, Opal.IntType.Holds, Opal.IntType.bounds]
  · constructor <;> simp [events, Filter.Safe, IntType.Printable]

/-- A string that adds a condition. -/
theorem events_addCondition :
    buildQueryFromViewNameAndFilters (some "event".toList)
      (some (events "n1' or 'a' = 'a".toList 3)) =
      some "select * from event where node = 'n1' or 'a' = 'a' and id in (3) LIMIT 10000;".toList ∧
    buildQueryFromViewNameAndFilters (some "event".toList) (some (events "n1".toList 3)) =
      some "select * from event where node = 'n1' and id in (3) LIMIT 10000;".toList ∧
    ¬DifferInLiterals "event".toList
      (events "n1' or 'a' = 'a".toList 3)
      "select * from event where node = 'n1' or 'a' = 'a' and id in (3) LIMIT 10000;".toList
      (events "n1".toList 3)
        "select * from event where node = 'n1' and id in (3) LIMIT 10000;".toList := by
  refine ⟨by decide +kernel, by decide +kernel, ?_⟩
  rintro ⟨⟨ls, hre, -⟩, -⟩
  exact absurd (Option.isSome_iff_exists.2 ⟨ls, hre⟩) (by decide +kernel)

/-- An unsigned number is printed as a negative one. -/
example : buildQueryFromViewNameAndFilters (some "event".toList)
  (some (events "n1".toList 4294967295)) =
    some "select * from event where node = 'n1' and id in (-1) LIMIT 10000;".toList := by
    decide +kernel

end Sensys.Db
