import Sensys.Db.SqlText
/-!
# Queries of functions (`orcm/mca/db/postgres/db_postgres.c:2676-2768`)

| here | there |
| --- | --- |
| `ArgType` | `orcm_db_qry_arg_types` (`orcm/mca/db/db.h:65-75`), without its flags |
| `Arg` | the `opal_value_t` of an argument: its type, and its string or `NULL` |
| `formatStringToSql` | `format_string_to_sql` |
| `buildArgumentString` | `build_argument_string`, which leaves `NULL` if there are no arguments |
| `buildQueryFromFunctionNameAndArguments` | `:2756-2768` |
-/
namespace Sensys.Db
open Orte Opal Quoting List

inductive ArgType where
  | date
  | float
  | integer
  | interval
  | ocommaList
  | string
deriving DecidableEq, Repr

structure Arg where
  type  : ArgType
  value : Option Text
deriving DecidableEq, Repr

def formatStringToSql : ArgType → Option Text → Text
  | .date, none => quoted "INFINITY".toList ++ "::TIMESTAMP".toList
  | .date, some t => quoted t ++ "::TIMESTAMP".toList
  | .float, none => null ++ "::DOUBLE".toList
  | .float, some t => t ++ "::DOUBLE".toList
  | .integer, none => null ++ "::INT".toList
  | .integer, some t => t ++ "::INT".toList
  | .interval, none => "NULL::INTERVAL".toList
  | .interval, some t => quoted t ++ "::INTERVAL".toList
  | .ocommaList, none => null
  | .ocommaList, some t => quoted (escapeString t)
  | .string, none => null
  | .string, some t => quoted (escapeString t)

def buildArgumentString : List Arg → Option Text
  | [] => none
  | a :: args => some (argvJoin ',' ((a :: args).map fun a => formatStringToSql a.type a.value))

def buildQueryFromFunctionNameAndArguments (functionName : Text) (arguments : List Arg) :
    Option Text :=
  if functionName = [] then none
  else some ("select * from ".toList ++ functionName ++ "(".toList ++
    (buildArgumentString arguments).getD nullText ++ ");".toList)

def castTokens (t : Token Char) (type : String) : List (Token Char) :=
  [t, .mark ':', .mark ':', .word type.toList]

/-- One literal with its type. -/
def Arg.tokens : Arg → List (Token Char)
  | ⟨.date, v⟩ => castTokens (.literal (v.getD "INFINITY".toList)) "TIMESTAMP"
  | ⟨.float, v⟩ => castTokens (.word (v.getD null)) "DOUBLE"
  | ⟨.integer, v⟩ => castTokens (.word (v.getD null)) "INT"
  | ⟨.interval, v⟩ => castTokens (v.elim (.word null) .literal) "INTERVAL"
  | ⟨.ocommaList, v⟩ => [v.elim (.word null) .literal]
  | ⟨.string, v⟩ => [v.elim (.word null) .literal]

def callTokens (functionName : Text) (args : List Arg) : List (Token Char) :=
  [.word "select".toList, .word "*".toList, .word "from".toList, .word functionName] ++
    inParentheses Token.mark (args.map Arg.tokens) ++ [.mark ';']

/-- The text is a call of the function with these arguments, and nothing else. -/
def IsCall (text : Text) (functionName : Text) (args : List Arg) : Prop :=
  tokens sql text = some (callTokens functionName args)
deriving Decidable

/-! ## Its pieces -/

def castPieces (p : Piece Char) (type : String) : List (Piece Char) :=
  [p, .mark ':', .mark ':', .word type.toList]

def Arg.pieces : Arg → List (Piece Char)
  | ⟨.date, v⟩ => castPieces (.raw (v.getD "INFINITY".toList)) "TIMESTAMP"
  | ⟨.float, v⟩ => castPieces (.word (v.getD null)) "DOUBLE"
  | ⟨.integer, v⟩ => castPieces (.word (v.getD null)) "INT"
  | ⟨.interval, v⟩ => castPieces (v.elim (.word null) .raw) "INTERVAL"
  | ⟨.ocommaList, v⟩ => [v.elim (.word null) .escaped]
  | ⟨.string, v⟩ => [v.elim (.word null) .escaped]

/-- What is not escaped has no quotes, and numbers are words. -/
def Arg.Plain : Arg → Prop
  | ⟨.date, some t⟩ => '\'' ∉ t
  | ⟨.interval, some t⟩ => '\'' ∉ t
  | ⟨.float, some t⟩ => IsWord t
  | ⟨.integer, some t⟩ => IsWord t
  | _ => True

theorem castPieces_text (p : Piece Char) (type : String) :
    (castPieces p type).flatMap (Piece.text sql) = p.text sql ++ ':' :: ':' :: type.toList := by
  simp [castPieces]

theorem Arg.pieces_text (a : Arg) :
    a.pieces.flatMap (Piece.text sql) = formatStringToSql a.type a.value := by
  have hca (p : Piece Char) {type : String} {t : Text} (h : ':' :: ':' :: type.toList = t) :
      (castPieces p type).flatMap (Piece.text sql) = p.text sql ++ t := by rw [castPieces_text, h]
  have hes (t : Text) : [Piece.escaped t].flatMap (Piece.text sql) = quoted (escapeString t) := by
    rw [flatMap_singleton, text_escaped]
  obtain ⟨type, value⟩ := a
  cases type with
  | date => cases value <;> exact hca (.raw _) (by decide +kernel)
  | float | integer => cases value <;> exact hca (.word _) (by decide +kernel)
  | interval =>
    cases value with
    | none => exact (hca (.word null) rfl).trans (by decide +kernel)
    | some t => exact hca (.raw t) (by decide +kernel)
  | ocommaList | string =>
    cases value with
    | none => rfl
    | some t => exact hes t

theorem Arg.pieces_tokens (a : Arg) : a.pieces.flatMap Piece.tokens = a.tokens := by
  obtain ⟨type, value⟩ := a
  cases type <;> cases value <;> rfl

theorem Arg.pieces_isChain (a : Arg) : a.pieces.IsChain Piece.Apart := by
  obtain ⟨type, value⟩ := a
  cases type <;> cases value <;>
    simp [Arg.pieces, castPieces, Piece.Apart, Piece.isLiteral, Piece.isWord]

theorem castPieces_wellFormed {p : Piece Char} (hp : p.WellFormed sql) {type : String}
    (htype : IsWord type.toList) :
    ∀ p' ∈ castPieces p type, p'.WellFormed sql := by
  intro p' hp'
  obtain rfl | rfl | rfl : p' = p ∨ p' = .mark ':' ∨ p' = .word type.toList := by
    simpa [castPieces] using hp'
  exacts [hp, rfl, htype]

theorem Arg.Plain.wellFormed {a : Arg} (h : a.Plain) : ∀ p ∈ a.pieces, p.WellFormed sql := by
  have hnu : IsWord null := by decide
  have hsi {p : Piece Char} (hp : p.WellFormed sql) : ∀ p' ∈ [p], p'.WellFormed sql := by
    simpa using hp
  obtain ⟨type, value⟩ := a
  cases type with
  | date => exact @castPieces_wellFormed (.raw _) trivial _ (by decide +kernel)
  | float | integer =>
    cases value <;> exact castPieces_wellFormed (by assumption) (by decide +kernel)
  | interval =>
    cases value with
    | none => exact castPieces_wellFormed hnu (by decide +kernel)
    | some t => exact @castPieces_wellFormed (.raw t) trivial _ (by decide +kernel)
  | ocommaList | string =>
    cases value with
    | none => exact hsi hnu
    | some t => exact hsi trivial

theorem Arg.Plain.clean {a : Arg} (h : a.Plain) : ∀ p ∈ a.pieces, p.Clean sql := by
  obtain ⟨type, value⟩ := a
  cases type <;> cases value <;> simp_all [Arg.pieces, castPieces, Piece.Clean, Arg.Plain, sql]

def selectFrom : List (Piece Char) :=
  [.word "select".toList, .blank ' ', .word "*".toList, .blank ' ', .word "from".toList, .blank ' ']

def callHeader (functionName : Text) : List (Piece Char) := selectFrom ++ [.word functionName]

def callPieces (functionName : Text) (args : List Arg) : List (Piece Char) :=
  callHeader functionName ++ (inParentheses Piece.mark (args.map Arg.pieces) ++ [.mark ';'])

variable (functionName : Text) {args : List Arg}

theorem callHeader_text :
    (callHeader functionName).flatMap (Piece.text sql) = "select * from ".toList ++
      functionName := by
  have hse : selectFrom.flatMap (Piece.text sql) = "select * from ".toList := by decide +kernel
  rw [callHeader, flatMap_append, hse, flatMap_singleton, text_word]

theorem callPieces_text {functionName text : Text} (hne : args ≠ [])
    (h : buildQueryFromFunctionNameAndArguments functionName args = some text) :
    (callPieces functionName args).flatMap (Piece.text sql) = text := by
  obtain ⟨a, args, rfl⟩ := exists_cons_of_ne_nil hne
  have har : (inParentheses Piece.mark ((a :: args).map Arg.pieces)).flatMap (Piece.text sql) =
      row ((a :: args).map fun a => formatStringToSql a.type a.value) := by
    rw [@flatMap_inParentheses _ _ _ id _ fun _ => rfl, row_eq, map_map]
    simp only [Function.comp_def, Arg.pieces_text]
  rw [buildQueryFromFunctionNameAndArguments] at h
  split_ifs at h
  obtain rfl := Option.some.inj h
  rw [callPieces, flatMap_append, flatMap_append, callHeader_text, har]
  simp [row, buildArgumentString]

theorem callPieces_tokens (args : List Arg) :
    (callPieces functionName args).flatMap Piece.tokens = callTokens functionName args := by
  have har : (inParentheses Piece.mark (args.map Arg.pieces)).flatMap Piece.tokens =
      inParentheses Token.mark (args.map Arg.tokens) := by
    rw [@flatMap_inParentheses _ _ _ Token.mark _ fun _ => rfl, map_map]
    simp only [Function.comp_def, Arg.pieces_tokens]
  rw [callPieces, flatMap_append, flatMap_append, har]
  rfl

theorem callPieces_isChain (args : List Arg) :
    (callPieces functionName args).IsChain Piece.Apart := by
  have hh : (callHeader functionName).IsChain Piece.Apart := by
    simp [callHeader, selectFrom, Piece.Apart, Piece.isLiteral, Piece.isWord]
  have har : ([Piece.mark ','].intercalate (args.map Arg.pieces)).IsChain Piece.Apart := by
    apply isChain_intercalate
    simpa using fun a _ => a.pieces_isChain
  have hca :=
    isChain_append_mark '(' hh (isChain_append_mark ')' har (isChain_singleton (.mark ';')))
  simpa [callPieces, inParentheses] using hca

theorem forall_mem_callPieces {P : Piece Char → Prop} {functionName : Text}
    (hh : ∀ p ∈ callHeader functionName, P p) (hm : ∀ c ∈ ['(', ',', ')', ';'], P (.mark c))
    (har : ∀ a ∈ args, ∀ p ∈ a.pieces, P p) : ∀ p ∈ callPieces functionName args, P p := by
  have hl : ∀ p ∈ inParentheses Piece.mark (args.map Arg.pieces), P p := by
    have hm' : ∀ c ∈ ['(', ',', ')'], P (.mark c) := by
      intro c hc
      exact hm c (mem_append_left [';'] hc)
    rw [forall_mem_inParentheses hm', forall_mem_map]
    exact har
  rw [callPieces, forall_mem_append, forall_mem_append]
  exact ⟨hh, hl, by simpa using hm ';' (by simp)⟩

/-- Arguments that are plain are the arguments of the call, each in its place. -/
theorem isCall_of_plain {functionName text : Text} (hname : IsWord functionName) (hne : args ≠ [])
    (har : ∀ a ∈ args, a.Plain)
    (h : buildQueryFromFunctionNameAndArguments functionName args = some text) :
    IsCall text functionName args := by
  have hwf : ∀ p ∈ callPieces functionName args, p.WellFormed sql := by
    apply forall_mem_callPieces
    · rw [callHeader, forall_mem_append]
      exact ⟨by decide +kernel, forall_mem_singleton.mpr hname⟩
    · decide
    · exact fun a ha => (har a ha).wellFormed
  have hcl : ∀ p ∈ callPieces functionName args, p.Clean sql := by
    apply forall_mem_callPieces
    · simp [callHeader, selectFrom, Piece.Clean]
    · simp [Piece.Clean]
    · exact fun a ha => (har a ha).clean
  rw [IsCall, ← callPieces_text hne h, ← callPieces_tokens]
  exact (tokens_text hwf (callPieces_isChain functionName args)).mpr hcl

end Sensys.Db
