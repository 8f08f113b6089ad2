import Sensys.Db.Postgres
import Sensys.Db.SqlText
/-!
# The text of the sample store, read as a statement

The text of `dataSampleInsert` is put together of pieces, of which only the value of an item is
escaped. It is the statement that is meant if, and only if, nothing that is pasted as it is has a
quote in it, and there is at least one item (`VALUES` without a row is no statement; the store
counts the items of the event as samples).
-/
namespace Sensys.Db
open Orte Opal Quoting Results List

structure SampleRow where
  hostname  : Text
  dataItem  : Text
  timeStamp : Text
  value     : DbItem
  units     : Option Text
  type      : Nat
  eventId   : Int
deriving DecidableEq, Repr

/-- `value_int`, `value_real` and `value_str`. -/
def DbItem.tokens : DbItem → List (Token Char)
  | .string s => [.word null, .word null, .literal s]
  | .real x => [.word null, .word x, .word null]
  | .integer n => [.word (showInt n), .word null, .word null]

def SampleRow.tokens (r : SampleRow) : List (Token Char) :=
  [.literal r.hostname, .literal r.dataItem, .literal r.timeStamp] ++ r.value.tokens ++
    [r.units.elim (.word null) .literal, .word (Nat.toDigits 10 r.type),
    .word (Nat.toDigits 10 r.type), .word (showInt r.eventId)]

def columnNames : List Text :=
  ["hostname".toList, "data_item".toList, "time_stamp".toList, "value_int".toList,
    "value_real".toList, "value_str".toList, "units".toList, "data_type_id".toList,
    "app_value_type_id".toList, "event_id".toList]

def tokenList (ts : List (Token Char)) : List (Token Char) :=
  inParentheses Token.mark (ts.map ([·]))

def insertTokens (rows : List SampleRow) : List (Token Char) :=
  [.word "INSERT".toList, .word "INTO".toList, .word "data_sample_raw".toList] ++
    tokenList (columnNames.map .word) ++
    .word "VALUES".toList :: [.mark ','].intercalate (rows.map fun r => tokenList r.tokens)

/-- The text is one statement, which inserts the rows. -/
def InsertsRows (text : Text) (rows : List SampleRow) : Prop :=
  rows ≠ [] ∧ tokens sql text = some (insertTokens rows)
deriving Decidable

/-- The row of an item. -/
def sampleRowOf (sample : DataSample) (eventId : Int) (mv : OrcmValue) : Except Rc SampleRow := do
  let dataItem ← require mv.key
  let item ← dbItem mv.value
  pure ⟨sample.hostname, sample.dataGroup ++ '_' :: dataItem, sample.timeStamp, item, mv.units,
    mv.value.type, eventId⟩

def DbItem.pieces : DbItem → List (Piece Char)
  | .string s => [.word null, .word null, .escaped s]
  | .real x => [.word null, .word x, .word null]
  | .integer n => [.word (showInt n), .word null, .word null]

def SampleRow.pieces (r : SampleRow) : List (Piece Char) :=
  [.raw r.hostname, .raw r.dataItem, .raw r.timeStamp] ++ r.value.pieces ++
    [r.units.elim (.word null) .raw, .word (Nat.toDigits 10 r.type), .word (Nat.toDigits 10 r.type),
    .word (showInt r.eventId)]

def pieceList (ps : List (Piece Char)) : List (Piece Char) :=
  inParentheses Piece.mark (ps.map ([·]))

def insertHeader : List (Piece Char) :=
  [.word "INSERT".toList, .blank ' ', .word "INTO".toList, .blank ' ',
    .word "data_sample_raw".toList] ++
    pieceList (columnNames.map .word) ++ [.blank ' ', .word "VALUES".toList, .blank ' ']

def insertPieces (rows : List SampleRow) : List (Piece Char) :=
  insertHeader ++ [.mark ','].intercalate (rows.map fun r => pieceList r.pieces)

def SampleRow.text (r : SampleRow) : Text := row (r.pieces.map (Piece.text sql))

theorem flatMap_pieceList_text (ps : List (Piece Char)) :
    (pieceList ps).flatMap (Piece.text sql) = row (ps.map (Piece.text sql)) := by
  rw [pieceList, @flatMap_inParentheses _ _ _ id _ fun _ => rfl, row_eq]
  simp [Function.comp_def]

theorem DbItem.columns_eq (item : DbItem) : item.columns = item.pieces.map (Piece.text sql) := by
  cases item <;> simp [DbItem.columns, DbItem.pieces]

theorem SampleRow.text_eq (r : SampleRow) :
    r.text = row ([quoted r.hostname, quoted r.dataItem, quoted r.timeStamp] ++ r.value.columns ++
      [(r.units.map quoted).getD null] ++
      [Nat.toDigits 10 r.type, Nat.toDigits 10 r.type, showInt r.eventId]) := by
  rw [SampleRow.text, DbItem.columns_eq]
  cases hun : r.units <;> simp [SampleRow.pieces, hun]

theorem dataSampleRowOf_eq (sample : DataSample) (eventId : Int) (mv : OrcmValue) :
    dataSampleRowOf sample eventId mv = (sampleRowOf sample eventId mv).map SampleRow.text := by
  rw [dataSampleRowOf, sampleRowOf]
  cases require mv.key with
  | error rc => rfl
  | ok key =>
    cases dbItem mv.value with
    | error rc => rfl
    | ok item =>
      change Except.ok _ = Except.ok (SampleRow.text _)
      rw [SampleRow.text_eq]
      rfl

theorem insertHeader_text : insertHeader.flatMap (Piece.text sql) =
    ("INSERT INTO data_sample_raw(" ++ "hostname," ++ "data_item," ++ "time_stamp," ++
    "value_int," ++ "value_real," ++
      "value_str," ++ "units," ++ "data_type_id," ++ "app_value_type_id," ++ "event_id) " ++
      "VALUES ").toList := by
  decide +kernel

variable (rows : List SampleRow) {r : SampleRow}

theorem insertPieces_text :
    (insertPieces rows).flatMap (Piece.text sql) = dataSampleText (rows.map SampleRow.text) := by
  have hro : ([Piece.mark ','].intercalate (rows.map fun r => pieceList r.pieces)).flatMap
    (Piece.text sql) =
      argvJoin ',' (rows.map SampleRow.text) := by
    have hrow (r : SampleRow) : (pieceList r.pieces).flatMap (Piece.text sql) = r.text :=
      flatMap_pieceList_text r.pieces
    simp only [flatMap_intercalate, map_map, Function.comp_def, hrow, flatMap_singleton,
      text_mark, argvJoin]
  rw [insertPieces, flatMap_append, hro]
  exact congrArg (· ++ argvJoin ',' (rows.map SampleRow.text)) insertHeader_text

theorem insertPieces_tokens : (insertPieces rows).flatMap Piece.tokens = insertTokens rows := by
  have hl (ps : List (Piece Char)) (ts : List (Token Char))
    (h : ps.map Piece.tokens = ts.map ([·])) :
      (pieceList ps).flatMap Piece.tokens = tokenList ts := by
    rw [pieceList, @flatMap_inParentheses _ _ _ Token.mark _ fun _ => rfl, tokenList, ← h]
    simp [Function.comp_def]
  have hrow (r : SampleRow) : (pieceList r.pieces).flatMap Piece.tokens = tokenList r.tokens := by
    apply hl
    cases hun : r.units <;> cases hv : r.value <;>
      simp [SampleRow.pieces, SampleRow.tokens, hun, hv, DbItem.pieces, DbItem.tokens, Piece.tokens]
  rw [insertPieces, flatMap_append, flatMap_intercalate, map_map]
  simp only [Function.comp_def, hrow]
  rfl

theorem insertPieces_isChain : (insertPieces rows).IsChain Piece.Apart := by
  have hrow (r : SampleRow) : (pieceList r.pieces).IsChain Piece.Apart := by
    apply isChain_inParentheses
    simp
  have hro :
      ([Piece.mark ','].intercalate (rows.map fun r => pieceList r.pieces)).IsChain
      Piece.Apart := by
    apply isChain_intercalate
    simpa using fun r _ => hrow r
  rw [insertPieces, isChain_append]
  refine ⟨by decide, hro, ?_⟩
  intro p hp p' _
  -- there is a blank behind `VALUES`
  have hlast : insertHeader.getLast? = some (.blank ' ') := by decide
  obtain rfl : Piece.blank ' ' = p := by simpa [hlast] using hp
  simp [Piece.Apart, Piece.isLiteral, Piece.isWord]

theorem forall_mem_insertPieces {P : Piece Char → Prop} (hh : ∀ p ∈ insertHeader, P p)
    (hm : ∀ c ∈ ['(', ',', ')'], P (.mark c)) (rows : List SampleRow) :
    (∀ p ∈ insertPieces rows, P p) ↔ ∀ r ∈ rows, ∀ p ∈ r.pieces, P p := by
  have hco : ∀ p ∈ [Piece.mark ','], P p := by simpa using hm ',' (by simp)
  rw [insertPieces, forall_mem_append, and_iff_right hh, forall_mem_intercalate hco, forall_mem_map]
  simp only [pieceList, forall_mem_inParentheses hm, forall_mem_map, forall_mem_singleton]

/-- What `%f` prints is a word. -/
def SampleRow.Printed (r : SampleRow) : Prop := ∀ x, r.value = .real x → IsWord x

/-- What is pasted as it is has no quotes. -/
def SampleRow.Unquoted (r : SampleRow) : Prop :=
  '\'' ∉ r.hostname ∧ '\'' ∉ r.dataItem ∧ '\'' ∉ r.timeStamp ∧ ∀ u ∈ r.units, '\'' ∉ u

theorem SampleRow.wellFormed (h : r.Printed) : ∀ p ∈ r.pieces, p.WellFormed sql := by
  have hnu : IsWord null := by decide
  have hva : ∀ p ∈ r.value.pieces, p.WellFormed sql := by
    cases hv : r.value with
    | string s =>
      intro p hp
      obtain rfl | rfl | rfl : p = .word null ∨ p = .word null ∨ p = .escaped s := by
        simpa [DbItem.pieces] using hp
      exacts [hnu, hnu, trivial]
    | real x =>
      intro p hp
      obtain rfl | rfl | rfl : p = .word null ∨ p = .word x ∨ p = .word null := by
        simpa [DbItem.pieces] using hp
      exacts [hnu, h x hv, hnu]
    | integer n =>
      intro p hp
      obtain rfl | rfl | rfl : p = .word (showInt n) ∨ p = .word null ∨ p = .word null := by
        simpa [DbItem.pieces] using hp
      exacts [isWord_showInt n, hnu, hnu]
  have hun : (r.units.elim (.word null) .raw : Piece Char).WellFormed sql := by
    cases r.units with
    | none => exact hnu
    | some u => exact trivial
  rw [SampleRow.pieces, forall_mem_append, forall_mem_append]
  refine ⟨⟨by simp [Piece.WellFormed], hva⟩, ?_⟩
  simpa using ⟨hun, isWord_toDigits r.type, isWord_showInt r.eventId⟩

theorem SampleRow.clean_iff (r : SampleRow) : (∀ p ∈ r.pieces, p.Clean sql) ↔ r.Unquoted := by
  cases hun : r.units <;> cases hv : r.value <;>
    simp [SampleRow.pieces, SampleRow.Unquoted, hun, hv, DbItem.pieces, Piece.Clean, sql]

theorem insertsRows_iff {rows : List SampleRow} (h : ∀ r ∈ rows, r.Printed) :
    InsertsRows (dataSampleText (rows.map SampleRow.text)) rows ↔
      rows ≠ [] ∧ ∀ r ∈ rows, r.Unquoted := by
  have hwf : ∀ p ∈ insertPieces rows, p.WellFormed sql :=
    (forall_mem_insertPieces (by decide) (by decide) rows).mpr fun r hr =>
      SampleRow.wellFormed (h r hr)
  rw [InsertsRows, ← insertPieces_text, ← insertPieces_tokens,
    tokens_text hwf (insertPieces_isChain rows),
    forall_mem_insertPieces (by decide) (by simp [Piece.Clean])]
  simp only [SampleRow.clean_iff]

/-! ## The statement of an input -/

def dataItems (input : List OrcmValue) : List OrcmValue :=
  unprocessed (dataSampleKeys ++ eventKeys) input

/-- The text is one statement with the rows of the items. -/
def Faithful (input : List OrcmValue) (sample : DataSample) (eventId : Int) (text : Text) : Prop :=
  ∃ rows, (dataItems input).mapM (sampleRowOf sample eventId) = .ok rows ∧ InsertsRows text rows

/-- What the library prints: a real number is a word, a time has no quotes. -/
def Value.Printed : Value → Prop
  | .float x => IsWord x
  | .double x => IsWord x
  | .timeval stamp => ∀ s ∈ stamp, '\'' ∉ s
  | .time stamp => ∀ s ∈ stamp, '\'' ∉ s
  | _ => True

instance : DecidablePred Value.Printed := fun v => by
  cases v <;> dsimp only [Value.Printed] <;> infer_instance

def OrcmValue.Unquoted (mv : OrcmValue) : Prop :=
  (∀ k ∈ mv.key, '\'' ∉ k) ∧ ∀ u ∈ mv.units, '\'' ∉ u

/-- There are items, and the texts have no quotes, except for the values of items. Of a time that
is a string the buffer holds 39 characters. -/
structure Unquoted (input : List OrcmValue) : Prop where
  nonempty  : dataItems input ≠ []
  dataGroup : ∀ s, findItem input "data_group".toList = some (.string s) → '\'' ∉ s
  ctime     : ∀ s, findItem input "ctime".toList = some (.string s) → '\'' ∉ s.take 39
  hostname  : ∀ s, findItem input "hostname".toList = some (.string s) → '\'' ∉ s
  item      : ∀ mv ∈ dataItems input, mv.Unquoted

section
variable {input : List OrcmValue} {sample : DataSample} {eventId : Int} {v : Value} {mv : OrcmValue}

theorem require_eq_ok {α : Type} {x : Option α} {a : α} (h : require x = .ok a) : x = some a := by
  cases x with
  | none => cases h
  | some b => exact congrArg some (Except.ok.inj h)

theorem stringValue_eq_ok {s : Text} (h : stringValue v = .ok s) : v = .string s := by
  cases v with
  | string t => exact congrArg Value.string (Except.ok.inj h)
  | _ => cases h

theorem dataSampleParams_eq_ok (h : dataSampleParams input = .ok sample) :
    findItem input "data_group".toList = some (.string sample.dataGroup) ∧
    (∃ v, findItem input "ctime".toList = some v ∧ stampValue v = .ok sample.timeStamp) ∧
    findItem input "hostname".toList = some (.string sample.hostname) := by
  obtain ⟨dataGroup, hg, h⟩ := exists_of_bind_ok h
  obtain ⟨ctime, hct, h⟩ := exists_of_bind_ok h
  obtain ⟨hostname, hhost, h⟩ := exists_of_bind_ok h
  obtain ⟨group, hg', h⟩ := exists_of_bind_ok h
  obtain ⟨stamp, hst, h⟩ := exists_of_bind_ok h
  obtain ⟨host, hhost', h⟩ := exists_of_bind_ok h
  rw [require_eq_ok hg, require_eq_ok hhost, require_eq_ok hct, stringValue_eq_ok hg',
    stringValue_eq_ok hhost']
  split at h
  · cases h
  · cases h
    exact ⟨rfl, ⟨ctime, rfl, hst⟩, rfl⟩

theorem exists_mem_of_findItem {key : Text} (h : findItem input key = some v) :
    ∃ mv ∈ input, mv.value = v := by
  obtain ⟨mv, hf, rfl⟩ := Option.map_eq_some_iff.mp h
  have hmem : mv ∈ input.takeWhile OrcmValue.hasKey := mem_reverse.mp (mem_of_find?_eq_some hf)
  exact ⟨mv, (takeWhile_sublist _).mem hmem, rfl⟩

theorem mem_of_mem_dataItems (h : mv ∈ dataItems input) : mv ∈ input := by
  obtain h | h := mem_append.mp h
  · exact (takeWhile_sublist _).mem (mem_of_mem_filter h)
  · exact (dropWhile_sublist _).mem h

/-- The time stamp has no quotes if it was printed, and else it is part of the string. -/
theorem notMem_timeStamp_iff {stamp : Text} (hpr : v.Printed) (h : stampValue v = .ok stamp) :
    '\'' ∉ stamp ↔ ∀ s, v = .string s → '\'' ∉ s.take 39 := by
  cases v with
  | string t =>
    obtain rfl : t.take 39 = stamp := Except.ok.inj h
    simp
  | timeval t | time t =>
    obtain rfl := require_eq_ok h
    simpa using hpr stamp rfl
  | _ => cases h

theorem sampleRowOf_eq_ok (h : sampleRowOf sample eventId mv = .ok r) :
    ∃ key item, mv.key = some key ∧ opalValueToOrcmDbItem mv.value = some item ∧
      r = ⟨sample.hostname, sample.dataGroup ++ '_' :: key, sample.timeStamp, item, mv.units,
      mv.value.type, eventId⟩ := by
  obtain ⟨key, hkey, h⟩ := exists_of_bind_ok h
  obtain ⟨item, hit, h⟩ := exists_of_bind_ok h
  rw [dbItem] at hit
  split at hit
  · cases hit
    exact ⟨key, _, require_eq_ok hkey, ‹_›, (Except.ok.inj h).symm⟩
  · cases hit

theorem isWord_of_real {x : Text} (hpr : v.Printed) (h : opalValueToOrcmDbItem v = some (.real x)) :
    IsWord x := by
  cases v with
  | float y | double y =>
    obtain rfl : y = x := by simpa [opalValueToOrcmDbItem] using h
    exact hpr
  | _ => simp [opalValueToOrcmDbItem] at h

theorem dataSampleInsert_eq (input : List OrcmValue) (sample : DataSample) (eventId : Int) :
    dataSampleInsert input sample eventId =
      ((dataItems input).mapM (sampleRowOf sample eventId)).map fun rows =>
      dataSampleText (rows.map SampleRow.text) := by
  have hro : (dataItems input).mapM (dataSampleRowOf sample eventId) =
      ((dataItems input).mapM (sampleRowOf sample eventId)).map (List.map SampleRow.text) := by
    rw [← mapM_map_ok, funext (dataSampleRowOf_eq sample eventId)]
  change ((dataItems input).mapM (dataSampleRowOf sample eventId) >>= fun rows =>
    pure (dataSampleText rows)) = _
  rw [hro]
  cases (dataItems input).mapM (sampleRowOf sample eventId) with
  | error rc => rfl
  | ok rows => rfl

theorem SampleRow.unquoted_iff (h : sampleRowOf sample eventId mv = .ok r) :
    r.Unquoted ↔
      ('\'' ∉ sample.hostname ∧ '\'' ∉ sample.dataGroup ∧ '\'' ∉ sample.timeStamp) ∧
      mv.Unquoted := by
  obtain ⟨key, item, hkey, -, rfl⟩ := sampleRowOf_eq_ok h
  have hit : '\'' ∉ sample.dataGroup ++ '_' :: key ↔ '\'' ∉ sample.dataGroup ∧ '\'' ∉ key := by simp
  have hk : (∀ k ∈ mv.key, '\'' ∉ k) ↔ '\'' ∉ key := by simp [hkey]
  rw [SampleRow.Unquoted, OrcmValue.Unquoted, hit, hk]
  constructor
  · rintro ⟨hhost, ⟨hg, hkey⟩, hst, hun⟩
    exact ⟨⟨hhost, hg, hst⟩, hkey, hun⟩
  · rintro ⟨⟨hhost, hg, hst⟩, hkey, hun⟩
    exact ⟨hhost, ⟨hg, hkey⟩, hst, hun⟩

/-- The text is the statement that is meant just if what is pasted as it is has no quotes. -/
theorem dataSampleInsert_faithful {text : Text} (hprinted : ∀ mv ∈ input, mv.value.Printed)
    (hsample : dataSampleParams input = .ok sample)
    (htext : dataSampleInsert input sample eventId = .ok text) :
    Faithful input sample eventId text ↔ Unquoted input := by
  obtain ⟨hg, ⟨ctime, hct, hst⟩, hhost⟩ := dataSampleParams_eq_ok hsample
  rw [dataSampleInsert_eq] at htext
  obtain ⟨rows, hro, rfl⟩ := map_eq_ok htext
  have hre : ∀ r ∈ rows, r.Printed := by
    intro r hr x hx
    obtain ⟨mv, hmv, hrow⟩ := exists_of_mem_mapM hro hr
    obtain ⟨key, item, -, hit, rfl⟩ := sampleRowOf_eq_ok hrow
    obtain rfl : item = .real x := hx
    exact isWord_of_real (hprinted mv (mem_of_mem_dataItems hmv)) hit
  have hf : Faithful input sample eventId (dataSampleText (rows.map SampleRow.text)) ↔
      rows ≠ [] ∧ ∀ r ∈ rows, r.Unquoted := by
    rw [← insertsRows_iff hre, Faithful, hro]
    simp
  rw [hf]
  have hpr : ctime.Printed := by
    obtain ⟨mv, hmv, rfl⟩ := exists_mem_of_findItem hct
    exact hprinted mv hmv
  have hti := notMem_timeStamp_iff hpr hst
  constructor
  · rintro ⟨hne, hun⟩
    obtain ⟨r, hr⟩ := exists_mem_of_ne_nil rows hne
    obtain ⟨mv, hmv, hrow⟩ := exists_of_mem_mapM hro hr
    obtain ⟨hhost', hg', hst'⟩ := ((SampleRow.unquoted_iff hrow).mp (hun r hr)).1
    exact {
      nonempty := ne_nil_of_mem hmv
      dataGroup := by
        rw [hg]
        simpa using hg'
      ctime := by
        rw [hct]
        simpa using hti.mp hst'
      hostname := by
        rw [hhost]
        simpa using hhost'
      item := by
        intro mv hmv
        obtain ⟨r, hr, hrow⟩ := exists_ok_of_mapM hro hmv
        exact ((SampleRow.unquoted_iff hrow).mp (hun r hr)).2 }
  · intro h
    refine ⟨?_, ?_⟩
    · obtain ⟨mv, hmv⟩ := exists_mem_of_ne_nil _ h.nonempty
      obtain ⟨r, hr, -⟩ := exists_ok_of_mapM hro hmv
      exact ne_nil_of_mem hr
    · intro r hr
      obtain ⟨mv, hmv, hrow⟩ := exists_of_mem_mapM hro hr
      have hst' := hti.mpr fun s hs => h.ctime s (by rw [hct, hs])
      exact (SampleRow.unquoted_iff hrow).mpr ⟨⟨h.hostname _ hhost, h.dataGroup _ hg, hst'⟩,
        h.item mv hmv⟩

end

/-- A value with a quote, which is escaped. -/
def quotedValue : List OrcmValue :=
  [⟨some "data_group".toList, .string "syslog".toList, none⟩,
    ⟨some "ctime".toList, .timeval (some "2016-01-01".toList), none⟩,
    ⟨some "hostname".toList, .string "n1".toList, none⟩,
    ⟨some "message".toList, .string "it's".toList, some "text".toList⟩]

theorem quotedValue_faithful :
    ∃ text, dataSampleInsert quotedValue ⟨"syslog".toList, "2016-01-01".toList, "n1".toList⟩ 5 =
      .ok text ∧
      (Faithful quotedValue ⟨"syslog".toList, "2016-01-01".toList, "n1".toList⟩ 5 text ↔
      Unquoted quotedValue) := by
  exact ⟨_, rfl, dataSampleInsert_faithful (by decide +kernel) (by decide +kernel) rfl⟩

/-- A unit that closes its row and begins another one. -/
def forgedUnits : Text := "W',6,6,5),('n2','g_power','2016-01-01',0,NULL,NULL,'W".toList

def forgedRow : List OrcmValue :=
  [⟨some "data_group".toList, .string "g".toList, none⟩,
    ⟨some "ctime".toList, .timeval (some "2016-01-01".toList), none⟩,
    ⟨some "hostname".toList, .string "n1".toList, none⟩,
    ⟨some "power".toList, .integer (.fixed .int) 1, some forgedUnits⟩]

/-- The one item becomes two rows. -/
theorem forgedRow_inserted :
    ∃ text, dataSampleParams forgedRow = .ok ⟨"g".toList, "2016-01-01".toList, "n1".toList⟩ ∧
      dataSampleInsert forgedRow ⟨"g".toList, "2016-01-01".toList, "n1".toList⟩ 5 = .ok text ∧
      InsertsRows text
        [⟨"n1".toList, "g_power".toList, "2016-01-01".toList, .integer 1, some "W".toList, 6, 5⟩,
          ⟨"n2".toList, "g_power".toList, "2016-01-01".toList, .integer 0, some "W".toList, 6, 5⟩] ∧
      ¬Faithful forgedRow ⟨"g".toList, "2016-01-01".toList, "n1".toList⟩ 5 text := by
  have hin :
    InsertsRows (dataSampleText
    [row (sampleColumns "n1".toList "g".toList "power".toList "2016-01-01".toList
      (.integer 1) (some forgedUnits) ++ [['6'], ['6'], ['5']])])
      [⟨"n1".toList, "g_power".toList, "2016-01-01".toList, .integer 1, some "W".toList, 6, 5⟩,
        ⟨"n2".toList, "g_power".toList, "2016-01-01".toList, .integer 0,
        some "W".toList, 6, 5⟩] := by
    decide +kernel
  refine ⟨_, by decide +kernel, rfl, hin, ?_⟩
  rintro ⟨rows, hro, hone⟩
  obtain rfl :
    [⟨"n1".toList, "g_power".toList, "2016-01-01".toList, .integer 1, some forgedUnits, 6, 5⟩] =
    rows := Except.ok.inj hro
  -- two rows have more tokens than one
  have hle := congrArg List.length (Option.some.inj (hone.2.symm.trans hin.2))
  revert hle
  decide +kernel

end Sensys.Db
