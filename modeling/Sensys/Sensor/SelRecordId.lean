import Mathlib.Data.List.DropRight
import Sensys.Util.Vardata
/-!
# The file of record ids (`orcm/mca/sensor/ipmi/persist_sel_record_id.cpp`)

| here | there |
| --- | --- |
| `Stream`, `getLine` | `ifstream`, and its `getline` with room for 78 characters and the terminator |
| `getStreamLine`, `setRecordIdFromStr`, `strTrim`, `strEqualsSplit` | `:133-151`, `:201-237` |
| `loadLoop`, `loadLastRecordId` | `load_last_record_id` (`:77-101`) |
| `copyWithReplace` | `:239-260`: what it writes |
| `saveLatestRecordId` | `:42-75` with `create_new` |
| `saveRecordId` | an object that loads the file, `set_record_id` (`:103-109`) and its destructor |

A file is its text, or missing. Files can be opened, written and renamed.

A line that does not fit into the buffer sets the `failbit`. From then on nothing is read, and the
end of the file is never found: the loops do not end (`loadLoop_stuck`).
-/
namespace Sensys.Ipmi
open Orte Text SensorData List

/-- Why there is no result. -/
inductive Stop where
  | notEnded
  /-- An exception of `substr`. -/
  | outOfRange
deriving DecidableEq, Repr

structure Stream where
  rest : Text
  eof  : Bool
  fail : Bool
deriving DecidableEq, Repr

def maxLineSize : Nat := 80

/-- The end of the file is looked for before the newline, and the newline before the end of the
buffer. -/
def getLine (s : Stream) : Text × Stream :=
  if s.eof || s.fail then ([], { s with fail := true })
  else
    let line := s.rest.takeWhile (· ≠ '\n')
    if line.length ≤ maxLineSize - 2 then
      match s.rest.dropWhile (· ≠ '\n') with
      | [] => (line, ⟨[], true, line.isEmpty⟩)
      | _ :: rest => (line, { s with rest })
    else (line.take (maxLineSize - 2),
      { s with rest := s.rest.drop (maxLineSize - 2), fail := true })

def strTrim (t : Text) : Text := (t.dropWhile isspace).rdropWhile isspace

def getStreamLine (s : Stream) : Text × Stream := (strTrim (cStr (getLine s).1), (getLine s).2)

def strEqualsSplit (t : Text) : Text × Text :=
  if '=' ∈ t then (strTrim (t.takeWhile (· ≠ '=')), strTrim ((t.dropWhile (· ≠ '=')).drop 1))
  else ([], [])

def setRecordIdFromStr (val : Text) : Except Stop UInt16 :=
  match (val.dropWhile fun c => !c.isDigit).rdropWhile fun c => !c.isDigit with
  | [] => .error .outOfRange
  | number => .ok (UInt16.ofNat (min (digitsValue (number.takeWhile Char.isDigit)) longMax))

/-- The id is 0 if the host is not in the file. -/
def loadLoop (hostname : Text) : Nat → Stream → Except Stop UInt16
  | 0, _ => .error .notEnded
  | fuel + 1, s =>
    if s.eof then .ok 0
    else
      let (line, s) := getStreamLine s
      if !line.isEmpty &&
        (strEqualsSplit line).1 = hostname then setRecordIdFromStr (strEqualsSplit line).2
      else loadLoop hostname fuel s

def loadLastRecordId (fuel : Nat) (hostname : Text) : Option Text → Except Stop UInt16
  | none => .ok 0
  | some text => loadLoop hostname fuel ⟨text, false, false⟩

def lineOf (name val : Text) : Text := name ++ '=' :: val ++ ['\n']

def copyWithReplace (hostname : Text) (recordId : UInt16) : Nat → Bool → Stream → Except Stop Text
  | 0, _, _ => .error .notEnded
  | fuel + 1, updated, s =>
    if s.eof then .ok (if updated then [] else lineOf hostname (Nat.toDigits 10 recordId.toNat))
    else
      let (line, s) := getStreamLine s
      let (name, val) := strEqualsSplit line
      if line.isEmpty then copyWithReplace hostname recordId fuel updated s
      else if name = hostname then
        (copyWithReplace hostname recordId fuel true s).map
          (lineOf hostname (Nat.toDigits 10 recordId.toNat) ++ ·)
      else if !name.isEmpty && !val.isEmpty then
        (copyWithReplace hostname recordId fuel updated s).map (lineOf name val ++ ·)
      else copyWithReplace hostname recordId fuel updated s

/-- The new text of the file, also if there was none. -/
def saveLatestRecordId (fuel : Nat) (hostname : Text) (recordId : UInt16) :
    Option Text → Except Stop Text
  | none => .ok (lineOf hostname (Nat.toDigits 10 recordId.toNat))
  | some text => copyWithReplace hostname recordId fuel false ⟨text, false, false⟩

/-- The file is written if the id is not the one that was loaded. -/
def saveRecordId (fuel : Nat) (hostname : Text) (recordId : UInt16) (file : Option Text) :
    Except Stop (Option Text) := do
  let loaded ← loadLastRecordId fuel hostname file
  if recordId ≠ loaded then return some (← saveLatestRecordId fuel hostname recordId file)
  return file

/-! ## Lines of a stream -/

/-- The stream gives these lines, and then the end of the file. -/
inductive Yields : Stream → List Text → Prop where
  | done {s : Stream} : s.eof = true → Yields s []
  | line {s s' : Stream} {l : Text} {ls : List Text} : s.eof = false → getStreamLine s = (l, s') →
      Yields s' ls → Yields s (l :: ls)

/-- What is loaded from lines. -/
def loadLines (hostname : Text) : List Text → Except Stop UInt16
  | [] => .ok 0
  | l :: ls =>
    if !l.isEmpty && (strEqualsSplit l).1 = hostname then setRecordIdFromStr (strEqualsSplit l).2
    else loadLines hostname ls

variable {s : Stream} {blank : List Text} {hostname : Text} {ls : List Text}

theorem loadLoop_of_yields (h : Yields s ls) {fuel : Nat} (hf : ls.length < fuel) :
    loadLoop hostname fuel s = loadLines hostname ls := by
  induction h generalizing fuel with
  | done heof =>
    obtain ⟨k, rfl⟩ := Nat.exists_eq_add_of_lt hf
    simp [loadLoop, heof, loadLines]
  | @line s s' l ls heof hl _ ih =>
    obtain ⟨k, rfl⟩ := Nat.exists_eq_add_of_lt hf
    have hre := @ih ((l :: ls).length + k) (by rw [length_cons]; omega)
    rw [loadLoop, loadLines]
    simp only [heof, hl, hre, Bool.false_eq_true, if_false]

/-- What is written for lines. -/
def copyLines (hostname : Text) (recordId : UInt16) : Bool → List Text → Text
  | updated, [] => if updated then [] else lineOf hostname (Nat.toDigits 10 recordId.toNat)
  | updated, l :: ls =>
    if l.isEmpty then copyLines hostname recordId updated ls
    else if (strEqualsSplit l).1 = hostname then
      lineOf hostname (Nat.toDigits 10 recordId.toNat) ++ copyLines hostname recordId true ls
    else if !(strEqualsSplit l).1.isEmpty && !(strEqualsSplit l).2.isEmpty then
      lineOf (strEqualsSplit l).1 (strEqualsSplit l).2 ++ copyLines hostname recordId updated ls
    else copyLines hostname recordId updated ls

theorem copyWithReplace_of_yields {recordId : UInt16} (h : Yields s ls)
    {updated : Bool} {fuel : Nat} (hf : ls.length < fuel) :
    copyWithReplace hostname recordId fuel updated s =
      .ok (copyLines hostname recordId updated ls) := by
  induction h generalizing updated fuel with
  | done heof =>
    obtain ⟨k, rfl⟩ := Nat.exists_eq_add_of_lt hf
    simp [copyWithReplace, heof, copyLines]
  | @line s s' l ls heof hl _ ih =>
    obtain ⟨k, rfl⟩ := Nat.exists_eq_add_of_lt hf
    have hre := fun updated => @ih updated ((l :: ls).length + k) (by rw [length_cons]; omega)
    rw [copyWithReplace, copyLines]
    simp only [heof, hl, hre, Bool.false_eq_true, if_false]
    split_ifs <;> rfl

/-! ## Files of short lines -/

def IsHost (host : Text) : Prop := host ≠ [] ∧ ∀ c ∈ host, c ≠ '=' ∧ isspace c = false ∧ c ≠ '\x00'
deriving Decidable

/-- A line `host=id` that fits into the buffer. -/
structure Entry where
  host    : Text
  digits  : Text
  isHost  : IsHost host
  nonempty : digits ≠ []
  isDigits : ∀ c ∈ digits, c.isDigit = true
  short   : (host ++ '=' :: digits).length ≤ maxLineSize - 2

def Entry.line (e : Entry) : Text := e.host ++ '=' :: e.digits

/-- The id, as it is loaded. -/
def Entry.id (e : Entry) : UInt16 := UInt16.ofNat (min (digitsValue e.digits) longMax)

def fileText (entries : List Entry) : Text := entries.flatMap fun e => e.line ++ ['\n']

/-- The newline of the last line may be missing. -/
def IsFile (text : Text) (entries : List Entry) : Prop :=
  text = fileText entries ∨ ∃ before e, entries = before ++ [e] ∧ text = fileText before ++ e.line

/-- A missing file has no lines. -/
def HoldsEntries : Option Text → List Entry → Prop
  | none, entries => entries = []
  | some text, entries => IsFile text entries

/-- The id of a host: the first line counts. -/
def idOf (entries : List Entry) (host : Text) : UInt16 :=
  ((entries.find? fun e => e.host = host).map Entry.id).getD 0

/-! ## Reading a line -/

section
variable (e : Entry) (rest : Text)

theorem isspace_of_isDigit {c : Char} (h : c.isDigit = true) : isspace c = false := by
  cases hsp : isspace c with
  | false => rfl
  | true => rcases of_decide_eq_true hsp with rfl | rfl | rfl | rfl | rfl | rfl <;> cases h

theorem Entry.char_of_mem {c : Char} (h : c ∈ e.line) : isspace c = false ∧ c ≠ '\x00' := by
  rcases mem_append.1 h with h | h
  · exact (e.isHost.2 c h).2
  · rcases mem_cons.1 h with rfl | h
    · decide
    · have hdi := e.isDigits c h
      refine ⟨isspace_of_isDigit hdi, ?_⟩
      rintro rfl
      cases hdi

theorem strTrim_of_no_space {t : Text} (h : ∀ c ∈ t, isspace c = false) : strTrim t = t := by
  have hdr : t.dropWhile isspace = t := by
    cases t with
    | nil => rfl
    | cons c t => simp [h c mem_cons_self]
  rw [strTrim, hdr, rdropWhile_eq_self_iff]
  intro hne
  simp [h _ (getLast_mem hne)]

theorem Entry.ne_newline : ∀ c ∈ e.line, decide (c ≠ '\n') = true :=
  decide_ne_of_notMem fun h => by cases (e.char_of_mem h).1

theorem trim_line : strTrim (cStr e.line) = e.line := by
  rw [cStr_of_noNul fun h => (e.char_of_mem h).2 rfl]
  exact strTrim_of_no_space fun c hc => (e.char_of_mem hc).1

theorem getStreamLine_line :
    getStreamLine ⟨e.line ++ '\n' :: rest, false, false⟩ = (e.line, ⟨rest, false, false⟩) := by
  have hshort : e.line.length ≤ maxLineSize - 2 := e.short
  have hta : (e.line ++ '\n' :: rest).takeWhile (· ≠ '\n') = e.line :=
    takeWhile_append_cons e.ne_newline (by simp)
  have hdr : (e.line ++ '\n' :: rest).dropWhile (· ≠ '\n') = '\n' :: rest :=
    dropWhile_append_cons e.ne_newline (by simp)
  have hget : getLine ⟨e.line ++ '\n' :: rest, false, false⟩ = (e.line, ⟨rest, false, false⟩) := by
    simp only [getLine, Bool.or_self, Bool.false_eq_true, if_false, hta, hshort, if_true, hdr]
  rw [getStreamLine, hget, trim_line]

theorem getStreamLine_last :
    getStreamLine ⟨e.line, false, false⟩ = (e.line, ⟨[], true, false⟩) := by
  have hshort : e.line.length ≤ maxLineSize - 2 := e.short
  have hget : getLine ⟨e.line, false, false⟩ = (e.line, ⟨[], true, false⟩) := by
    simp only [getLine, Bool.or_self, Bool.false_eq_true, if_false,
      takeWhile_eq_self_iff.2 e.ne_newline, dropWhile_eq_nil_iff.2 e.ne_newline, hshort, if_true]
    simp [Entry.line]
  rw [getStreamLine, hget, trim_line]

theorem getStreamLine_end : getStreamLine ⟨[], false, false⟩ = ([], ⟨[], true, true⟩) := by decide

theorem split_line : strEqualsSplit e.line = (e.host, e.digits) := by
  have hhost : ∀ c ∈ e.host, decide (c ≠ '=') = true :=
    fun c hc => by simpa using (e.isHost.2 c hc).1
  have hta : e.line.takeWhile (· ≠ '=') = e.host := takeWhile_append_cons hhost (by simp)
  have hdr : e.line.dropWhile (· ≠ '=') = '=' :: e.digits := dropWhile_append_cons hhost (by simp)
  have hmem : '=' ∈ e.line := by simp [Entry.line]
  rw [strEqualsSplit, if_pos hmem, hta, hdr, strTrim_of_no_space fun c hc => (e.isHost.2 c hc).2.1,
    drop_one, tail_cons, strTrim_of_no_space fun c hc => isspace_of_isDigit (e.isDigits c hc)]

theorem setRecordIdFromStr_digits : setRecordIdFromStr e.digits = .ok e.id := by
  obtain ⟨c, t, hct⟩ := exists_cons_of_ne_nil e.nonempty
  have hdr : (e.digits.dropWhile fun c => !c.isDigit) = e.digits := by
    simp [hct, e.isDigits c (by simp [hct])]
  have hrd : (e.digits.rdropWhile fun c => !c.isDigit) = e.digits := by
    rw [rdropWhile_eq_self_iff]
    intro hne
    simp [e.isDigits _ (getLast_mem hne)]
  have hta : e.digits.takeWhile Char.isDigit = e.digits := takeWhile_eq_self_iff.2 e.isDigits
  rw [setRecordIdFromStr, hdr, hrd, hct]
  change Except.ok (UInt16.ofNat (min (digitsValue ((c :: t).takeWhile Char.isDigit)) longMax)) = _
  rw [← hct, hta]
  rfl

end

/-! ## Reading a file -/

theorem yields_append {tail : Text} (h : Yields ⟨tail, false, false⟩ ls) (entries : List Entry) :
    Yields ⟨fileText entries ++ tail, false, false⟩ (entries.map Entry.line ++ ls) := by
  induction entries with
  | nil => exact h
  | cons e entries ih =>
    refine .line rfl ?_ ih
    rw [fileText, flatMap_cons, append_assoc, append_assoc]
    exact getStreamLine_line e _

theorem yields_of_isFile {text : Text} {entries : List Entry} (h : IsFile text entries) :
    ∃ blank, (blank = [] ∨ blank = [[]]) ∧
      Yields ⟨text, false, false⟩ (entries.map Entry.line ++ blank) ∧
      (entries.map Entry.line ++ blank).length ≤ entries.length + 1 := by
  rcases h with rfl | ⟨before, e, rfl, rfl⟩
  · exact ⟨[[]], Or.inr rfl,
      by simpa using yields_append (.line rfl getStreamLine_end (.done rfl)) entries, by simp⟩
  · exact ⟨[], Or.inl rfl,
      by simpa using yields_append (.line rfl (getStreamLine_last e) (.done rfl)) before, by simp⟩

theorem Entry.line_ne_nil (e : Entry) : e.line.isEmpty = false := by
  simp [Entry.line]

theorem loadLines_entries (hostname : Text) (entries : List Entry)
    (hbl : blank = [] ∨ blank = [[]]) :
    loadLines hostname (entries.map Entry.line ++ blank) = .ok (idOf entries hostname) := by
  induction entries with
  | nil => rcases hbl with rfl | rfl <;> rfl
  | cons e entries ih =>
    rw [map_cons, cons_append, loadLines, e.line_ne_nil, split_line, ih]
    by_cases hhost : e.host = hostname
    · simp [hhost, idOf, setRecordIdFromStr_digits]
    · simp [hhost, idOf]

variable {file : Option Text} {entries : List Entry} {recordId : UInt16} {fuel : Nat} {new : Entry}

/-- **Loading** gives the id of the first line of the host. -/
theorem load_of_holds (h : HoldsEntries file entries) (hostname : Text)
    (hf : entries.length + 1 < fuel) :
    loadLastRecordId fuel hostname file = .ok (idOf entries hostname) := by
  cases file with
  | none =>
    cases h
    rfl
  | some text =>
    obtain ⟨blank, hbl, hy, hlen⟩ := yields_of_isFile h
    rw [loadLastRecordId, loadLoop_of_yields hy (by omega), loadLines_entries hostname entries hbl]

/-! ## Writing a file -/

/-- The line of a host is put in the place of each line that it has, or at the end. -/
def replaceEntry (new : Entry) : Bool → List Entry → List Entry
  | updated, [] => if updated then [] else [new]
  | updated, e :: entries =>
    if e.host = new.host then new :: replaceEntry new true entries
    else e :: replaceEntry new updated entries

theorem lineOf_entry (e : Entry) : lineOf e.host e.digits = e.line ++ ['\n'] := by
  simp [lineOf, Entry.line]

theorem copyLines_entries (hnew : new.digits = Nat.toDigits 10 recordId.toNat) (updated : Bool)
    (entries : List Entry) (hbl : blank = [] ∨ blank = [[]]) :
    copyLines new.host recordId updated (entries.map Entry.line ++ blank) =
      fileText (replaceEntry new updated entries) := by
  have hl : lineOf new.host (Nat.toDigits 10 recordId.toNat) = new.line ++ ['\n'] :=
    hnew ▸ lineOf_entry new
  induction entries generalizing updated with
  | nil =>
    have hend : copyLines new.host recordId updated [] =
        fileText (replaceEntry new updated []) := by
      cases updated <;> simp [copyLines, replaceEntry, fileText, hl]
    rcases hbl with rfl | rfl <;> exact hend
  | cons e entries ih =>
    rw [map_cons, cons_append, copyLines, e.line_ne_nil, split_line, replaceEntry]
    by_cases hhost : e.host = new.host
    · simp [hhost, hl, ih, fileText]
    · have hem := e.isHost.1
      have hdi := e.nonempty
      simp [hhost, hem, hdi, lineOf_entry, ih, fileText]

theorem idOf_replaceEntry_self (new : Entry) (entries : List Entry) :
    idOf (replaceEntry new false entries) new.host = new.id := by
  induction entries with
  | nil => simp [replaceEntry, idOf]
  | cons e entries ih =>
    by_cases hhost : e.host = new.host
    · simp [replaceEntry, hhost, idOf]
    · simpa [replaceEntry, hhost, idOf] using ih

theorem idOf_replaceEntry_other {other : Text} (hne : other ≠ new.host) (updated : Bool)
    (entries : List Entry) :
    idOf (replaceEntry new updated entries) other = idOf entries other := by
  induction entries generalizing updated with
  | nil => cases updated <;> simp [replaceEntry, idOf, hne.symm]
  | cons e entries ih =>
    unfold idOf at ih ⊢
    by_cases hhost : e.host = new.host
    · simp [replaceEntry, hhost, hne.symm, ih]
    · rw [replaceEntry, if_neg hhost]
      by_cases ho : e.host = other <;> simp [ho, ih]

theorem length_replaceEntry_le (new : Entry) (updated : Bool) (entries : List Entry) :
    (replaceEntry new updated entries).length ≤ entries.length + 1 := by
  induction entries generalizing updated with
  | nil => cases updated <;> simp [replaceEntry]
  | cons e entries ih =>
    rw [replaceEntry]
    split
    · simpa using ih true
    · simpa using ih updated

/-- The line that is written for an id. -/
def newEntry (host : Text) (recordId : UInt16) (hhost : IsHost host)
    (hshort : (host ++ '=' :: Nat.toDigits 10 recordId.toNat).length ≤ maxLineSize - 2) :
    Entry where
  host := host
  digits := Nat.toDigits 10 recordId.toNat
  isHost := hhost
  nonempty := Nat.toDigits_ne_nil
  isDigits := fun _ hc => Nat.isDigit_of_mem_toDigits (by decide) (by decide) hc
  short := hshort

section
variable {host : Text} (hhost : IsHost host)
  (hshort : (host ++ '=' :: Nat.toDigits 10 recordId.toNat).length ≤ maxLineSize - 2)

theorem newEntry_id : (newEntry host recordId hhost hshort).id = recordId := by
  have hlt : recordId.toNat < 2 ^ 16 := recordId.toNat_lt
  have hmin : min recordId.toNat longMax = recordId.toNat := min_eq_left (by unfold longMax; omega)
  rw [Entry.id, newEntry, digitsValue_toDigits, hmin, UInt16.ofNat_toNat]

theorem saveLatestRecordId_of_holds (h : HoldsEntries file entries)
    (hnew : new.digits = Nat.toDigits 10 recordId.toNat) (hf : entries.length + 1 < fuel) :
    saveLatestRecordId fuel new.host recordId file =
      .ok (fileText (replaceEntry new false entries)) := by
  cases file with
  | none =>
    cases h
    simp [saveLatestRecordId, ← hnew, lineOf_entry, replaceEntry, fileText]
  | some text =>
    obtain ⟨blank, hbl, hy, hlen⟩ := yields_of_isFile h
    rw [saveLatestRecordId, copyWithReplace_of_yields hy (by omega),
      copyLines_entries hnew false entries hbl]

include hhost hshort in
/-- **The file after an id is saved**: the host has the id, and every other host the one that it
had. -/
theorem save_of_holds (h : HoldsEntries file entries) (hf : entries.length + 1 < fuel) :
    ∃ file' entries', saveRecordId fuel host recordId file = .ok file' ∧
      HoldsEntries file' entries' ∧
      entries'.length ≤ entries.length + 1 ∧ idOf entries' host = recordId ∧
      ∀ other, other ≠ host → idOf entries' other = idOf entries other := by
  have hl := load_of_holds h host hf
  by_cases hsa : recordId = idOf entries host
  · refine ⟨file, entries, ?_, h, by omega, hsa.symm, fun _ _ => rfl⟩
    simp [saveRecordId, hl, hsa, pure, Except.pure, bind, Except.bind]
  · let new := newEntry host recordId hhost hshort
    have hsav : saveLatestRecordId fuel host recordId file =
        .ok (fileText (replaceEntry new false entries)) :=
      @saveLatestRecordId_of_holds file entries recordId fuel new h rfl hf
    refine ⟨some (fileText (replaceEntry new false entries)), replaceEntry new false entries,
      ?_, Or.inl rfl, length_replaceEntry_le new false entries,
      (idOf_replaceEntry_self new entries).trans (newEntry_id hhost hshort),
      fun other ho => idOf_replaceEntry_other ho false entries⟩
    simp [saveRecordId, hl, hsa, hsav, pure, Except.pure, bind, Except.bind]

end

/-- **Saving and loading**, if the line of the host is short too. -/
theorem load_after_save {file : Option Text} {entries : List Entry} (h : HoldsEntries file entries)
    {host : Text} {recordId : UInt16} (hhost : IsHost host)
    (hshort : (host ++ '=' :: Nat.toDigits 10 recordId.toNat).length ≤ maxLineSize - 2) {fuel : Nat}
    (hfuel : entries.length + 2 < fuel) :
    ∃ file', saveRecordId fuel host recordId file = .ok file' ∧
      loadLastRecordId fuel host file' = .ok recordId ∧
      ∀ other, other ≠ host →
      ∃ id, loadLastRecordId fuel other file = .ok id ∧
      loadLastRecordId fuel other file' = .ok id := by
  obtain ⟨file', entries', hsa, hh, hlen, hown, ho⟩ :=
    @save_of_holds file entries recordId fuel host hhost hshort h (by omega)
  refine ⟨file', hsa, ?_, ?_⟩
  · rw [load_of_holds hh host (by omega), hown]
  · intro other hot
    refine ⟨idOf entries other, load_of_holds h other (by omega), ?_⟩
    rw [load_of_holds hh other (by omega), ho other hot]

/-- A file with a line for `node10`, and an id for `node1`. -/
theorem load_after_save_node1 :
    ∃ file', saveRecordId 4 "node1".toList 7 (some "node10=300\n".toList) = .ok file' ∧
      loadLastRecordId 4 "node1".toList file' = .ok 7 ∧
      ∀ other, other ≠ "node1".toList →
      ∃ id, loadLastRecordId 4 other (some "node10=300\n".toList) = .ok id ∧
        loadLastRecordId 4 other file' = .ok id :=
  @load_after_save (some "node10=300\n".toList)
    [⟨"node10".toList, "300".toList, by decide, by decide, by decide, by decide⟩]
      (Or.inl (by decide)) "node1".toList 7
    (by decide) (by decide) 4 (by decide)

/-- A stream that has failed before its end. -/
theorem loadLoop_stuck (hostname : Text) (heof : s.eof = false) (hf : s.fail = true) (fuel : Nat) :
    loadLoop hostname fuel s = .error .notEnded := by
  obtain ⟨rest, eof, fail⟩ := s
  obtain rfl : eof = false := heof
  obtain rfl : fail = true := hf
  induction fuel with
  | zero => rfl
  | succ fuel ih => exact ih

/-- A host with a name of 80 characters. -/
def longHost : Text := List.replicate 80 'a'

theorem load_of_longHost_never_ends :
    IsHost longHost ∧ saveRecordId 1 longHost 5 none = .ok (some (lineOf longHost ['5'])) ∧
      ¬ ∃ fuel id, loadLastRecordId fuel longHost (some (lineOf longHost ['5'])) = .ok id := by
  refine ⟨by decide, by decide +kernel, ?_⟩
  rintro ⟨fuel, id, hl⟩
  cases fuel with
  | zero => cases hl
  | succ fuel =>
    have hget : getStreamLine ⟨lineOf longHost ['5'], false, false⟩ =
        (List.replicate 78 'a', ⟨"aa=5\n".toList, false, true⟩) := by decide +kernel
    rw [loadLastRecordId, loadLoop, hget, if_neg Bool.false_ne_true] at hl
    dsimp only at hl
    rw [if_neg (by decide +kernel), loadLoop_stuck longHost rfl rfl] at hl
    cases hl

/-! ## When the loops end -/

theorem exists_yields_next {s : Stream} (heof : s.eof = false) :
    (∃ ls, Yields s ls) ↔ ∃ ls, Yields (getLine s).2 ls := by
  constructor
  · rintro ⟨_, h⟩
    cases h with
    | done h => rw [heof] at h; cases h
    | @line _ s' _ ls _ hget h =>
      obtain rfl : (getLine s).2 = s' := congrArg Prod.snd hget
      exact ⟨ls, h⟩
  · rintro ⟨ls, h⟩
    exact ⟨_, .line heof rfl h⟩

theorem not_yields_of_failed (rest : Text) (ls : List Text) : ¬ Yields ⟨rest, false, true⟩ ls := by
  intro h
  generalize hs : Stream.mk rest false true = s at h
  induction h with
  | done h => rw [← hs] at h; cases h
  | line _ hl _ ih => exact ih (by rw [← hs] at hl; exact congrArg Prod.snd hl)

/-- The end of the file is found exactly if every line fits. -/
theorem exists_yields_iff (text : Text) :
    (∃ ls, Yields ⟨text, false, false⟩ ls) ↔
      ∀ line ∈ text.splitOn '\n', line.length ≤ maxLineSize - 2 := by
  induction hn : text.length using Nat.strong_induction_on generalizing text with
  | _ n ih =>
    have hno : ∀ c ∈ text.takeWhile (· ≠ '\n'), (c == '\n') = false :=
      fun c hc => by simpa using mem_takeWhile_imp hc
    have hf (rest : Text) : ¬ ∃ ls, Yields ⟨rest, false, true⟩ ls :=
      fun ⟨ls, h⟩ => not_yields_of_failed rest ls h
    rw [exists_yields_next rfl]
    simp only [getLine, Bool.or_self, Bool.false_eq_true, if_false]
    cases hdr : text.dropWhile (· ≠ '\n') with
    | nil =>
      have hl : text.takeWhile (· ≠ '\n') = text :=
        takeWhile_eq_self_iff.2 (dropWhile_eq_nil_iff.1 hdr)
      rw [hl] at hno
      rw [splitOn, splitOnP_eq_singleton hno, forall_mem_singleton]
      simp only [hl]
      split
      · rename_i hshort
        exact iff_of_true ⟨[], .done rfl⟩ hshort
      · rename_i hlo
        exact iff_of_false (hf _) hlo
    | cons c rest =>
      obtain ⟨hte, hc⟩ := dropWhile_eq_cons hdr
      obtain rfl : c = '\n' := by simpa using hc
      have hsp : text.splitOn '\n' = text.takeWhile (· ≠ '\n') :: rest.splitOn '\n' := by
        nth_rewrite 1 [hte]
        exact splitOnP_append_cons_of_forall_mem hno '\n' rfl rest
      rw [hsp, forall_mem_cons]
      split
      · rename_i hshort
        have hlt : rest.length < n := by
          rw [← hn, hte, length_append, length_cons]
          omega
        exact (ih _ hlt rest rfl).trans (and_iff_right hshort).symm
      · rename_i hlo
        exact iff_of_false (hf _) fun h => hlo h.1

theorem exists_yields_of_copy {hostname : Text} {recordId : UInt16} {fuel : Nat} {updated : Bool}
    {s : Stream} (h : copyWithReplace hostname recordId fuel updated s ≠ .error .notEnded) :
    ∃ ls, Yields s ls := by
  induction fuel generalizing updated s with
  | zero => exact absurd rfl h
  | succ fuel ih =>
    cases heof : s.eof with
    | true => exact ⟨[], .done heof⟩
    | false =>
      rw [exists_yields_next heof]
      by_contra hno
      have hst (updated : Bool) : copyWithReplace hostname recordId fuel updated (getLine s).2 =
          .error .notEnded :=
        by_contra fun hend => hno (ih hend)
      refine h ?_
      simp only [copyWithReplace, heof, getStreamLine, hst, Except.map, Bool.false_eq_true,
        if_false, ite_self]

theorem loadLines_ne_notEnded (hostname : Text) (ls : List Text) :
    loadLines hostname ls ≠ .error .notEnded := by
  induction ls with
  | nil => simp [loadLines]
  | cons l ls ih =>
    rw [loadLines]
    split
    · rw [setRecordIdFromStr]
      split <;> simp
    · exact ih

/-- **Both loops end** exactly if every line of the file fits into the buffer. -/
theorem load_and_copy_end_iff (hostname : Text) (recordId : UInt16) (text : Text) :
    (∃ fuel, loadLastRecordId fuel hostname (some text) ≠ .error .notEnded ∧
      saveLatestRecordId fuel hostname recordId (some text) ≠ .error .notEnded) ↔
      ∀ line ∈ text.splitOn '\n', line.length ≤ maxLineSize - 2 := by
  rw [← exists_yields_iff]
  constructor
  · rintro ⟨fuel, -, hco⟩
    exact exists_yields_of_copy hco
  · rintro ⟨ls, h⟩
    refine ⟨ls.length + 1, ?_, ?_⟩
    · rw [loadLastRecordId, loadLoop_of_yields h (Nat.lt_succ_self _)]
      exact loadLines_ne_notEnded hostname ls
    · rw [saveLatestRecordId, copyWithReplace_of_yields h (Nat.lt_succ_self _)]
      simp

theorem long_line_never_ends :
    ¬ ∃ fuel, loadLastRecordId fuel ['h'] (some (replicate 79 'a')) ≠ .error .notEnded ∧
      saveLatestRecordId fuel ['h'] 5 (some (replicate 79 'a')) ≠ .error .notEnded := by
  rintro ⟨fuel, -, hco⟩
  exact absurd ((exists_yields_iff _).1 (exists_yields_of_copy hco)) (by decide)

end Sensys.Ipmi
