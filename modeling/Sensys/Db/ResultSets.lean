import Mathlib.Logic.Function.Basic
/-!
# Reading result sets (`orcm/mca/db/postgres/db_postgres.c:2413-2467,2561-2672,2790-2846`)

| here | there |
| --- | --- |
| `Module` | `results_sets`, with the numbers of rows, and `current_row` of `mca_db_postgres_module_t` |
| `Call.fetch` | `postgres_fetch` or `postgres_fetch_function` once the query has succeeded; the handle is the place that was free |
| `getNextRow` | the row that `postgres_get_next_row` reads, or its error |

There is one `current_row` for all result sets. A fetch sets it to 0, and each row that is read
counts. A row past the last one is read where there is none. Calls are listed from the last one
back.
-/
namespace Sensys.Db.ResultSets

structure Module where
  resultsSets : Nat → Option Nat
  currentRow  : Nat

inductive Call where
  | fetch (handle numRows : Nat)
  | getNextRow (handle : Nat)
  | closeResultSet (handle : Nat)

inductive Result where
  | error
  | row (n : Nat)
deriving DecidableEq, Repr

def getNextRow (m : Module) (handle : Nat) : Result :=
  if (m.resultsSets handle).isSome then .row m.currentRow else .error

def after : List Call → Module
  | [] => ⟨fun _ => none, 0⟩
  | .fetch handle numRows :: before =>
    ⟨Function.update (after before).resultsSets handle (some numRows), 0⟩
  | .getNextRow handle :: before =>
    if getNextRow (after before) handle = .error then after before
    else { after before with currentRow := (after before).currentRow + 1 }
  | .closeResultSet handle :: before =>
    { after before with resultsSets := Function.update (after before).resultsSets handle none }

/-- The rows that were read of a result set since it was fetched. -/
def ownRows (handle : Nat) : List Call → Nat
  | [] => 0
  | .fetch h _ :: before => if h = handle then 0 else ownRows handle before
  | .getNextRow h :: before =>
    if h = handle ∧ getNextRow (after before) h ≠ .error then ownRows handle before + 1
    else ownRows handle before
  | .closeResultSet _ :: before => ownRows handle before

/-- The rows that were read of any result set since the last fetch. -/
def allRows : List Call → Nat
  | [] => 0
  | .fetch _ _ :: _ => 0
  | .getNextRow h :: before =>
    if getNextRow (after before) h = .error then allRows before else allRows before + 1
  | .closeResultSet _ :: before => allRows before

theorem currentRow_after (calls : List Call) : (after calls).currentRow = allRows calls := by
  induction calls with
  | nil => rfl
  | cons c before ih =>
    cases c with
    | fetch h n => rfl
    | closeResultSet h => exact ih
    | getNextRow h =>
      rw [after, allRows, ← ih]
      split <;> rfl

/-- The next row of the result set, or an error if it has none. -/
def nextRow (calls : List Call) (handle : Nat) : Result :=
  match (after calls).resultsSets handle with
  | some numRows => if ownRows handle calls < numRows then .row (ownRows handle calls) else .error
  | none => .error

/-- **The next row is read** after any calls exactly if there is one, and as many rows were read
of all result sets since the last fetch as of this one since its own. -/
theorem getNextRow_right_iff (calls : List Call) (handle : Nat) :
    getNextRow (after calls) handle = nextRow calls handle ↔
      ∀ numRows, (after calls).resultsSets handle = some numRows →
      ownRows handle calls < numRows ∧ allRows calls = ownRows handle calls := by
  rw [getNextRow, nextRow, currentRow_after]
  cases (after calls).resultsSets handle with
  | none => simp
  | some numRows =>
    by_cases hlt : ownRows handle calls < numRows <;> simp [hlt]

/-- One row of the result set 0 was read, then the result set 1 was fetched, which starts the
other again. -/
theorem first_row_again :
    getNextRow (after [.fetch 1 5, .getNextRow 0, .fetch 0 5]) 0 = .row 0 ∧
      nextRow [.fetch 1 5, .getNextRow 0, .fetch 0 5] 0 = .row 1 := by
  decide

end Sensys.Db.ResultSets
