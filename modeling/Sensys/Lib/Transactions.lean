import Mathlib.Data.List.Induction
/-!
# Sessions of a database server

What a session has done is a list of statements: those that are committed and, inside a
transaction block, those of the block. A statement outside a block commits by itself. `BEGIN`
inside a block and `COMMIT` and `ROLLBACK` outside one change nothing.
-/
universe u

structure Session (α : Type u) where
  committed : List α
  block     : Option (List α)
deriving DecidableEq, Repr

namespace Session
variable {α : Type u} (s : Session α) (l : List α) (a : α)

/-- What the open block has done. -/
def work : List α := s.block.getD []

def openBlock : Session α := { s with block := some s.work }

def execute (a : α) : Session α :=
  match s.block with
  | none => { s with committed := s.committed ++ [a] }
  | some work => { s with block := some (work ++ [a]) }

def executeAll (l : List α) : Session α := l.foldl execute s

def commit : Session α := ⟨s.committed ++ s.work, none⟩

def rollback : Session α := { s with block := none }

@[simp] theorem executeAll_nil : s.executeAll [] = s := rfl

@[simp] theorem executeAll_concat : s.executeAll (l ++ [a]) = (s.executeAll l).execute a := by
  simp [executeAll, List.foldl_append]

@[simp] theorem committed_openBlock : s.openBlock.committed = s.committed := rfl

@[simp] theorem block_openBlock : s.openBlock.block = some s.work := rfl

@[simp] theorem block_commit : s.commit.block = none := rfl

@[simp] theorem committed_rollback : s.rollback.committed = s.committed := rfl

@[simp] theorem block_rollback : s.rollback.block = none := rfl

/-- All that was done and not rolled back. -/
def done : List α := s.committed ++ s.work

@[simp] theorem done_openBlock : s.openBlock.done = s.done := rfl

@[simp] theorem done_commit : s.commit.done = s.done := by
  simp [done, commit, work]

@[simp] theorem done_execute : (s.execute a).done = s.done ++ [a] := by
  unfold execute done work
  cases s.block <;> simp

@[simp] theorem isSome_block_execute : (s.execute a).block.isSome = s.block.isSome := by
  unfold execute
  cases s.block <;> simp_all

theorem execute_of_block {work : List α} (h : s.block = some work) :
    (s.execute a).committed = s.committed ∧ (s.execute a).block = some (work ++ [a]) := by
  simp [execute, h]

/-- **Inside a block** nothing is committed. -/
theorem executeAll_of_block {work : List α} (h : s.block = some work) :
    (s.executeAll l).committed = s.committed ∧ (s.executeAll l).block = some (work ++ l) := by
  induction l using List.reverseRecOn with
  | nil => simpa using h
  | append_singleton l a ih =>
    obtain ⟨hc, hb⟩ := execute_of_block _ a ih.2
    rw [executeAll_concat, hc, hb]
    exact ⟨ih.1, by simp⟩

/-- **All of a block**, when it is committed. -/
theorem committed_commit_block :
    (s.openBlock.executeAll l).commit.committed = s.committed ++ s.work ++ l := by
  obtain ⟨hc, hb⟩ := executeAll_of_block s.openBlock l s.block_openBlock
  simp [commit, work, hc, hb]

/-- **Nothing of a block**, when it is not. -/
theorem committed_block : (s.openBlock.executeAll l).committed = s.committed :=
  (executeAll_of_block s.openBlock l s.block_openBlock).1

end Session
