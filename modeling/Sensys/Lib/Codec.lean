import Sensys.Lib.Results
/-!
# Reading back what was written

A reader takes from the front of what was written and may fail. `Reads p w a` says that `p` reads
`w`, no more and no less, and gets `a`. It is proved along the steps of a reader; `Codec` is a
writer and a reader of which it is assumed.
-/

/-- Readers of a sequence of `β`. -/
abbrev Reader (β ε α : Type) := StateT (List β) (Except ε) α

variable {β ε α γ : Type}

def Reads (p : Reader β ε α) (w : List β) (a : α) : Prop :=
  ∀ rest, p.run (w ++ rest) = .ok (a, rest)

/-- One after the other. -/
def readN (p : Reader β ε α) : Nat → Reader β ε (List α)
  | 0 => pure []
  | n + 1 => do
    let a ← p
    let l ← readN p n
    pure (a :: l)

/-- With the error `e` for any other one. -/
def failsWith (e : ε) (p : Reader β ε α) : Reader β ε α := fun w => (p.run w).mapError fun _ => e

variable {p : Reader β ε α} {w v : List β} {e : ε} {a : α} {write : α → List β} {l : List α}
  {n : Nat} {f : α → Reader β ε γ} (stuck : ε)

theorem exists_of_run_bind {q : γ × List β} (h : (p >>= f).run w = .ok q) :
    ∃ a v, p.run w = .ok (a, v) ∧ (f a).run v = .ok q := by
  obtain ⟨⟨a, v⟩, hp, hf⟩ := Results.exists_of_bind_ok h
  exact ⟨a, v, hp, hf⟩

theorem run_of_failsWith {q : α × List β} (h : (failsWith e p).run w = .ok q) :
    p.run w = .ok q := by
  change (p.run w).mapError _ = _ at h
  cases hp : p.run w with
  | error e' =>
    rw [hp] at h
    cases h
  | ok q' =>
    rw [hp] at h
    cases h
    rfl

theorem reads_pure (a : α) : Reads (pure a : Reader β ε α) [] a := fun _ => rfl

theorem Reads.run_bind (h : Reads p w a) (f : α → Reader β ε γ) (rest : List β) :
    (p >>= f).run (w ++ rest) = (f a).run rest := by
  change (p.run (w ++ rest)).bind _ = _
  rw [h rest]
  rfl

theorem Reads.bind {c : γ} (hp : Reads p v a) (hf : Reads (f a) w c) :
    Reads (p >>= f) (v ++ w) c := by
  intro rest
  rw [List.append_assoc, hp.run_bind]
  exact hf rest

theorem Reads.bind_pure {g : α → γ} (hp : Reads p w a) :
    Reads (p >>= fun a => pure (g a)) w (g a) := by
  rw [← List.append_nil w]
  exact hp.bind (reads_pure (g a))

theorem map_run_bind_pure {δ : Type} (f : α → γ) (g : γ → δ) (w : List β) :
    ((p >>= fun a => pure (f a)).run w).map (fun q => g q.1) = (p.run w).map fun q =>
      g (f q.1) := by
  rw [StateT.run_bind]
  cases p.run w <;> rfl

theorem Reads.failsWith (h : Reads p w a) (e : ε) : Reads (failsWith e p) w a := by
  intro rest
  change (p.run (w ++ rest)).mapError _ = _
  rw [h rest]
  rfl

theorem forall_of_readN {P : α → Prop} (hp : ∀ w a v, p.run w = .ok (a, v) → P a)
    (h : (readN p n).run w = .ok (l, v)) : ∀ a ∈ l, P a := by
  induction n generalizing w l with
  | zero =>
    cases h
    simp
  | succ n ih =>
    obtain ⟨a, u, ha, h⟩ := exists_of_run_bind h
    obtain ⟨l', u', hl, h⟩ := exists_of_run_bind h
    cases h
    exact List.forall_mem_cons.2 ⟨hp w a u ha, ih hl⟩

section
variable {p : Reader β ε γ} {get : α → γ} (h : ∀ a ∈ l, Reads p (write a) (get a))
include h

theorem reads_readN_map : Reads (readN p l.length) (l.flatMap write) (l.map get) := by
  induction l with
  | nil => exact reads_pure []
  | cons a l ih =>
    have ih := ih (List.forall_mem_cons.1 h).2
    exact (h a List.mem_cons_self).bind ih.bind_pure

theorem readN_flatMap (hn : n ≤ l.length) :
    (readN p n).run (l.flatMap write) = .ok ((l.take n).map get, (l.drop n).flatMap write) := by
  have hre :=
    reads_readN_map (l := l.take n) (fun a ha => h a (List.mem_of_mem_take ha))
    ((l.drop n).flatMap write)
  rwa [List.length_take, Nat.min_eq_left hn, ← List.flatMap_append, List.take_append_drop] at hre

theorem readN_flatMap_error (hend : p.run [] = .error e) (hn : l.length < n) :
    (readN p n).run (l.flatMap write) = .error e := by
  induction l generalizing n with
  | nil =>
    obtain ⟨n, rfl⟩ : ∃ k, n = k + 1 := ⟨n - 1, by simp at hn; omega⟩
    rw [readN, List.flatMap_nil, StateT.run_bind, hend]
    rfl
  | cons a l ih =>
    obtain ⟨n, rfl⟩ : ∃ k, n = k + 1 := ⟨n - 1, by simp at hn; omega⟩
    have hre := ih (List.forall_mem_cons.1 h).2 (Nat.lt_of_succ_lt_succ hn)
    rw [List.flatMap_cons, readN, (h a List.mem_cons_self).run_bind, StateT.run_bind, hre]
    rfl

theorem map_readN_flatMap_iff {δ : Type} (hend : p.run [] = .error e) (n : Nat) (f : List γ → δ)
    (x : δ) :
    ((readN p n).run (l.flatMap write)).map (fun q => f q.1) = .ok x ↔
      n ≤ l.length ∧ f ((l.take n).map get) = x := by
  by_cases hn : n ≤ l.length
  · rw [readN_flatMap h hn]
    simp [Except.map, hn]
  · rw [readN_flatMap_error h hend (Nat.lt_of_not_le hn)]
    simp [Except.map, hn]

end

theorem reads_readN (h : ∀ a ∈ l, Reads p (write a) a) :
    Reads (readN p l.length) (l.flatMap write) l := by
  simpa only [List.map_id'] using reads_readN_map h

/-- Values that are passed on one by one: what was read before an error is not lost. -/
def readEach (p : Reader β ε α) : Nat → List β → List α × Option ε
  | 0, _ => ([], none)
  | n + 1, w =>
    match p.run w with
    | .error e => ([], some e)
    | .ok (a, v) => (a :: (readEach p n v).1, (readEach p n v).2)

theorem readEach_of_ok (h : (readN p n).run w = .ok (l, v)) : readEach p n w = (l, none) := by
  induction n generalizing w l with
  | zero =>
    cases h
    rfl
  | succ n ih =>
    obtain ⟨a, u, ha, h⟩ := exists_of_run_bind h
    obtain ⟨l', u', hl, h⟩ := exists_of_run_bind h
    cases h
    simp [readEach, ha, ih hl]

theorem readEach_of_error (h : (readN p n).run w = .error e) : (readEach p n w).2 = some e := by
  induction n generalizing w with
  | zero => cases h
  | succ n ih =>
    rw [readN, StateT.run_bind] at h
    cases hp : p.run w with
    | error e' =>
      rw [hp] at h
      cases h
      simp [readEach, hp]
    | ok q =>
      obtain ⟨a, v⟩ := q
      rw [hp] at h
      change (((readN p n).run v).bind _ : Except ε _) = _ at h
      cases hl : (readN p n).run v with
      | error e' =>
        rw [hl] at h
        cases h
        simp [readEach, hp, ih hl]
      | ok r =>
        rw [hl] at h
        cases h

/-- Values are read without an error if there are enough of them. -/
theorem readEach_flatMap_iff {p : Reader β ε γ} {get : α → γ}
    (h : ∀ a ∈ l, Reads p (write a) (get a)) (hend : p.run [] = .error e) (n : Nat)
    (P : List γ → Prop) :
    ((readEach p n (l.flatMap write)).2 = none ∧ P (readEach p n (l.flatMap write)).1) ↔
      n ≤ l.length ∧ P ((l.take n).map get) := by
  by_cases hn : n ≤ l.length
  · simp [readEach_of_ok (readN_flatMap h hn), hn]
  · simp [readEach_of_error (readN_flatMap_error h hend (Nat.lt_of_not_le hn)), hn]

/-- One after the other until nothing is left; `fuel` bounds the number, and `stuck` says that it
was not enough. -/
def readAll (stuck : ε) (p : Reader β ε α) : Nat → Reader β ε (List α)
  | 0 => do
    if (← get).isEmpty then pure [] else throw stuck
  | fuel + 1 => do
    if (← get).isEmpty then pure []
    else do
      let a ← p
      let l ← readAll stuck p fuel
      pure (a :: l)

theorem readAll_nil (p : Reader β ε α) (fuel : Nat) :
    (readAll stuck p fuel).run [] = .ok ([], []) := by
  cases fuel <;> rfl

theorem readAll_succ (p : Reader β ε α) {buf : List β} (hne : buf ≠ []) (fuel : Nat) :
    (readAll stuck p (fuel + 1)).run buf =
      (p.run buf).bind fun q => ((readAll stuck p fuel).run q.2).bind fun r =>
      .ok (q.1 :: r.1, r.2) := by
  cases buf with
  | nil => exact absurd rfl hne
  | cons b buf => rfl

theorem readAll_flatMap {p : Reader β ε γ} {get : α → γ}
    (h : ∀ a ∈ l, Reads p (write a) (get a)) (hne : ∀ a ∈ l, write a ≠ []) {fuel : Nat}
    (hf : l.length ≤ fuel) :
    (readAll stuck p fuel).run (l.flatMap write) = .ok (l.map get, []) := by
  induction l generalizing fuel with
  | nil => exact readAll_nil stuck p fuel
  | cons a l ih =>
    obtain ⟨fuel, rfl⟩ : ∃ k, fuel = k + 1 := ⟨fuel - 1, by simp at hf; omega⟩
    have hre := ih (List.forall_mem_cons.1 h).2 (List.forall_mem_cons.1 hne).2
      (Nat.le_of_succ_le_succ hf)
    have hwr : write a ++ l.flatMap write ≠ [] :=
      List.append_ne_nil_of_left_ne_nil (hne a List.mem_cons_self) _
    rw [List.flatMap_cons, readAll_succ stuck p hwr, h a List.mem_cons_self]
    change ((readAll stuck p fuel).run (l.flatMap write)).bind _ = _
    rw [hre]
    rfl

/-- Something is written for a value if there is another one. -/
theorem Reads.ne_nil {b : α} (ha : Reads p v a) (hb : Reads p w b) (hne : a ≠ b) : v ≠ [] := by
  rintro rfl
  have hrun := ha w
  rw [List.nil_append, ← List.append_nil w, hb []] at hrun
  exact hne (Prod.mk.inj (Except.ok.inj hrun)).1.symm

structure Codec (β ε α : Type) where
  write : α → List β
  read  : Reader β ε α
  reads : ∀ a, Reads read (write a) a

/-- Of values that may be missing those that are not. -/
def Codec.ofSome (c : Codec β ε (Option α)) (missing : ε) : Codec β ε α where
  write a := c.write (some a)
  read := do
    match ← c.read with
    | some a => pure a
    | none => throw missing
  reads a := by
    rw [← List.append_nil (c.write (some a))]
    exact (c.reads (some a)).bind (reads_pure a)

theorem Codec.write_ne_nil (c : Codec β ε α) {b : α} (hne : a ≠ b) : c.write a ≠ [] :=
  (c.reads a).ne_nil (c.reads b) hne

/-- A sequence of values, each of them in one place; `toOption` says whether a value is of the
kind that is read. -/
def Codec.single (fault : ε) (inj : α → β) (toOption : β → Option α)
    (h : ∀ a, toOption (inj a) = some a) : Codec β ε α where
  write a := [inj a]
  read := do
    match ← get with
    | [] => throw fault
    | b :: rest =>
      match toOption b with
      | none => throw fault
      | some a =>
        set rest
        pure a
  reads a rest := by
    simp [h]
    rfl
