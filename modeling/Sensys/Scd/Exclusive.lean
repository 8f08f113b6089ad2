import Mathlib.Data.List.Nodup
import Mathlib.Data.List.Sublists
import Sensys.Scd.Places
/-!
# A node runs one session at a time

Nodes are chosen by `scd_base_rm_request` and marked `ALLOC` only later, by `pmf_allocated`, which
runs on another event base. Between the two the chosen nodes still look free, so a second REQ
handled there chooses them again: `two_sessions_share_node`. `AllocatesAlone` says when the choice
is safe. Without enough free nodes a REQ leaves the session with the list it came with
(`scd_base_rm.c:130`).
-/
namespace Sensys.Scd
open Run Lists List

/-! ## Node lists and the node table -/

/-- The names in an allocation's node list; none when there is no list or it cannot be extracted. -/
def listed (R : Regex) (a : Alloc) : List String := (a.nodes.bind R.extract).getD []

variable {R : Regex} {x : ScdNodeState} {ns : List Node} {st st' : State} {ns' : List Node}
  {s : SessionId} {acts : List Act}

theorem listed_of_names {f : Bool} {a : Alloc} {names : List String}
    (h : R.names f a.nodes = some names) : listed R a = names := by
  unfold listed
  cases hn : a.nodes with
  | none => rw [hn] at h; cases h; rfl
  | some r =>
    rw [hn] at h
    simp only [Regex.names] at h
    split at h
    · cases h
    · simp [h]

theorem listed_congr {a b : Alloc} (h : a.nodes = b.nodes) : listed R a = listed R b := by
  rw [listed, listed, h]

theorem mem_markNodes {names : List String} {n' : Node} (h : n' ∈ markNodes x names ns) :
    ∃ n ∈ ns, n'.name = n.name ∧
      (n.name ∈ names ∧ n'.scdState = x ∨ n.name ∉ names ∧ n'.scdState = n.scdState) := by
  rw [markNodes_eq_map, mem_map] at h
  obtain ⟨n, hn, rfl⟩ := h
  by_cases hm : n.name ∈ names
  · exact ⟨n, hn, by simp [hm], Or.inl ⟨hm, by simp [hm]⟩⟩
  · exact ⟨n, hn, by simp [hm], Or.inr ⟨hm, by simp [hm]⟩⟩

theorem names_markNodes (x : ScdNodeState) (names : List String) (ns : List Node) :
    (markNodes x names ns).map Node.name = ns.map Node.name := by
  rw [markNodes_eq_map, map_map]
  apply map_congr_left
  intro n _
  simp only [Function.comp]
  split <;> rfl

theorem NodesKept.mem (h : NodesKept ns ns') {n' : Node} (hn : n' ∈ ns') :
    ∃ n ∈ ns, n'.name = n.name ∧ (n'.scdState = n.scdState ∨
      (n.scdState = .undef ∨ n.scdState = .unknown) ∧ n'.scdState = .unalloc) :=
  Lists.exists_of_forall₂_left (List.Forall₂.flip h) hn

theorem NodesKept.names (h : NodesKept ns ns') : ns'.map Node.name = ns.map Node.name := by
  induction h with
  | nil => rfl
  | cons hd _ ih => rw [map_cons, map_cons, hd.1, ih]

/-- Every node of the table that the list names is in state `x`. -/
def AllIn (x : ScdNodeState) (ns : List Node) (names : List String) : Prop :=
  ∀ n ∈ ns, n.name ∈ names → n.scdState = x
deriving Decidable

theorem AllIn.kept {names : List String}
    (h : AllIn x ns names) (hx : x = .alloc ∨ x = .unalloc) (hk : NodesKept ns ns') :
    AllIn x ns' names := by
  intro n' hn' hm
  obtain ⟨n, hn, hname, hst⟩ := hk.mem hn'
  have h1 := h n hn (hname ▸ hm)
  rcases hst with hst | ⟨hun, _⟩
  · rw [hst, h1]
  · -- a node in state `x` is neither `UNDEF` nor `UNKNOWN`
    rw [h1] at hun
    rcases hx with rfl | rfl <;> simp at hun

theorem AllIn.mark_same {names marked : List String} (h : AllIn x ns names) :
    AllIn x (markNodes x marked ns) names := by
  intro n' hn' hm
  obtain ⟨n, hn, hname, ⟨_, hst⟩ | ⟨_, hst⟩⟩ := mem_markNodes hn'
  · exact hst
  · rw [hst]; exact h n hn (hname ▸ hm)

theorem AllIn.mark_disjoint {y : ScdNodeState} {names marked : List String}
    (h : AllIn x ns names) (hd : ∀ nm ∈ marked, nm ∉ names) :
    AllIn x (markNodes y marked ns) names := by
  intro n' hn' hm
  obtain ⟨n, hn, hname, ⟨hin, _⟩ | ⟨_, hst⟩⟩ := mem_markNodes hn'
  · exact absurd (hname ▸ hm) (hd n.name hin)
  · rw [hst]; exact h n hn (hname ▸ hm)

theorem allIn_markNodes (x : ScdNodeState) (ns : List Node) (names : List String) :
    AllIn x (markNodes x names ns) names := by
  intro n' hn' hm
  obtain ⟨n, hn, hname, ⟨_, hst⟩ | ⟨hout, _⟩⟩ := mem_markNodes hn'
  · exact hst
  · exact absurd (hname ▸ hm) hout

/-! ## The invariant -/

def ScdEvent.isAllocd : ScdEvent → Bool
  | .allocd _ => true
  | _ => false

/-- When choosing and marking nodes in two steps is safe. -/
def AllocatesAlone (R : Regex) (st : State) : Act → Prop
  | .rm (.req s) _ _ =>
    (∀ e ∈ st.scd, e.isAllocd = false) ∧ (st.alloc s).minNodes ≤ ((freeNodes st.nodes).length : Int)
  | .scd (.terminated a) _ =>
    ∀ t ∈ st.running, t ≠ a.id → ∀ nm ∈ listed R a, nm ∉ listed R (st.alloc t)
  | act => RejectsAlone R st act

instance (R : Regex) (st : State) (act : Act) : Decidable (AllocatesAlone R st act) := by
  delta AllocatesAlone
  split <;> infer_instance

theorem AllocatesAlone.rejectsAlone {act : Act} (h : AllocatesAlone R st act) :
    RejectsAlone R st act := by
  unfold AllocatesAlone at h
  split at h
  · trivial
  · trivial
  · exact h

/-- `orte_regex_extract_node_names` gives back the names that `orte_regex_create` was given, for
every choice of nodes of the table. -/
def Inverts (R : Regex) (names : List String) : Prop :=
  ∀ l ∈ names.sublists, ∀ r ∈ R.create (nodelist l), ∃ l' ∈ R.extract r, l'.Perm l
deriving Decidable

/-- What holds between the steps: running sessions own their nodes, and the one session whose
ALLOCD is pending has a list of free ones (or the word `ERROR`). -/
structure Owned (R : Regex) (st : State) : Prop where
  nodup     : (st.nodes.map Node.name).Nodup
  inverts   : Inverts R (st.nodes.map Node.name)
  exclusive : ∀ s ∈ st.running, ∀ t ∈ st.running, s ≠ t →
    ∀ nm ∈ listed R (st.alloc s), nm ∉ listed R (st.alloc t)
  allocated : ∀ s ∈ st.running, AllIn .alloc st.nodes (listed R (st.alloc s))
  single    : ∀ s t, .allocd s ∈ st.scd → .allocd t ∈ st.scd → s = t
  chosen    : ∀ s, .allocd s ∈ st.scd → (st.alloc s).nodes = some "ERROR" ∨
    AllIn .unalloc st.nodes (listed R (st.alloc s)) ∧
      ∀ nm ∈ listed R (st.alloc s), nm ∈ st.nodes.map Node.name

/-- A step that starts no session and gives no session another list keeps the invariant. -/
theorem Owned.frame (h : Owned R st) (hno : NodesKept st.nodes st'.nodes)
    (hrun : ∀ s ∈ st'.running, s ∈ st.running)
    (hscd : ∀ s, .allocd s ∈ st'.scd → .allocd s ∈ st.scd)
    (hl : ∀ s, s ∈ st.running ∨ .allocd s ∈ st.scd → (st'.alloc s).nodes = (st.alloc s).nodes) :
    Owned R st' where
  nodup := by rw [hno.names]; exact h.nodup
  inverts := by rw [hno.names]; exact h.inverts
  exclusive s hs t ht hne := by
    rw [listed_congr (hl s (Or.inl (hrun s hs))), listed_congr (hl t (Or.inl (hrun t ht)))]
    exact h.exclusive s (hrun s hs) t (hrun t ht) hne
  allocated s hs := by
    rw [listed_congr (hl s (Or.inl (hrun s hs)))]
    exact (h.allocated s (hrun s hs)).kept (Or.inl rfl) hno
  single s t hs ht := h.single s t (hscd s hs) (hscd t ht)
  chosen s hs := by
    rw [listed_congr (hl s (Or.inr (hscd s hs))), hl s (Or.inr (hscd s hs)), hno.names]
    rcases h.chosen s (hscd s hs) with he | ⟨hun, hin⟩
    · exact Or.inl he
    · exact Or.inr ⟨hun.kept (Or.inr rfl) hno, hin⟩

/-- The names the request loop chooses are names of free nodes. -/
theorem requestLoop_free {k : Nat} (hk : 0 < k) (hnd : (ns.map Node.name).Nodup) :
    (requestLoop ns k).1.Sublist (ns.map Node.name) ∧ AllIn .unalloc ns (requestLoop ns k).1 := by
  rw [requestLoop_eq ns k hk]
  have hsub : (((freeNodes ns).map Node.name).take k).Sublist (ns.map Node.name) :=
    (take_sublist _ _).trans (filter_sublist.map Node.name)
  refine ⟨hsub, fun n hn hm => ?_⟩
  obtain ⟨m, hm, hname⟩ := mem_map.1 (mem_of_mem_take hm)
  obtain ⟨hmem, hf⟩ := mem_filter.1 hm
  -- names are distinct, so the chosen node is this one
  have heq : m = n := inj_on_of_nodup_map hnd hmem hn hname
  subst heq
  simp only [Node.free, Bool.and_eq_true, beq_iff_eq] at hf
  exact hf.1

section
variable (h : Owned R st)
include h

/-- A session starts: its nodes were free, so no running session has them. -/
theorem Owned.starts {names : List String}
    (hna : listed R (st.alloc s) = names) (hun : AllIn .unalloc st.nodes names)
    (hin : ∀ nm ∈ names, nm ∈ st.nodes.map Node.name)
    (hno : st'.nodes = markNodes .alloc names st.nodes)
    (hrun : st'.running = st.running ++ [s]) (hscd : ∀ t, .allocd t ∉ st'.scd)
    (hl : ∀ t, listed R (st'.alloc t) = listed R (st.alloc t)) : Owned R st' := by
  -- a node of a running session is `ALLOC`, a chosen one is not
  have hdi : ∀ t ∈ st.running, ∀ nm ∈ names, nm ∉ listed R (st.alloc t) := by
    intro t ht nm hnm hmt
    obtain ⟨n, hmem, rfl⟩ := mem_map.1 (hin nm hnm)
    have h1 := h.allocated t ht n hmem hmt
    have h2 := hun n hmem hnm
    rw [h1] at h2
    cases h2
  have hmem : ∀ t ∈ st'.running, t ∈ st.running ∨ t = s := by simp [hrun]
  refine ⟨by rw [hno, names_markNodes]; exact h.nodup,
    by rw [hno, names_markNodes]; exact h.inverts, ?_, ?_, fun t u ht => absurd ht (hscd t), fun t ht => absurd ht (hscd t)⟩
  · intro t ht u hu hne nm
    rw [hl, hl]
    rcases hmem t ht with ht | rfl <;> rcases hmem u hu with hu | rfl
    · exact h.exclusive t ht u hu hne nm
    · rw [hna]; exact fun h1 h2 => hdi t ht nm h2 h1
    · rw [hna]; exact fun h1 => hdi u hu nm h1
    · exact absurd rfl hne
  · intro t ht
    rw [hl, hno]
    rcases hmem t ht with ht | rfl
    · exact (h.allocated t ht).mark_same
    · rw [hna]; exact allIn_markNodes .alloc st.nodes names

/-- Nodes are freed that no session which goes on has. -/
theorem Owned.frees {names : List String} (hno : st'.nodes = markNodes .unalloc names st.nodes)
    (hrun : ∀ t ∈ st'.running, t ∈ st.running ∧ ∀ nm ∈ names, nm ∉ listed R (st.alloc t))
    (hscd : ∀ t, .allocd t ∈ st'.scd → .allocd t ∈ st.scd) (hal : st'.alloc = st.alloc) :
    Owned R st' := by
  refine ⟨by rw [hno, names_markNodes]; exact h.nodup,
    by rw [hno, names_markNodes]; exact h.inverts, ?_, ?_, fun t u ht hu => h.single t u (hscd t ht) (hscd u hu), fun t ht => ?_⟩
  · intro t ht u hu
    rw [hal]
    exact h.exclusive t (hrun t ht).1 u (hrun u hu).1
  · intro t ht
    rw [hal, hno]
    exact (h.allocated t (hrun t ht).1).mark_disjoint (hrun t ht).2
  · rw [hal, hno, names_markNodes]
    rcases h.chosen t (hscd t ht) with he | ⟨hun, hin⟩
    · exact Or.inl he
    · exact Or.inr ⟨hun.mark_same, hin⟩

/-- A list that is made of chosen names, or the word `ERROR`. -/
theorem Owned.chosen_create {f : Bool} {names : List String}
    (hsub : names.Sublist (st.nodes.map Node.name)) (hf : AllIn .unalloc st.nodes names) {a : Alloc}
    (ha : a.nodes = some ((if f then none else R.create (nodelist names)).getD "ERROR")) :
    a.nodes = some "ERROR" ∨
      AllIn .unalloc st.nodes (listed R a) ∧ ∀ nm ∈ listed R a, nm ∈ st.nodes.map Node.name := by
  cases hc : (if f then none else R.create (nodelist names)) with
  | none => exact Or.inl (by rw [ha, hc]; rfl)
  | some r =>
    rw [hc, Option.getD_some] at ha
    split at hc
    · cases hc
    · obtain ⟨l, hl, hpe⟩ := h.inverts _ (mem_sublists.2 hsub) r hc
      have hli : listed R a = l := by simp [listed, ha, Option.mem_def.1 hl]
      rw [hli]
      exact Or.inr ⟨fun n hn hm => hf n hn (hpe.mem_iff.1 hm),
        fun nm hnm => hsub.subset (hpe.mem_iff.1 hnm)⟩

/-- A session that does not run yet gets its list, while no other waits with one. -/
theorem Owned.chooses (hnot : s ∉ st.running)
    (hno : st'.nodes = st.nodes) (hrun : st'.running = st.running)
    (hscd : ∀ t, .allocd t ∈ st'.scd → t = s)
    (hal : ∀ t, t ≠ s → st'.alloc t = st.alloc t)
    (hch : (st'.alloc s).nodes = some "ERROR" ∨ AllIn .unalloc st.nodes (listed R (st'.alloc s)) ∧
      ∀ nm ∈ listed R (st'.alloc s), nm ∈ st.nodes.map Node.name) : Owned R st' := by
  have ho : ∀ t ∈ st.running, st'.alloc t = st.alloc t :=
    fun t ht => hal t fun heq => hnot (heq ▸ ht)
  refine ⟨by rw [hno]; exact h.nodup, by rw [hno]; exact h.inverts, ?_, ?_,
    fun t u ht hu => (hscd t ht).trans (hscd u hu).symm, ?_⟩
  · intro t ht u hu
    rw [hrun] at ht hu
    rw [ho t ht, ho u hu]
    exact h.exclusive t ht u hu
  · intro t ht
    rw [hrun] at ht
    rw [ho t ht, hno]
    exact h.allocated t ht
  · intro t ht
    cases hscd t ht
    rw [hno]
    exact hch

/-- The one pending ALLOCD has been taken. -/
theorem Owned.none_pending (hpl : Places acts st)
    (hp : .allocd s ∈ st.scd) (t : SessionId) : .allocd t ∉ st.scd.erase (.allocd s) := by
  intro ht
  have hts : t = s := h.single t s (mem_of_mem_erase ht) hp
  subst hts
  have h1 := count_pos_iff.2 ht
  have h2 := count_erase_add hp (.allocd t)
  have h3 := hpl.held_le_one t
  rw [if_pos rfl] at h2
  unfold held at h3
  omega

end

theorem Owned.step {act : Act}
    (hpl : Places acts st) (ho : Owned R st) (hC : AllocatesAlone R st act)
    (h : Effect R st act st') :
    Owned R st' := by
  have hkn : ∀ s : Nat, s ∈ st.running ∨ .allocd s ∈ st.scd → s ≤ st.lastSessionId := by
    intro s hs
    rcases hs with hs | hs
    · exact (hpl.known_of_held (held_pos (.inl hs))).1
    · exact (hpl.known_of_held (held_pos (.inr (.inr (.inr hs))))).1
  by_cases hact : act.movesNodes = false
  · have hq := h.quiet hact
    exact ho.frame hq.nodes (fun s hs => hq.running ▸ hs) hq.allocd fun s hs =>
      hq.lists s (hkn s hs)
  cases h with
  | allocdAccept s f A nl names hp hA hn hne hx hlen =>
    have hna : listed R (st.alloc s) = names := listed_of_names (hn ▸ hx)
    obtain ⟨hun, hin⟩ : AllIn .unalloc st.nodes names ∧ ∀ nm ∈ names,
        nm ∈ st.nodes.map Node.name := by
      rcases ho.chosen s hp with he | hc
      · rw [hn] at he; exact absurd (Option.some.inj he) hne
      · rw [hna] at hc; exact hc
    exact ho.starts hna hun hin rfl rfl (ho.none_pending hpl hp) fun t => listed_congr (hA t).2.2
  | allocdReject s f A nl hp hA hn hacc =>
    have hrun : st.running = [] := hC.rejectsAlone hacc
    refine ho.frame (NodesKept.refl _) (fun t ht => by simp [hrun] at ht) (fun t ht => ?_)
      fun t _ => (hA t).2.2
    exact mem_of_mem_erase_append ht (by simp)
  | terminated a f names hp hx =>
    have hna : listed R a = names := listed_of_names hx
    refine ho.frees rfl (fun t ht => ?_) (fun t ht => mem_of_mem_erase_append ht (by simp)) rfl
    obtain ⟨hmem, hne⟩ := mem_filter.1 ht
    exact ⟨hmem, fun nm hnm => hC t hmem (by simpa using hne) nm (hna ▸ hnm)⟩
  | reqNone s f k hp hmin =>
    exact ho.frame (NodesKept.refl _) (fun _ h => h) (fun _ h => h) fun _ _ => rfl
  | reqShort s f k hp hmin hleft =>
    -- excluded: there are enough free nodes
    rw [requestLoop_eq _ _ (by omega)] at hleft
    have := hC.2
    omega
  | reqGrant s f k r hp hmin hleft hr =>
    have hnot : s ∉ st.running :=
      fun hs => hpl.not_inFlight (Or.inl hs) (mem_inFlight.2 (Or.inl hp))
    have hpe : ∀ t, .allocd t ∉ st.scd := by
      intro t ht
      have := hC.1 _ ht
      simp [ScdEvent.isAllocd] at this
    obtain ⟨hsub, hf⟩ := requestLoop_free (k := (st.alloc s).minNodes.toNat) (by omega) ho.nodup
    refine ho.chooses hnot rfl rfl (fun t ht => by simpa [hpe t] using ht)
      (fun t ht => Function.update_of_ne ht _ _) ?_
    refine ho.chosen_create (f := f) hsub hf ?_
    simp only [Function.update_self, hr]
  | terminatedFail a f hp hx =>
    exact ho.frame (NodesKept.refl _) (fun _ h => h) (fun _ ht => mem_of_mem_erase ht) fun _ _ =>
      rfl
  | _ => exact absurd rfl hact

theorem Owned.of_fresh (h : Fresh st) (hnd : (st.nodes.map Node.name).Nodup)
    (hR : Inverts R (st.nodes.map Node.name)) : Owned R st where
  nodup := hnd
  inverts := hR
  exclusive s hs := by simp [h.running] at hs
  allocated s hs := by simp [h.running] at hs
  single s t hs := by simp [h.scd] at hs
  chosen s hs := by simp [h.scd] at hs

/-- **No node name is in the lists of two running sessions**, in every state of a run whose steps
all meet `AllocatesAlone`. -/
theorem running_exclusive_of_run {R : Regex} {st0 st : State} {acts : List Act} (hf : Fresh st0)
    (hnd : (st0.nodes.map Node.name).Nodup) (hR : Inverts R (st0.nodes.map Node.name))
    (hpos : ∀ act ∈ acts, PosRequest act) (hrun : run (step R) st0 acts = some st)
    (hC : Along (step R) (AllocatesAlone R) st0 acts) :
    ∀ s ∈ st.running, ∀ t ∈ st.running, s ≠ t →
      ∀ nm ∈ listed R (st.alloc s), nm ∉ listed R (st.alloc t) := by
  have h := run_induction (I := fun tr s => Places tr s ∧ Owned R s)
    (fun tr s a s' hI hc hs => ⟨hI.1.step hc.1 hc.2.rejectsAlone (step_effect hs),
      Owned.step hI.1 hI.2 hc.2 (step_effect hs)⟩)
    ⟨Places.of_fresh hf, Owned.of_fresh hf hnd hR⟩ hrun ((along_of_forall hpos st0).and hC)
  exact h.2.exclusive

/-- Two sessions, one after the other. -/
def twoSessionsRun : List Act :=
  admission 1 1 false ++ [launch 1] ++ admission 1 2 false

theorem running_exclusive_of_run_two :
    ∃ st, run (step sampleRegex) sampleState twoSessionsRun = some st ∧ st.running = [1, 2] ∧
      ∀ s ∈ st.running, ∀ t ∈ st.running, s ≠ t →
        ∀ nm ∈ listed sampleRegex (st.alloc s), nm ∉ listed sampleRegex (st.alloc t) := by
  obtain ⟨st, hst, hq⟩ : ∃ st, run (step sampleRegex) sampleState twoSessionsRun = some st ∧
    st.running = [1, 2] := by decide
  exact ⟨st, hst, hq, running_exclusive_of_run sampleState_fresh (by decide) (by decide)
    (by decide) hst
    (by decide)⟩

/-- Both REQ events are handled before either ALLOCD. -/
def overlappingRun : List Act :=
  [request 1, request 1, .scd (.init 1) false, .scd (.init 2) false,
    .scd .schedule false, .scd .schedule false, .rm (.req 1) false 0, .rm (.req 2) false 0,
    .scd (.allocd 1) false, .scd (.allocd 2) false]

/-- Sessions 1 and 2 run, both on `n0`, while `n1` is free. -/
theorem two_sessions_share_node :
    Inverts sampleRegex (sampleState.nodes.map Node.name) ∧
    ∃ st, run (step sampleRegex) sampleState overlappingRun = some st ∧ st.running = [1, 2] ∧
      listed sampleRegex (st.alloc 1) = ["n0"] ∧ listed sampleRegex (st.alloc 2) = ["n0"] := by
  decide

end Sensys.Scd
