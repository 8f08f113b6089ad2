import Sensys.Lib.Lists
import Sensys.Scd.Handlers
/-!
# What one step can do

`Effect R st act st'` lists every outcome of every handler, with the guard it was taken under and
the fields it changed; `step_effect` is the only place where the handlers are unfolded, and every
invariant below is a case split on `Effect`. Fields of an allocation that no handler reads are
left out (`SameCore`).
-/
namespace Sensys.Scd
open List

open Lists

/-- Same id, `min_nodes` and node list for every session. -/
def SameCore (A B : SessionId → Alloc) : Prop :=
  ∀ t, (A t).id = (B t).id ∧ (A t).minNodes = (B t).minNodes ∧ (A t).nodes = (B t).nodes

theorem SameCore.refl (A : SessionId → Alloc) : SameCore A A := fun _ => ⟨rfl, rfl, rfl⟩

variable {s : SessionId} {R : Regex} {st st' : State} {f : Bool}

theorem SameCore.update {A B : SessionId → Alloc} (h : SameCore A B) {a : Alloc}
    (ha : a.id = (B s).id ∧ a.minNodes = (B s).minNodes ∧ a.nodes = (B s).nodes) :
    SameCore (Function.update A s a) B := by
  intro t
  by_cases hts : t = s
  · subst hts; simpa using ha
  · simpa [Function.update_of_ne hts] using h t

/-- The success path of `pmf_allocated`: the list is not `"ERROR"`, can be extracted, and has
`min_nodes` names. -/
def accepts (R : Regex) (fault : Bool) (st : State) (s : SessionId) : Bool :=
  match (st.alloc s).nodes with
  | none => false
  | some nl =>
    nl ≠ "ERROR" && match R.names fault (some nl) with
      | none => false
      | some names => (names.length : Int) = (st.alloc s).minNodes

theorem accepts_iff {fault : Bool} :
    accepts R fault st s = true ↔
      ∃ nl names, (st.alloc s).nodes = some nl ∧ nl ≠ "ERROR" ∧
      R.names fault (some nl) = some names ∧
        (names.length : Int) = (st.alloc s).minNodes := by
  unfold accepts
  cases hn : (st.alloc s).nodes with
  | none => simp
  | some nl =>
    cases hx : R.names fault (some nl) with
    | none | some names => simp [hx]

/-- What the node-state messages may do to the node table: names stay, and `scd_state` only leaves
`UNDEF` and `UNKNOWN`, for `UNALLOC`. -/
def NodesKept (ns ns' : List Node) : Prop :=
  List.Forall₂ (fun n n' : Node => n'.name = n.name ∧
    (n'.scdState = n.scdState ∨
      (n.scdState = .undef ∨ n.scdState = .unknown) ∧ n'.scdState = .unalloc)) ns ns'

theorem NodesKept.refl (ns : List Node) : NodesKept ns ns :=
  forall₂_same.2 fun _ _ => ⟨rfl, Or.inl rfl⟩

theorem NodesKept.trans {ns ns' ns'' : List Node} (h : NodesKept ns ns') (h' : NodesKept ns' ns'') :
    NodesKept ns ns'' := by
  induction h generalizing ns'' with
  | nil => exact h'
  | cons hd _ ih =>
    cases h' with
    | cons hd' tl' =>
      refine List.Forall₂.cons ⟨hd'.1.trans hd.1, ?_⟩ (ih tl')
      grind

theorem setState_kept (state newstate : NodeState) (n : Node) :
    (n.setState state newstate).name = n.name ∧
      ((n.setState state newstate).scdState = n.scdState ∨
        (n.scdState = .undef ∨ n.scdState = .unknown) ∧
          (n.setState state newstate).scdState = .unalloc) := by
  refine ⟨rfl, ?_⟩
  unfold Node.setState
  by_cases h : state = .up ∧ (n.scdState = .undef ∨ n.scdState = .unknown)
  · exact Or.inr ⟨h.2, by simp only [if_pos h]⟩
  · exact Or.inl (by simp only [if_neg h])

theorem updateFirst_kept (p : Node → Bool) (state newstate : NodeState) :
    ∀ ns, NodesKept ns (updateFirst p (Node.setState state newstate) ns)
  | [] => List.Forall₂.nil
  | n :: ns => by
    unfold updateFirst
    split
    · exact List.Forall₂.cons (setState_kept state newstate n) (NodesKept.refl ns)
    · exact List.Forall₂.cons ⟨rfl, Or.inl rfl⟩ (updateFirst_kept p state newstate ns)

theorem foldl_updateFirst_kept {β : Type} (p : β → Node → Bool) (state newstate : NodeState) :
    ∀ (bs : List β) (ns : List Node),
      NodesKept ns (bs.foldl (fun ns b => updateFirst (p b) (Node.setState state newstate) ns) ns)
  | [], ns => NodesKept.refl ns
  | b :: bs, ns =>
    (updateFirst_kept (p b) state newstate ns).trans (foldl_updateFirst_kept p state newstate bs _)

/-- `recvStepdComplete` raises TERMINATED for the message's allocation, or nothing. -/
theorem recvStepdComplete_events (sender : String) (a : Alloc) :
    ∀ ts, (recvStepdComplete sender a ts).2 = [] ∨
      (recvStepdComplete sender a ts).2 = [.terminated a]
  | [] => Or.inl rfl
  | t :: ts => by
    unfold recvStepdComplete
    split
    · simp only
      split
      · exact Or.inr rfl
      · exact Or.inl rfl
    · exact recvStepdComplete_events sender a ts

inductive Effect (R : Regex) (st : State) : Act → State → Prop
  | sessionReq (a : Alloc) :
      Effect R st (.sessionReq a)
        { st with
          lastSessionId := st.lastSessionId + 1
          alloc :=
          Function.update st.alloc (st.lastSessionId + 1) { a with id := st.lastSessionId + 1 }
          scd := st.scd ++ [.init (st.lastSessionId + 1)] }
  | sessionCancel (id : SessionId) :
      Effect R st (.sessionCancel id) { st with scd := st.scd ++ [.cancel id] }
  | stepdComplete (sender : String) (a : Alloc) :
      Effect R st (.stepdComplete sender a)
        { st with
          tracking := (recvStepdComplete sender a st.tracking).1
          scd := st.scd ++ (recvStepdComplete sender a st.tracking).2 }
  | byproc (x : NodeState) (ps : List ProcName) (ns : List Node) (hns : NodesKept st.nodes ns) :
      Effect R st (.nodestateByproc x ps) { st with nodes := ns }
  | byname (x : NodeState) (r : Option String) (f : Bool) (ns : List Node)
      (hns : NodesKept st.nodes ns) :
      Effect R st (.nodestateByname x r f) { st with nodes := ns }
  | initHold (s : SessionId) (f : Bool) (A : SessionId → Alloc) (hp : .init s ∈ st.scd)
      (hA : SameCore A st.alloc) :
      Effect R st (.scd (.init s) f)
        { st with
          alloc := A, hold := st.hold ++ [s], scd := st.scd.erase (.init s) ++ [.schedule] }
  | initQueue (s : SessionId) (f : Bool) (A : SessionId → Alloc) (hp : .init s ∈ st.scd)
      (hA : SameCore A st.alloc) :
      Effect R st (.scd (.init s) f)
        { st with
          alloc := A, default := st.default ++ [s], scd := st.scd.erase (.init s) ++ [.schedule] }
  | scheduleEmpty (f : Bool) (hp : .schedule ∈ st.scd) (hd : st.default = []) :
      Effect R st (.scd .schedule f) { st with scd := st.scd.erase .schedule }
  | scheduleTake (f : Bool) (s : SessionId) (rest : List SessionId) (hp : .schedule ∈ st.scd)
      (hd : st.default = s :: rest)
      (hfit : (st.alloc s).minNodes ≤ ((freeNodes st.nodes).length : Int)) :
      Effect R st (.scd .schedule f)
        { st with default := rest, scd := st.scd.erase .schedule, rm := st.rm ++ [.req s] }
  | scheduleWait (f : Bool) (s : SessionId) (rest : List SessionId) (hp : .schedule ∈ st.scd)
      (hd : st.default = s :: rest)
      (hfit : ((freeNodes st.nodes).length : Int) < (st.alloc s).minNodes) :
      Effect R st (.scd .schedule f) { st with scd := st.scd.erase .schedule }
  | allocdAccept (s : SessionId) (f : Bool) (A : SessionId → Alloc) (nl : String)
      (names : List String)
      (hp : .allocd s ∈ st.scd) (hA : SameCore A st.alloc) (hn : (st.alloc s).nodes = some nl)
      (hne : nl ≠ "ERROR") (hx : R.names f (some nl) = some names)
      (hlen : (names.length : Int) = (st.alloc s).minNodes) :
      Effect R st (.scd (.allocd s) f)
        { st with
          alloc := A, running := st.running ++ [s], nodes := markNodes .alloc names st.nodes
          scd := st.scd.erase (.allocd s), rm := st.rm ++ [.active s] }
  | allocdReject (s : SessionId) (f : Bool) (A : SessionId → Alloc) (nl : String)
      (hp : .allocd s ∈ st.scd) (hA : SameCore A st.alloc) (hn : (st.alloc s).nodes = some nl)
      (hrej : accepts R f st s = false) :
      Effect R st (.scd (.allocd s) f)
        { st with
          alloc := A, running := (st.running ++ [s]).tail, default := s :: st.default
          scd := st.scd.erase (.allocd s) ++ [.schedule]
          rm := st.rm ++ if nl = "ERROR" then [] else [.active s] }
  | terminatedFail (a : Alloc) (f : Bool) (hp : .terminated a ∈ st.scd)
      (hx : R.names f a.nodes = none) :
      Effect R st (.scd (.terminated a) f) { st with scd := st.scd.erase (.terminated a) }
  | terminated (a : Alloc) (f : Bool) (names : List String) (hp : .terminated a ∈ st.scd)
      (hx : R.names f a.nodes = some names) :
      Effect R st (.scd (.terminated a) f)
        { st with
          nodes := markNodes .unalloc names st.nodes
          running := st.running.filter (· ≠ a.id)
          scd := st.scd.erase (.terminated a) ++ [.schedule] }
  | cancel (id : SessionId) (f : Bool) (hp : .cancel id ∈ st.scd) :
      Effect R st (.scd (.cancel id) f)
        { st with
          hold := st.hold.erase id, default := st.default.erase id
          scd := st.scd.erase (.cancel id) ++ (if id ∈ st.hold then [.schedule] else [])
            ++ if id ∈ st.default then [.schedule] else []
          rm := st.rm ++ if id ∈ st.running then [.kill id] else [] }
  | reqNone (s : SessionId) (f : Bool) (k : Nat) (hp : .req s ∈ st.rm)
      (hmin : (st.alloc s).minNodes ≤ 0) :
      Effect R st (.rm (.req s) f k) { st with rm := st.rm.erase (.req s) }
  | reqShort (s : SessionId) (f : Bool) (k : Nat) (hp : .req s ∈ st.rm)
      (hmin : 0 < (st.alloc s).minNodes)
      (hleft : (requestLoop st.nodes (st.alloc s).minNodes.toNat).2 ≠ 0) :
      Effect R st (.rm (.req s) f k)
        { st with scd := st.scd ++ [.allocd s], rm := st.rm.erase (.req s) }
  | reqGrant (s : SessionId) (f : Bool) (k : Nat) (r : String) (hp : .req s ∈ st.rm)
      (hmin : 0 < (st.alloc s).minNodes)
      (hleft : (requestLoop st.nodes (st.alloc s).minNodes.toNat).2 = 0)
      (hr : r = ((if f then none else
        R.create (nodelist (requestLoop st.nodes (st.alloc s).minNodes.toNat).1)).getD "ERROR")) :
      Effect R st (.rm (.req s) f k)
        { st with
          alloc := Function.update st.alloc s { st.alloc s with nodes := some r }
          scd := st.scd ++ [.allocd s], rm := st.rm.erase (.req s) }
  | activeNone (s : SessionId) (f : Bool) (k : Nat) (hp : .active s ∈ st.rm)
      (hx : R.names f (st.alloc s).nodes = none ∨ R.names f (st.alloc s).nodes = some []) :
      Effect R st (.rm (.active s) f k) { st with rm := st.rm.erase (.active s) }
  | activeSend (s : SessionId) (f : Bool) (k : Nat) (A : SessionId → Alloc) (names : List String)
      (hp : .active s ∈ st.rm) (hA : SameCore A st.alloc)
      (hx : R.names f (st.alloc s).nodes = some names) (hne : names ≠ []) :
      Effect R st (.rm (.active s) f k)
        { st with
          alloc := A
          rm := st.rm.erase (.active s)
          tracking := st.tracking ++
            [{ allocId := s, countCheckedIn := 0, launched := A s, checkedIn := [] }]
          sent := st.sent ++ ((stepdTargets st.nodes (names.take (st.alloc s).minNodes.toNat)).map
            fun n => Sent.mk .launch n.name (A s)).take k }
  | kill (s : SessionId) (f : Bool) (k : Nat) (out : List Sent) (hp : .kill s ∈ st.rm)
      (hout : ∀ x ∈ out, x.cmd = .cancel) :
      Effect R st (.rm (.kill s) f k) { st with rm := st.rm.erase (.kill s), sent := st.sent ++ out }

/-! ## Every step is one of these -/

theorem requestLoop_eq : ∀ (ns : List Node) (k : Nat), 0 < k →
    requestLoop ns k = (((freeNodes ns).map Node.name).take k, k - (freeNodes ns).length)
  | [], k, _ => by simp [requestLoop, freeNodes]
  | n :: ns, k, hk => by
    unfold requestLoop
    by_cases hn : n.free = true
    · have hf : freeNodes (n :: ns) = n :: freeNodes ns := by simp [freeNodes, hn]
      rw [if_pos hn, hf]
      obtain ⟨j, rfl⟩ : ∃ j, k = j + 1 := ⟨k - 1, by omega⟩
      by_cases hj : j = 0
      · subst hj; simp
      · simp only [Nat.add_sub_cancel, if_neg hj, requestLoop_eq ns j (by omega)]
        simp
    · have hf : freeNodes (n :: ns) = freeNodes ns := by simp [freeNodes, hn]
      rw [if_neg hn, hf]
      exact requestLoop_eq ns k hk

theorem pmfFindQueue_effect (R : Regex) (st : State) (s : SessionId) (f : Bool)
    (hp : .init s ∈ st.scd) :
    Effect R st (.scd (.init s) f) (pmfFindQueue { st with scd := st.scd.erase (.init s) } s) := by
  unfold pmfFindQueue
  split
  · refine Effect.initHold s f _ hp (SameCore.update (SameCore.update (SameCore.refl _) ?_) ?_)
    · exact ⟨rfl, rfl, rfl⟩
    · simp [State.modAlloc, State.activateScd]
  · exact Effect.initQueue s f _ hp (SameCore.update (SameCore.refl _) ⟨rfl, rfl, rfl⟩)

theorem pmfSchedule_effect (R : Regex) (st : State) (f : Bool) (hp : .schedule ∈ st.scd) :
    Effect R st (.scd .schedule f) (pmfSchedule { st with scd := st.scd.erase .schedule }) := by
  cases hd : st.default with
  | nil => simpa [pmfSchedule, hd] using Effect.scheduleEmpty (R := R) f hp hd
  | cons s rest =>
    by_cases hfit : (st.alloc s).minNodes ≤ ((freeNodes st.nodes).length : Int)
    · simpa [pmfSchedule, hd, hfit, State.activateRm] using Effect.scheduleTake
        (R := R) f s rest hp hd hfit
    · have hwa := Effect.scheduleWait (R := R) f s rest hp hd (by omega)
      simpa [pmfSchedule, hd, hfit] using hwa

theorem pmfAllocated_effect (hp : .allocd s ∈ st.scd)
    (h : pmfAllocated R f { st with scd := st.scd.erase (.allocd s) } s = some st') :
    Effect R st (.scd (.allocd s) f) st' := by
  obtain ⟨A, hAd, hA⟩ : ∃ A,
    A = Function.update st.alloc s { st.alloc s with queues := some "running" } ∧
      SameCore A st.alloc := ⟨_, rfl, SameCore.update (SameCore.refl _) ⟨rfl, rfl, rfl⟩⟩
  simp only [pmfAllocated, State.modAlloc, State.activateRm, pmfAllocatedError, State.activateScd,
    ← hAd, (hA s).2.1, (hA s).2.2] at h
  cases hn : (st.alloc s).nodes with
  | none => simp [hn] at h
  | some nl =>
    simp only [hn] at h
    -- the three ways to the `ERROR` label end in the same state, up to the ACTIVE event
    have reject : accepts R f st s = false →
        some { st with
          alloc := A, running := (st.running ++ [s]).tail, default := s :: st.default
          scd := st.scd.erase (.allocd s) ++ [.schedule]
          rm := st.rm ++ if nl = "ERROR" then [] else [.active s] } = some st' →
        Effect R st (.scd (.allocd s) f) st' := by
      intro hrej he
      cases he
      exact Effect.allocdReject s f _ nl hp hA hn hrej
    split at h
    · rename_i he
      exact reject (by simp [accepts, hn, he]) (by simpa [he] using h)
    · rename_i hne
      split at h
      · rename_i hx
        exact reject (by simp [accepts, hn, hx]) (by simpa [hne] using h)
      · rename_i names hx
        split at h
        · rename_i hlen
          exact reject (by simp [accepts, hn, hx, hlen]) (by simpa [hne] using h)
        · rename_i hlen
          cases h
          exact Effect.allocdAccept s f _ nl names hp hA hn hne hx (by simpa using hlen)

theorem pmfTerminated_effect (R : Regex) (st : State) (a : Alloc) (f : Bool)
    (hp : .terminated a ∈ st.scd) :
    Effect R st (.scd (.terminated a) f)
      (pmfTerminated R f { st with scd := st.scd.erase (.terminated a) } a) := by
  unfold pmfTerminated
  cases hx : R.names f a.nodes with
  | none => exact Effect.terminatedFail a f hp hx
  | some names => exact Effect.terminated a f names hp hx

theorem pmfCancel_effect (R : Regex) (st : State) (id : SessionId) (f : Bool)
    (hp : .cancel id ∈ st.scd) :
    Effect R st (.scd (.cancel id) f)
      (pmfCancel { st with scd := st.scd.erase (.cancel id) } id) := by
  have hq : ∀ q : List SessionId,
      cancelQueued id q = (q.erase id, if id ∈ q then [ScdEvent.schedule] else []) := by
    intro q
    unfold cancelQueued
    split
    · rfl
    · rename_i hm; rw [erase_of_not_mem hm]
  have h : Effect R st (.scd (.cancel id) f) _ := Effect.cancel id f hp
  unfold pmfCancel
  by_cases hr : id ∈ st.running
  · simpa [hq, hr, State.activateRm] using h
  · simpa [hq, hr] using h

theorem scdBaseRmRequest_effect (R : Regex) (st : State) (s : SessionId) (f : Bool) (k : Nat)
    (hp : .req s ∈ st.rm) :
    Effect R st (.rm (.req s) f k)
      (scdBaseRmRequest R f { st with rm := st.rm.erase (.req s) } s) := by
  unfold scdBaseRmRequest
  by_cases hmin : 0 < (st.alloc s).minNodes
  · simp only [hmin, if_true]
    by_cases hleft : (requestLoop st.nodes (st.alloc s).minNodes.toNat).2 = 0
    · simp only [hleft, if_true]
      have h := Effect.reqGrant (R := R) s f k _ hp hmin hleft rfl
      cases hc : (if f then none else
          R.create (nodelist (requestLoop st.nodes (st.alloc s).minNodes.toNat).1)) with
      | none | some r => simpa [hc, State.modAlloc, State.activateScd] using h
    · simp only [hleft, if_false]
      exact Effect.reqShort s f k hp hmin hleft
  · simp only [hmin, if_false]
    exact Effect.reqNone s f k hp (by omega)

theorem scdBaseRmActive_effect {k : Nat} (hp : .active s ∈ st.rm)
    (h : scdBaseRmActive R f k { st with rm := st.rm.erase (.active s) } s = some st') :
    Effect R st (.rm (.active s) f k) st' := by
  unfold scdBaseRmActive at h
  simp only at h
  split at h
  · rename_i hx; cases h; exact Effect.activeNone s f k hp (Or.inl hx)
  · rename_i hx; cases h; exact Effect.activeNone s f k hp (Or.inr hx)
  · rename_i n0 names hx
    split at h
    · cases h
    · cases h
      have hco : SameCore (Function.update st.alloc s
          (if 0 < (st.alloc s).minNodes.toNat then
            { st.alloc s with hnpname := some n0, hnp := hnpOf st.nodes n0 (st.alloc s).hnp }
          else { st.alloc s with hnpname := some n0 })) st.alloc := by
        refine SameCore.update (SameCore.refl _) ?_
        split <;> exact ⟨rfl, rfl, rfl⟩
      have h := Effect.activeSend s f k _ (n0 :: names) hp hco hx (by simp)
      simpa using h

theorem scdBaseRmKill_effect {k : Nat} (hp : .kill s ∈ st.rm)
    (h : scdBaseRmKill R f k { st with rm := st.rm.erase (.kill s) } s = some st') :
    Effect R st (.rm (.kill s) f k) st' := by
  have hno := Effect.kill (R := R) s f k [] hp (by simp)
  simp only [append_nil] at hno
  unfold scdBaseRmKill at h
  simp only at h
  split at h
  · cases h; exact hno
  · cases h; exact hno
  · split at h
    · cases h
    · cases h
      refine Effect.kill s f k _ hp fun x hx => ?_
      obtain ⟨n, _, rfl⟩ := mem_map.1 (mem_of_mem_take hx)
      rfl

theorem step_effect {act : Act} (h : step R st act = some st') : Effect R st act st' := by
  cases act with
  | sessionReq a => cases h; exact Effect.sessionReq a
  | sessionCancel id => cases h; exact Effect.sessionCancel id
  | stepdComplete sender a => cases h; exact Effect.stepdComplete sender a
  | nodestateByproc x ps =>
    cases h; exact Effect.byproc x ps _
      (foldl_updateFirst_kept (fun p n => n.daemon = p) x x ps st.nodes)
  | nodestateByname x r f =>
    simp only [step] at h
    split at h
    · cases h; exact Effect.byname x r f st.nodes (NodesKept.refl _)
    · rename_i names _
      cases h
      exact Effect.byname x r f _
        (foldl_updateFirst_kept (fun nm n => n.name = nm) x _ names st.nodes)
  | scd e f =>
    simp only [step] at h
    split at h
    · rename_i hp
      cases e with
      | init s => cases h; exact pmfFindQueue_effect R st s f hp
      | schedule => cases h; exact pmfSchedule_effect R st f hp
      | allocd s => exact pmfAllocated_effect hp h
      | terminated a => cases h; exact pmfTerminated_effect R st a f hp
      | cancel id => cases h; exact pmfCancel_effect R st id f hp
    · cases h
  | rm e f k =>
    simp only [step] at h
    split at h
    · rename_i hp
      cases e with
      | req s => cases h; exact scdBaseRmRequest_effect R st s f k hp
      | active s => exact scdBaseRmActive_effect hp h
      | kill s => exact scdBaseRmKill_effect hp h
    · cases h

/-- What the error path of `pmf_allocated` does to the queues. -/
theorem Effect.rejected (h : Effect R st (.scd (.allocd s) f) st')
    (hacc : accepts R f st s = false) :
    st'.running = (st.running ++ [s]).tail ∧ st'.hold = st.hold ∧
      st'.default = s :: st.default := by
  cases h with
  | allocdAccept _ _ A nl names hp hA hn hne hx hlen =>
    have hyes : accepts R f st s = true := accepts_iff.2 ⟨nl, names, hn, hne, hx, hlen⟩
    rw [hacc] at hyes
    cases hyes
  | allocdReject => exact ⟨rfl, rfl, rfl⟩

/-! ## Steps that choose, mark or free no node -/

/-- REQ chooses nodes, ALLOCD marks them and TERMINATED frees them. -/
def Act.movesNodes : Act → Bool
  | .rm (.req _) _ _ | .scd (.allocd _) _ | .scd (.terminated _) _ => true
  | _ => false

/-- What every other step leaves alone. -/
structure Quiet (st st' : State) : Prop where
  nodes   : NodesKept st.nodes st'.nodes
  running : st'.running = st.running
  lists   : ∀ s : Nat, s ≤ st.lastSessionId → (st'.alloc s).nodes = (st.alloc s).nodes
  lastId  : st.lastSessionId ≤ st'.lastSessionId
  allocd  : ∀ s, .allocd s ∈ st'.scd → .allocd s ∈ st.scd
  active  : ∀ s, .active s ∈ st'.rm → .active s ∈ st.rm

theorem Effect.quiet {act : Act} (h : Effect R st act st') (hact : act.movesNodes = false) :
    Quiet st st' := by
  have same : ∀ s : Nat, s ≤ st.lastSessionId → (st.alloc s).nodes = (st.alloc s).nodes :=
    fun _ _ => rfl
  cases h with
  | sessionReq a =>
    refine ⟨NodesKept.refl _, rfl, fun s hs => ?_, Nat.le_succ _,
      fun s hs => by simpa using hs, fun _ h => h⟩
    have hne : s ≠ st.lastSessionId + 1 := by omega
    simp [Function.update_of_ne hne]
  | sessionCancel id =>
    exact ⟨NodesKept.refl _, rfl, same, Nat.le_refl _, fun s hs => by simpa using hs, fun _ h => h⟩
  | stepdComplete sender a =>
    refine ⟨NodesKept.refl _, rfl, same, Nat.le_refl _, fun s hs => ?_, fun _ h => h⟩
    rcases recvStepdComplete_events sender a st.tracking with he | he <;> simpa [he] using hs
  | byproc x ps ns hns | byname x r f ns hns =>
    exact ⟨hns, rfl, same, Nat.le_refl _, fun _ h => h, fun _ h => h⟩
  | initHold s f A hp hA | initQueue s f A hp hA =>
    refine ⟨NodesKept.refl _, rfl, fun t _ => (hA t).2.2, Nat.le_refl _,
      fun t ht => ?_, fun _ h => h⟩
    exact mem_of_mem_erase_append ht (by simp)
  | scheduleEmpty | scheduleWait =>
    exact ⟨NodesKept.refl _, rfl, same, Nat.le_refl _,
      fun _ ht => mem_of_mem_erase ht, fun _ h => h⟩
  | scheduleTake =>
    exact ⟨NodesKept.refl _, rfl, same, Nat.le_refl _, fun _ ht => mem_of_mem_erase ht,
      fun s hs => by simpa using hs⟩
  | cancel id f hp =>
    refine ⟨NodesKept.refl _, rfl, same, Nat.le_refl _, fun t ht => ?_, fun t ht => ?_⟩
    · rw [append_assoc] at ht
      exact mem_of_mem_erase_append ht (by simp)
    · simpa using ht
  | activeNone | kill =>
    exact ⟨NodesKept.refl _, rfl, same, Nat.le_refl _, fun _ h => h,
      fun _ ht => mem_of_mem_erase ht⟩
  | activeSend s f k A names hp hA =>
    exact ⟨NodesKept.refl _, rfl, fun t _ => (hA t).2.2, Nat.le_refl _, fun _ h => h,
      fun _ ht => mem_of_mem_erase ht⟩
  | allocdAccept | allocdReject | terminatedFail | terminated | reqNone | reqShort | reqGrant =>
    cases hact

end Sensys.Scd
