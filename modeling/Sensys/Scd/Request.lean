import Sensys.Scd.Places
/-!
# What a request is answered with

SCHEDULE counts the free nodes (`scd_pmf.c:205-222`), REQ looks for them (`scd_base_rm.c:81-146`),
and messages about nodes may be handled between the two. Without enough nodes REQ leaves the list
of the session as it was, and raises ALLOCD all the same.
-/
namespace Sensys.Scd
open Run

/-- If ALLOCD is raised, then with a list made from as many nodes of the pool as are wanted, all
of them free, or with the marker of a list that cannot be made. -/
def GrantsFree (R : Regex) (fault : Bool) (st : State) (s : SessionId) : Prop :=
  (scdBaseRmRequest R fault st s).scd ≠ st.scd →
    ∃ ns : List Node, ns.Sublist st.nodes ∧ (∀ n ∈ ns, n.free = true) ∧
    (ns.length : Int) = (st.alloc s).minNodes ∧
      ((scdBaseRmRequest R fault st s).alloc s).nodes =
        some ((if fault then none else R.create (nodelist (ns.map Node.name))).getD "ERROR")

theorem length_le_freeNodes {ns nodes : List Node} (h : ns.Sublist nodes)
    (hf : ∀ n ∈ ns, n.free = true) :
    ns.length ≤ (freeNodes nodes).length := by
  have hsub := h.filter Node.free
  rw [List.filter_eq_self.2 hf] at hsub
  exact hsub.length_le

theorem scd_scdBaseRmRequest {st : State} {s : SessionId} (R : Regex) (fault : Bool)
    (hmin : 0 < (st.alloc s).minNodes) :
    (scdBaseRmRequest R fault st s).scd = st.scd ++ [.allocd s] := by
  simp only [scdBaseRmRequest, hmin, if_true]
  split
  · split <;> rfl
  · rfl

/-- **Sessions are granted free nodes only**, whatever has been handled before, exactly if enough
are free when REQ is handled. -/
theorem grantsFree_iff (R : Regex) (fault : Bool) (st : State) (s : SessionId) :
    GrantsFree R fault st s ↔
    (0 < (st.alloc s).minNodes → (st.alloc s).minNodes ≤ ((freeNodes st.nodes).length : Int)) := by
  unfold GrantsFree
  by_cases hmin : 0 < (st.alloc s).minNodes
  · rw [scd_scdBaseRmRequest R fault hmin]
    constructor
    · intro h _
      obtain ⟨ns, hsub, hf, hlen, -⟩ := h (by simp)
      have := length_le_freeNodes hsub hf
      omega
    · intro h _
      refine ⟨(freeNodes st.nodes).take (st.alloc s).minNodes.toNat,
        (List.take_sublist _ _).trans List.filter_sublist, ?_, ?_, ?_⟩
      · exact fun n hn => (List.mem_filter.1 (List.mem_of_mem_take hn)).2
      · rw [List.length_take]
        omega
      · simp only [scdBaseRmRequest, hmin, if_true, requestLoop_eq st.nodes _ (Int.lt_toNat.2 hmin)]
        rw [if_pos (by omega), List.map_take]
        cases if fault then none
          else R.create (nodelist
          (((freeNodes st.nodes).map Node.name).take (st.alloc s).minNodes.toNat)) <;>
          simp [State.activateScd, State.modAlloc]
  · simp [scdBaseRmRequest, hmin]

/-- Two nodes are free for session 1 at its SCHEDULE. One goes down before its REQ, and ALLOCD is
raised without a list. -/
theorem down_before_request : ∃ st, run (step sampleRegex) sampleState
      [request 2, .scd (.init 1) false, .scd .schedule false, .nodestateByproc .down [⟨0, 1⟩]] =
        some st ∧ .req 1 ∈ st.rm ∧
      .allocd 1 ∈ (scdBaseRmRequest sampleRegex false st 1).scd ∧
      ¬ GrantsFree sampleRegex false st 1 := by
  obtain ⟨st, hst, hreq, hra, hnon, hno⟩ : ∃ st, run (step sampleRegex) sampleState
      [request 2, .scd (.init 1) false, .scd .schedule false, .nodestateByproc .down [⟨0, 1⟩]] =
        some st ∧ .req 1 ∈ st.rm ∧
      .allocd 1 ∈ (scdBaseRmRequest sampleRegex false st 1).scd ∧ st.scd = [] ∧
      ((scdBaseRmRequest sampleRegex false st 1).alloc 1).nodes = none := by decide
  refine ⟨st, hst, hreq, hra, fun h => ?_⟩
  obtain ⟨ns, -, -, -, hl⟩ := h fun heq => by
    rw [heq, hnon] at hra
    cases hra
  rw [hno] at hl
  cases hl

end Sensys.Scd
