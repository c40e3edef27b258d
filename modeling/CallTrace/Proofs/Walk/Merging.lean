import CallTrace.Proofs.Alias.Picks
import CallTrace.Proofs.Walk.Expansions

/-!
# Walks with the groups of their graph

The groups of a graph leave hidden classes out. A callee of such a walk is shown under its own
class or under those of its whole group, and whether it is stopped depends on its own class alone.
-/

namespace CallTrace.Walk

/-- A walk over recorded calls that takes the groups from their graph. -/
def grouped (cs : List Call) (p : Policy) : Walk where
  graph := .ofCalls cs
  policy := { p with aliases := (CallGraph.ofCalls cs).aliasGroups p.classes.hidden }
  grouping := .byAlias

/-- The classes that stand for one another at the site of a call. -/
def peers (cs : List Call) (p : Policy) (c : Call) : NameSet :=
  ((CallGraph.ofCalls cs).aliasGroups p.classes.hidden).group (.ofCall c)

section

variable {cs : List Call} {p : Policy} {c : Call}

theorem not_hides_of_mem_peers {n : String} (h : n ∈ peers cs p c) : ¬ p.classes.Hides n :=
  CallGraph.not_coveredBy_of_mem_group h

theorem owner_mem_peers {n : String} (h : n ∈ peers cs p c) (hc : c ∈ cs)
    (hhid : ¬ p.classes.Hides c.callee.owner) : c.callee.owner ∈ peers cs p c := by
  apply CallGraph.owner_mem_group h
  · rw [CallGraph.calls_ofCalls]
    exact hc
  · exact hhid

theorem peers_of_site_eq {d : Call} (h : CallSite.ofCall d = .ofCall c) :
    peers cs p d = peers cs p c := by
  rw [peers, h]
  rfl

theorem indexed_grouped : (grouped cs p).Indexed := indexed_ofCalls _ _ _

theorem mem_of_mem_grouped {m : Method} {k : Pick} (hk : k ∈ (grouped cs p).offers m) :
    k.call ∈ cs :=
  (call_mem_of_mem_offers hk).1

theorem follow_mem_grouped_iff {m : Method} :
    .follow c ∈ (grouped cs p).offers m ↔
      c ∈ (grouped cs p).graph.callsFrom m ∧ p.classes.Follows c.callee.owner ∧
        (c.callee.owner ∉ peers cs p c ∨
          Grouping.leader? p.classes (grouped cs p).policy.aliases (.ofCall c)
            ((grouped cs p).graph.callsFrom m) = some c) := by
  refine Grouping.follow_mem_scan_iff.trans ?_
  rw [Grouping.FollowedBy, and_iff_right (List.not_mem_nil : CallSite.ofCall c ∉ [])]
  rfl

variable (hplain : ∀ c ∈ cs, Trace.Plain c.callee.owner)

include hplain

theorem plain_of_mem_peers {n : String} (h : n ∈ peers cs p c) : Trace.Plain n := by
  obtain ⟨d, hd, -, rfl⟩ := CallGraph.exists_call_of_mem_group h
  rw [CallGraph.calls_ofCalls] at hd
  exact hplain d hd

theorem nameAt_of_mem_peers (h : c.callee.owner ∈ peers cs p c) :
    (grouped cs p).nameAt (.ofCall c) = Grouping.joined (peers cs p c) :=
  (nameAt_ofCall rfl fun _ => plain_of_mem_peers hplain).trans (if_pos h)

theorem nameAt_of_not_mem_peers (h : c.callee.owner ∉ peers cs p c) :
    (grouped cs p).nameAt (.ofCall c) = c.callee.owner :=
  (nameAt_ofCall rfl fun _ => plain_of_mem_peers hplain).trans (if_neg h)

/-- A callee is shown under its own class or, if that has peers, under all of them. -/
theorem mem_candidates_iff (hc : c ∈ cs) {n : String} :
    n ∈ Trace.candidates ((grouped cs p).nameAt (.ofCall c)) ↔
      n = c.callee.owner ∨ c.callee.owner ∈ peers cs p c ∧ n ∈ peers cs p c := by
  by_cases h : c.callee.owner ∈ peers cs p c
  · have hne : (peers cs p c).names ≠ [] := List.ne_nil_of_mem h
    rw [nameAt_of_mem_peers hplain h,
      Grouping.candidates_joined (fun _ => plain_of_mem_peers hplain) hne, ← NameSet.mem_def,
      and_iff_right h]
    constructor
    · exact .inr
    · intro hn
      cases hn with
      | inl heq =>
        rw [heq]
        exact h
      | inr hn => exact hn
  · rw [nameAt_of_not_mem_peers hplain h, Trace.candidates_of_plain (hplain c hc),
      List.mem_singleton]
    exact (or_iff_left fun hn => h hn.1).symm

/-- A callee is stopped if its own class is hidden, whatever its peers are. -/
theorem verdictAt_eq_walked_iff_not_hides (hc : c ∈ cs) :
    (grouped cs p).verdictAt (.ofCall c) = .walked ↔ ¬ p.classes.Hides c.callee.owner := by
  rw [verdictAt_eq_walked_iff]
  constructor
  · intro h
    exact h _ (owner_mem_candidates _ (hplain c hc))
  · intro h n hn
    cases (mem_candidates_iff hplain hc).mp hn with
    | inl heq =>
      rw [heq]
      exact h
    | inr hpeers => exact not_hides_of_mem_peers hpeers.2

theorem passes_ofCall_iff (hc : c ∈ cs) :
    (grouped cs p).Passes (.ofCall c) ↔
      c.callee.name ∉ p.cutMethods ∧ ¬ p.classes.Hides c.callee.owner :=
  and_congr_right' (verdictAt_eq_walked_iff_not_hides hplain hc)

theorem verdictAt_of_hides (hc : c ∈ cs) (h : p.classes.Hides c.callee.owner) :
    (grouped cs p).verdictAt (.ofCall c) =
      if p.IsSink c.callee.owner c.callee.name then .sink else .hidden := by
  have hown : c.callee.owner ∉ peers cs p c := fun hmem => not_hides_of_mem_peers hmem h
  have hfind : (Trace.candidates c.callee.owner).find?
      (fun n => decide ((grouped cs p).policy.classes.Hides n)) = some c.callee.owner := by
    rw [Trace.candidates_of_plain (hplain c hc)]
    exact List.find?_cons_of_pos (decide_eq_true h)
  rw [verdictAt, nameAt_of_not_mem_peers hplain hown, verdict, hfind]
  rfl

end

end CallTrace.Walk
