import CallTrace.Proofs.Alias.Groups
import CallTrace.Proofs.Alias.Positions
import CallTrace.Proofs.Graph.Index
import Mathlib.Data.Finset.Card

/-!
# Groups of a graph and what is followed

The methods of a class share their call sites, so a graph collects the classes of a site over all its
calls, while the calls to follow are picked for each method on its own. With the groups of its graph a
scan leaves one call for each site to which two or more classes answer, besides those to hidden
classes.
-/

namespace CallTrace

/-- The classes that are not hidden and to which a recorded call leads from the site. -/
def targetsAt (cs : List Call) (hidden : List String) (s : CallSite) : Finset String :=
  ((cs.filter fun c => .ofCall c = s ∧ ¬ CoveredBy hidden c.callee.owner).map
    fun c => c.callee.owner).toFinset

/-- The call at a place of `out` leads to a hidden class, or less than two classes answer at its site,
or no call of its site before it leads to a class that is not hidden. -/
def Stays (cs : List Call) (hidden : List String) (out : List Call) (i : Fin out.length) : Prop :=
  CoveredBy hidden (out.get i).callee.owner ∨
    (targetsAt cs hidden (.ofCall (out.get i))).card < 2 ∨
    ∀ j < i, CallSite.ofCall (out.get j) = .ofCall (out.get i) →
      CoveredBy hidden (out.get j).callee.owner

instance (cs : List Call) (hidden : List String) (out : List Call) :
    DecidablePred (Stays cs hidden out) :=
  fun _ => inferInstanceAs (Decidable (_ ∨ _ ∨ _))

section

variable {cs : List Call} {hidden : List String} {s : CallSite} {n : String} {c : Call}

theorem mem_targetsAt :
    n ∈ targetsAt cs hidden s ↔
      ¬ CoveredBy hidden n ∧ ∃ c ∈ cs, .ofCall c = s ∧ c.callee.owner = n := by
  simp only [targetsAt, List.mem_toFinset, List.mem_map, List.mem_filter, decide_eq_true_iff]
  constructor
  · rintro ⟨c, ⟨hc, hsite, hhid⟩, rfl⟩
    exact ⟨hhid, c, hc, hsite, rfl⟩
  · rintro ⟨hhid, c, hc, hsite, rfl⟩
    exact ⟨c, ⟨hc, hsite, hhid⟩, rfl⟩

theorem mem_group_siteTargets_ofCalls :
    n ∈ ((CallGraph.ofCalls cs).siteTargets hidden).group s ↔ n ∈ targetsAt cs hidden s := by
  rw [CallGraph.mem_group_siteTargets, CallGraph.calls_ofCalls, mem_targetsAt]

theorem NameSet.size_eq_card (ns : NameSet) : ns.size = ns.names.toFinset.card :=
  (List.toFinset_card_of_nodup ns.nodup).symm

theorem size_group_siteTargets_ofCalls :
    (((CallGraph.ofCalls cs).siteTargets hidden).group s).size =
      (targetsAt cs hidden s).card := by
  rw [NameSet.size_eq_card]
  congr 1
  ext n
  rw [List.mem_toFinset, ← NameSet.mem_def, mem_group_siteTargets_ofCalls]

theorem get?_aliasGroups_ofCalls :
    ((CallGraph.ofCalls cs).aliasGroups hidden).get? s =
      if 2 ≤ (targetsAt cs hidden s).card then
        some (((CallGraph.ofCalls cs).siteTargets hidden).group s)
      else none := by
  rw [CallGraph.get?_aliasGroups, size_group_siteTargets_ofCalls]
  rfl

theorem mem_group_aliasGroups_ofCalls :
    n ∈ ((CallGraph.ofCalls cs).aliasGroups hidden).group s ↔
      2 ≤ (targetsAt cs hidden s).card ∧ n ∈ targetsAt cs hidden s := by
  rw [AliasMap.group, get?_aliasGroups_ofCalls]
  by_cases hsize : 2 ≤ (targetsAt cs hidden s).card
  · rw [if_pos hsize, and_iff_right hsize]
    exact mem_group_siteTargets_ofCalls
  · rw [if_neg hsize]
    exact iff_of_false NameSet.not_mem_empty fun h => hsize h.1

/-- Whether a recorded call leads into the group of its site. -/
theorem owner_mem_group_aliasGroups_iff (hc : c ∈ cs) :
    c.callee.owner ∈ ((CallGraph.ofCalls cs).aliasGroups hidden).group (.ofCall c) ↔
      2 ≤ (targetsAt cs hidden (.ofCall c)).card ∧ ¬ CoveredBy hidden c.callee.owner := by
  rw [mem_group_aliasGroups_ofCalls, mem_targetsAt]
  exact and_congr_right' (and_iff_left ⟨c, hc, rfl, rfl⟩)

theorem kept_iff_stays {out : List Call} (hout : ∀ c ∈ out, c ∈ cs) (i : Fin out.length) :
    Grouping.Kept { hidden } ((CallGraph.ofCalls cs).aliasGroups hidden) out i ↔
      Stays cs hidden out i := by
  have hall (n : String) : ClassFilter.Follows { hidden } n := .inl rfl
  have hmem (j : Fin out.length) : out.get j ∈ cs := hout _ (List.get_mem out j)
  rw [Grouping.Kept, Stays, and_iff_right (hall _), owner_mem_group_aliasGroups_iff (hmem i)]
  by_cases hhid : CoveredBy hidden (out.get i).callee.owner
  · exact iff_of_true (.inl fun h => h.2 hhid) (.inl hhid)
  by_cases hsize : 2 ≤ (targetsAt cs hidden (.ofCall (out.get i))).card
  · -- the site has a group: a call enters it exactly if its class is not hidden
    have henters (j : Fin out.length) :
        ¬ Grouping.Enters { hidden } ((CallGraph.ofCalls cs).aliasGroups hidden)
            (.ofCall (out.get i)) (out.get j) ↔
          (CallSite.ofCall (out.get j) = .ofCall (out.get i) →
            CoveredBy hidden (out.get j).callee.owner) := by
      rw [Grouping.Enters, and_iff_right (hall _), not_and]
      refine forall_congr' fun hsite => ?_
      rw [← hsite, owner_mem_group_aliasGroups_iff (hmem j), hsite, and_iff_right hsize,
        Decidable.not_not]
    simp only [henters, hhid, hsize, Nat.not_lt.mpr hsize, not_true_eq_false, not_false_eq_true,
      and_self, false_or]
  · exact iff_of_true (.inl fun h => hsize h.1) (.inr (.inl (Nat.lt_of_not_le hsize)))

end

/-- A graph has a group for a site exactly if two or more classes that are not hidden answer there,
and the group is the set of these classes. With these groups a scan of the calls that leave a method
follows every call to a hidden class and every call of a site without a group; of the others it follows
for each site the first one and no further one. -/
theorem groups_leave_one_call_each (cs : List Call) (hidden : List String) :
    let g := CallGraph.ofCalls cs
    let a := g.aliasGroups hidden
    (∀ s, (s ∈ a.keys ↔ 2 ≤ (targetsAt cs hidden s).card) ∧
      ∀ ns, a.get? s = some ns → ∀ n, n ∈ ns ↔ n ∈ targetsAt cs hidden s) ∧
    ∀ m,
      let out := g.callsFrom m
      Pick.followed (Grouping.byAlias.picks { hidden } a out) =
        ((List.finRange out.length).filter fun i => Stays cs hidden out i).map out.get := by
  intro g a
  refine ⟨?_, ?_⟩
  · intro s
    have hget : a.get? s = _ := get?_aliasGroups_ofCalls
    constructor
    · rw [← not_iff_not, ← Table.get?_eq_none_iff, hget]
      simp
    · intro ns hns n
      rw [hget] at hns
      split at hns
      · obtain rfl := Option.some.inj hns
        exact mem_group_siteTargets_ofCalls
      · cases hns
  · intro m out
    have hout : ∀ c ∈ out, c ∈ cs := fun c hc => (CallGraph.mem_callsFrom_ofCalls.mp hc).1
    rw [Grouping.followed_picks]
    refine congrArg _ (List.filter_congr fun i _ => ?_)
    exact decide_eq_decide.mpr (kept_iff_stays hout i)

/-- Two methods of `M` share a site without a line. Since the second one calls `B` there, the two
methods of `A` that the first one calls make a group, and only one of them is followed. -/
example :
    let f : Method := { name := "f", owner := "M" }
    let g : Method := { name := "g", owner := "M" }
    let plain : Method := { name := "run", owner := "A" }
    let overload : Method := { name := "run", owner := "A", parameters := ["int"] }
    let other : Method := { name := "run", owner := "B" }
    let c : Call := { caller := f, callee := plain }
    let cs : List Call := [c, { caller := f, callee := overload }, { caller := g, callee := other }]
    let graph := CallGraph.ofCalls cs
    Pick.followed (Grouping.byAlias.picks {} (graph.aliasGroups []) (graph.callsFrom f)) = [c] := by
  decide +kernel

end CallTrace
