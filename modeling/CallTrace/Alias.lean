import CallTrace.CallGraph
import CallTrace.CallSite
import CallTrace.ClassFilter
import CallTrace.Log
import CallTrace.NameSet

/-!
# Alias groups

An alias map says which classes stand for one another at a call site. A graph has a map of its
own: the sites from which calls lead to two or more classes that are not hidden.
-/

namespace CallTrace

abbrev AliasMap := Table CallSite NameSet

namespace AliasMap

/-- A site that the map does not know has no aliases. -/
def group (a : AliasMap) (s : CallSite) : NameSet := (a.get? s).getD .empty

end AliasMap

namespace CallGraph

def addTarget (hidden : List String) (t : AliasMap) (c : Call) : AliasMap :=
  if CoveredBy hidden c.callee.owner then t
  else t.alter (.ofCall c) fun s => (s.getD .empty).insert c.callee.owner

/-- The classes that are not hidden, by the site from which calls lead to them. -/
def siteTargets (g : CallGraph) (hidden : List String) : AliasMap :=
  g.calls.foldl (addTarget hidden) .empty

def aliasGroups (g : CallGraph) (hidden : List String) : AliasMap :=
  (g.siteTargets hidden).filter fun _ s => 1 < s.size

/-- Reports how many sites have a target that is not hidden and how many of them are groups. -/
def groupsLog (g : CallGraph) (hidden : List String) : Log :=
  .groupsCollected (g.siteTargets hidden).size (g.aliasGroups hidden).size

theorem group_addTarget (hidden : List String) (t : AliasMap) (c : Call) (s : CallSite)
    (n : String) :
    n ∈ (addTarget hidden t c).group s ↔
      n ∈ t.group s ∨ s = .ofCall c ∧ n = c.callee.owner ∧ ¬ CoveredBy hidden n := by
  simp only [addTarget, AliasMap.group]
  split
  · next h =>
    constructor
    · exact .inl
    · rintro (hn | ⟨-, rfl, hc⟩)
      · exact hn
      · exact absurd h hc
  · next h =>
    rw [Table.get?_alter]
    split
    · next hs =>
      subst hs
      simp only [Option.getD_some, NameSet.mem_insert]
      constructor
      · rintro (rfl | hn)
        · exact .inr ⟨trivial, rfl, h⟩
        · exact .inl hn
      · rintro (hn | ⟨_, rfl, _⟩)
        · exact .inr hn
        · exact .inl rfl
    · next hs => simp [hs]

theorem mem_group_siteTargets {g : CallGraph} {hidden : List String} {s : CallSite} {n : String} :
    n ∈ (g.siteTargets hidden).group s ↔
      ¬ CoveredBy hidden n ∧ ∃ c ∈ g.calls, .ofCall c = s ∧ c.callee.owner = n := by
  have fold : ∀ (cs : List Call) (t : AliasMap),
      n ∈ (cs.foldl (addTarget hidden) t).group s ↔
        n ∈ t.group s ∨ ¬ CoveredBy hidden n ∧ ∃ c ∈ cs, .ofCall c = s ∧ c.callee.owner = n := by
    intro cs
    induction cs with
    | nil => simp
    | cons c cs ih =>
      intro t
      rw [List.foldl_cons, ih, group_addTarget]
      simp only [List.mem_cons, exists_eq_or_imp]
      grind
  have h := fold g.calls .empty
  simpa [siteTargets, AliasMap.group] using h

end CallGraph

end CallTrace
