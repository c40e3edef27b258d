import CallTrace.Grouping
import CallTrace.Trace.Line

/-!
# The groups of a graph

A graph puts into the group of a call site the classes that are not hidden and to which a call
leads from there, if there are two or more. The joined name of a group gives its members back
when no class name contains the separator.
-/

namespace CallTrace

namespace Trace

/-- The class name is one candidate and not several. -/
def Plain (className : String) : Prop := classSeparator ∉ className.toList

instance (className : String) : Decidable (Plain className) :=
  inferInstanceAs (Decidable (_ ∉ _))

theorem candidates_of_plain {n : String} (h : Plain n) : candidates n = [n] := by
  rw [candidates, List.splitOn_eq_singleton h, List.map_singleton, String.ofList_toList]

theorem plain_of_mem_candidates {n className : String} (h : n ∈ candidates className) : Plain n := by
  obtain ⟨l, hl, rfl⟩ := List.mem_map.mp h
  rw [Plain, String.toList_ofList]
  exact Text.not_mem_of_mem_splitOn hl

end Trace

namespace Grouping

theorem candidates_joined {ns : NameSet} (hplain : ∀ n ∈ ns, Trace.Plain n) (hne : ns.names ≠ []) :
    Trace.candidates (joined ns) = ns.names := by
  have hsplit : ∀ l ∈ ns.names.map String.toList, Trace.classSeparator ∉ l := by
    intro l hl
    obtain ⟨n, hn, rfl⟩ := List.mem_map.mp hl
    exact hplain n hn
  have hjoin : (joined ns).toList =
      [Trace.classSeparator].intercalate (ns.names.map String.toList) :=
    String.toList_intercalate
  rw [Trace.candidates, hjoin, List.splitOn_intercalate _ hsplit (by simpa using hne)]
  simp [Function.comp_def]

/-- The members of a group can be read off its name, and an empty group has no candidate that is
a class. -/
theorem mem_candidates_joined {ns : NameSet} (hplain : ∀ n ∈ ns, Trace.Plain n) {n : String}
    (hn : n ≠ "") : n ∈ Trace.candidates (joined ns) ↔ n ∈ ns := by
  by_cases hne : ns.names = []
  · have hempty : joined ns = "" := by
      rw [joined, hne]
      rfl
    have hplain : Trace.Plain "" := by decide
    rw [hempty, Trace.candidates_of_plain hplain, List.mem_singleton, NameSet.mem_def, hne]
    exact iff_of_false hn List.not_mem_nil
  · rw [candidates_joined hplain hne]
    exact NameSet.mem_def.symm

theorem candidates_display_ofList {ns : List String} (hne : ns ≠ [])
    (hplain : ∀ n ∈ ns, Trace.Plain n) :
    Trace.candidates (byAlias.display (.ofList ns)) = (NameSet.ofList ns).names := by
  apply candidates_joined
  · intro n hn
    exact hplain n (NameSet.mem_ofList.mp hn)
  · obtain ⟨n, hn⟩ := List.exists_mem_of_ne_nil ns hne
    exact List.ne_nil_of_mem (NameSet.mem_ofList.mpr hn)

/-- The name of a group, cut at the separators, is the increasing list of the members without
repetitions. So the name tells exactly who is in the group, and neither order nor repetitions in the
list that the group was made from. -/
theorem members_read_back_from_display {ns : List String} (hne : ns ≠ [])
    (hplain : ∀ n ∈ ns, Trace.Plain n) :
    let pieces := Trace.candidates (byAlias.display (.ofList ns))
    (∀ l, pieces = l ↔ l.Pairwise (· < ·) ∧ ∀ n, n ∈ l ↔ n ∈ ns) ∧
      (∀ n, n ∈ pieces ↔ n ∈ ns) ∧
      ∀ ms, ms ≠ [] → (∀ n ∈ ms, Trace.Plain n) →
        (byAlias.display (.ofList ms) = byAlias.display (.ofList ns) ↔ ∀ n, n ∈ ms ↔ n ∈ ns) := by
  intro pieces
  have hpieces : pieces = (NameSet.ofList ns).names := candidates_display_ofList hne hplain
  refine ⟨?_, ?_, ?_⟩
  · intro l
    rw [hpieces, NameSet.names_eq_iff]
    simp only [NameSet.mem_ofList]
  · intro n
    rw [hpieces, ← NameSet.mem_def, NameSet.mem_ofList]
  · intro ms hms hmsplain
    rw [← NameSet.ofList_eq_ofList_iff]
    constructor
    · intro h
      have hnames : (NameSet.ofList ms).names = (NameSet.ofList ns).names := by
        rw [← candidates_display_ofList hms hmsplain, h, candidates_display_ofList hne hplain]
      apply NameSet.ext
      intro n
      rw [NameSet.mem_def, hnames, NameSet.mem_def]
    · intro h
      rw [h]

/-- A nameless class comes first and leaves a separator at the front of the name. -/
theorem nameless_class_read_back :
    let ns := ["Disk", "", "Cloud", "Disk"]
    let ms := ["Cloud", "Disk", ""]
    let ks := ["Cloud", "Disk"]
    ns ≠ [] ∧ (∀ n ∈ ns, Trace.Plain n) ∧ byAlias.display (.ofList ns) = ":Cloud:Disk" ∧
      Trace.candidates (byAlias.display (.ofList ns)) = ["", "Cloud", "Disk"] ∧
      byAlias.display (.ofList ms) = byAlias.display (.ofList ns) ∧
      byAlias.display (.ofList ks) ≠ byAlias.display (.ofList ns) := by
  intro ns ms ks
  have hne : ns ≠ [] := List.cons_ne_nil _ _
  have hplain : ∀ n ∈ ns, Trace.Plain n := by decide +revert
  have hmsplain : ∀ n ∈ ms, Trace.Plain n := by decide +revert
  have hksplain : ∀ n ∈ ks, Trace.Plain n := by decide +revert
  have hname : byAlias.display (.ofList ns) = ":Cloud:Disk" := by decide +kernel +revert
  obtain ⟨hpieces, -, hsame⟩ := members_read_back_from_display hne hplain
  refine ⟨hne, hplain, hname, ?_, ?_, ?_⟩
  · have hmembers : ∀ n, n ∈ ["", "Cloud", "Disk"] ↔ n ∈ ns := by grind
    exact (hpieces _).mpr ⟨by decide, hmembers⟩
  · have hmembers : ∀ n, n ∈ ms ↔ n ∈ ns := by grind
    exact (hsame ms (List.cons_ne_nil _ _) hmsplain).mpr hmembers
  · intro h
    have hmember := (hsame ks (List.cons_ne_nil _ _) hksplain).mp h ""
    simp [ks, ns] at hmember

end Grouping

/-- Only a site that the map knows has a group with members. -/
theorem AliasMap.group_mem_values {a : AliasMap} {s : CallSite} {n : String} (h : n ∈ a.group s) :
    a.group s ∈ a.values := by
  simp only [group] at h ⊢
  cases hget : a.get? s with
  | none =>
    rw [hget] at h
    exact absurd h NameSet.not_mem_empty
  | some ns => exact Table.mem_values_of_get?_eq_some hget

namespace Table

variable {κ : Type _} {α : Type _} [DecidableEq κ]

theorem find_filter {p : κ → α → Bool} {k : κ} {es : List (κ × α)}
    (hkeys : (es.map Prod.fst).Nodup) :
    find k (es.filter fun e => p e.1 e.2) = (find k es).filter (p k) := by
  induction es with
  | nil => rfl
  | cons e es ih =>
    obtain ⟨hnew, hkeys⟩ := List.nodup_cons.mp hkeys
    by_cases hk : e.1 = k
    · subst hk
      have hnone : find e.1 es = none := find_eq_none_iff.mpr hnew
      have hlater := ih hkeys
      rw [hnone] at hlater
      by_cases hp : p e.1 e.2 = true
      · simp [find, hp, Option.filter]
      · simp [find, hp, hlater, Option.filter]
    · by_cases hp : p e.1 e.2 = true
      · simp [find, hp, hk, ih hkeys]
      · simp [find, hp, hk, ih hkeys]

theorem get?_filter (p : κ → α → Bool) (t : Table κ α) (k : κ) :
    (t.filter p).get? k = (t.get? k).filter (p k) :=
  find_filter t.keys_nodup

end Table

namespace CallGraph

variable {g : CallGraph} {hidden : List String} {s : CallSite} {n : String}

theorem get?_aliasGroups :
    (g.aliasGroups hidden).get? s =
      if 1 < ((g.siteTargets hidden).group s).size then some ((g.siteTargets hidden).group s)
      else none := by
  rw [aliasGroups, AliasMap.group, Table.get?_filter]
  cases (g.siteTargets hidden).get? s with
  | none => rfl
  | some ns =>
    rw [Option.filter_some, Option.getD_some]
    by_cases hsize : 1 < ns.size <;> simp [hsize]

theorem group_aliasGroups :
    (g.aliasGroups hidden).group s =
      if 1 < ((g.siteTargets hidden).group s).size then (g.siteTargets hidden).group s
      else .empty := by
  rw [AliasMap.group, get?_aliasGroups]
  split <;> rfl

theorem mem_siteTargets_of_mem_group (h : n ∈ (g.aliasGroups hidden).group s) :
    n ∈ (g.siteTargets hidden).group s ∧
      (g.aliasGroups hidden).group s = (g.siteTargets hidden).group s := by
  rw [group_aliasGroups] at h ⊢
  split at h
  · next hsize =>
    rw [if_pos hsize]
    exact ⟨h, rfl⟩
  · exact absurd h NameSet.not_mem_empty

theorem not_coveredBy_of_mem_group (h : n ∈ (g.aliasGroups hidden).group s) :
    ¬ CoveredBy hidden n :=
  (mem_group_siteTargets.mp (mem_siteTargets_of_mem_group h).1).1

theorem exists_call_of_mem_group (h : n ∈ (g.aliasGroups hidden).group s) :
    ∃ c ∈ g.calls, .ofCall c = s ∧ c.callee.owner = n :=
  (mem_group_siteTargets.mp (mem_siteTargets_of_mem_group h).1).2

/-- A group leaves out none of the classes that are not hidden. -/
theorem owner_mem_group {c : Call} (h : n ∈ (g.aliasGroups hidden).group (.ofCall c))
    (hc : c ∈ g.calls) (hhid : ¬ CoveredBy hidden c.callee.owner) :
    c.callee.owner ∈ (g.aliasGroups hidden).group (.ofCall c) := by
  rw [(mem_siteTargets_of_mem_group h).2]
  exact mem_group_siteTargets.mpr ⟨hhid, c, hc, rfl, rfl⟩

/-- The groups of a graph do not depend on the order of its calls. -/
theorem get?_aliasGroups_congr {g h : CallGraph} (hcalls : ∀ c, c ∈ g.calls ↔ c ∈ h.calls)
    (hidden : List String) (s : CallSite) :
    (g.aliasGroups hidden).get? s = (h.aliasGroups hidden).get? s := by
  have htargets : (g.siteTargets hidden).group s = (h.siteTargets hidden).group s := by
    apply NameSet.ext
    intro n
    simp only [mem_group_siteTargets, hcalls]
  rw [get?_aliasGroups, get?_aliasGroups, htargets]

end CallGraph

end CallTrace
