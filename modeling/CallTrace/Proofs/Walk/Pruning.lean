import CallTrace.Proofs.Walk.Blocks
import CallTrace.Proofs.Walk.Merging

/-!
# Walks that select less

A walk that selects some of the calls of another one, and judges their callees alike, shows some of
its lines, in the same order and under names of its own. With the groups of the graph a walk selects
less than without groups, and no group changes the verdict on a callee.
-/

namespace CallTrace.Walk

/-- A line apart from its class name. -/
def unnamed (l : Trace.Line × Method) : Trace.Line × Method := ({ l.1 with className := "" }, l.2)

/-- `w` selects some of the calls that `v` selects, and nothing else makes it show other lines than
`v`, but for class names. -/
structure Prunes (w v : Walk) : Prop where
  cutMethods_eq : w.policy.cutMethods = v.policy.cutMethods
  depthBound_eq : w.policy.depthBound = v.policy.depthBound
  sublist_selected : ∀ m, (w.selected m).Sublist (v.selected m)
  verdictAt_eq : ∀ m, ∀ c ∈ w.selected m, w.verdictAt (.ofCall c) = v.verdictAt (.ofCall c)

namespace Prunes

variable {w v : Walk} (h : w.Prunes v) {a : Arrival} (ha : w.verdictAt a = v.verdictAt a)

include ha in
theorem unnamed_lineAt (d : Nat) : unnamed (w.lineAt d a) = unnamed (v.lineAt d a) := by
  simp only [unnamed, lineAt, shownLine, ha]

include h ha

theorem shows_iff : w.Shows a ↔ v.Shows a := by
  rw [Shows, Shows, h.cutMethods_eq, ha]

theorem descends_iff (closed : List Method) (d : Nat) :
    w.Descends closed d a ↔ v.Descends closed d a := by
  rw [Descends, Descends, Passes, Passes, Admits, Admits, BoundReached, BoundReached,
    h.cutMethods_eq, h.depthBound_eq, ha]

omit ha in
theorem narrows :
    w.Narrows v (fun l => some (unnamed l)) fun a => w.verdictAt a = v.verdictAt a where
  sublist_own a d ha := by
    simp only [h.shows_iff ha, List.filterMap_eq_map', apply_ite (List.map unnamed),
      List.map_singleton, unnamed_lineAt ha]
    exact .refl _
  descends closed d _ ha := (h.descends_iff ha closed d).mp
  sublist_selected m := List.filter_sublist.trans (h.sublist_selected m)
  view_block_eq_nil _ _ m c hc hne := absurd (h.verdictAt_eq m c hc) hne

end Prunes

/-- At an arrival that both walks judge alike, the one that selects less shows some of the lines of
the other. -/
theorem block_sublist {w v : Walk} (h : w.Prunes v) (hw : w.Indexed) (hv : v.Indexed)
    (hwscope : w.policy.scope = .path) (hvscope : v.policy.scope = .path) (closed : List Method)
    (d : Nat) (a : Arrival) (ha : w.verdictAt a = v.verdictAt a) :
    ((w.block closed d a).map unnamed).Sublist ((v.block closed d a).map unnamed) := by
  rw [← List.filterMap_eq_map']
  exact h.narrows.block_sublist hw hv hwscope hvscope closed d a ha

/-- The verdict on a method for its own class alone. -/
def ownVerdict (p : Policy) (m : Method) : Verdict :=
  if p.classes.Hides m.owner then if p.IsSink m.owner m.name then .sink else .hidden else .walked

theorem verdict_owner (w : Walk) {m : Method} (h : Trace.Plain m.owner) :
    w.verdict m m.owner = ownVerdict w.policy m := by
  rw [verdict, Trace.candidates_of_plain h, ownVerdict]
  by_cases hhid : w.policy.classes.Hides m.owner
  · simp [hhid]
  · simp [hhid]

/-- The walk that takes no groups from its graph. -/
def ungrouped (cs : List Call) (p : Policy) : Walk where
  graph := .ofCalls cs
  policy := { p with aliases := .empty }
  grouping := .byAlias

theorem not_mem_group_empty (s : CallSite) (n : String) : n ∉ AliasMap.group .empty s :=
  NameSet.not_mem_empty

section

variable {cs : List Call} {p : Policy} {c : Call}

theorem verdictAt_ungrouped (h : Trace.Plain c.callee.owner) :
    (ungrouped cs p).verdictAt (.ofCall c) = ownVerdict p c.callee := by
  have hplain : ∀ n ∈ (ungrouped cs p).policy.aliases.group (.ofCall c), Trace.Plain n :=
    fun n hn => absurd hn (not_mem_group_empty _ n)
  have hname : (ungrouped cs p).nameAt (.ofCall c) = c.callee.owner :=
    (nameAt_ofCall rfl hplain).trans (if_neg (not_mem_group_empty _ _))
  rw [verdictAt, hname]
  exact verdict_owner _ h

theorem verdictAt_grouped (hplain : ∀ c ∈ cs, Trace.Plain c.callee.owner) (hc : c ∈ cs) :
    (grouped cs p).verdictAt (.ofCall c) = ownVerdict p c.callee := by
  by_cases hhid : p.classes.Hides c.callee.owner
  · rw [verdictAt_of_hides hplain hc hhid, ownVerdict, if_pos hhid]
  · rw [(verdictAt_eq_walked_iff_not_hides hplain hc).mpr hhid, ownVerdict, if_neg hhid]

theorem indexed_ungrouped : (ungrouped cs p).Indexed := indexed_ofCalls _ _ _

theorem sublist_selected_ungrouped (m : Method) :
    ((grouped cs p).selected m).Sublist ((ungrouped cs p).selected m) := by
  have hungrouped : Pick.followed ((ungrouped cs p).offers m) = _ :=
    Grouping.followed_scan_of_no_groups not_mem_group_empty [] ((CallGraph.ofCalls cs).callsFrom m)
  rw [selected, selected, leading, leading, hungrouped]
  exact (Grouping.followed_scan_sublist [] _).filter _

theorem prunes_ungrouped (hplain : ∀ c ∈ cs, Trace.Plain c.callee.owner) :
    (grouped cs p).Prunes (ungrouped cs p) where
  cutMethods_eq := rfl
  depthBound_eq := rfl
  sublist_selected := sublist_selected_ungrouped
  verdictAt_eq m c hc := by
    have hmem : c ∈ cs := mem_of_mem_grouped (mem_selected_iff.mp hc).1
    rw [verdictAt_grouped hplain hmem, verdictAt_ungrouped (hplain c hmem)]

end

theorem sinks_ofShown_map_unnamed (ls : List (Trace.Line × Method)) :
    (Summary.ofShown (ls.map unnamed)).sinks = (Summary.ofShown ls).sinks := by
  simp only [Summary.ofShown, List.filter_map, List.map_map]
  rfl

/-- Merging the groups of the graph only takes lines away from the trace of a path-scoped walk. What
is left keeps its order, its depths and its line numbers, and its sinks are sinks without merging. -/
theorem merging_only_prunes (cs : List Call) (p : Policy)
    (hplain : ∀ c ∈ cs, Trace.Plain c.callee.owner) (entry : Method) (depth : Nat)
    (line : Option Int) :
    let r := (grouped cs { p with scope := .path }).run none entry depth line
    let s := (ungrouped cs { p with scope := .path }).run none entry depth line
    let place (l : Trace.Line) := (l.signature, l.depth, l.lineNumber, l.isSink)
    (r.lines.map place).Sublist (s.lines.map place) ∧
      ∃ x y, r.outcome = .ok x ∧ s.outcome = .ok y ∧ x.sinks.Sublist y.sinks := by
  intro r s place
  have hentry : (grouped cs { p with scope := .path }).verdictAt (.entry entry line) =
      (ungrouped cs { p with scope := .path }).verdictAt (.entry entry line) :=
    verdict_congr rfl rfl entry entry.owner
  have hshown : (r.shown.map unnamed).Sublist (s.shown.map unnamed) := by
    rw [shown_run_eq_block, shown_run_eq_block]
    exact block_sublist (prunes_ungrouped hplain) indexed_grouped indexed_ungrouped rfl rfl [] depth _
      hentry
  refine ⟨?_, .ofShown r.shown, .ofShown s.shown, ?_, ?_, ?_⟩
  · have hplaces := hshown.map fun l => place l.1
    rw [List.map_map, List.map_map] at hplaces
    rw [Run.lines, Run.lines, List.map_map, List.map_map]
    exact hplaces
  · simp only [r, outcome_run_unlimited, shown_run_unlimited]
  · simp only [s, outcome_run_unlimited, shown_run_unlimited]
  · rw [← sinks_ofShown_map_unnamed r.shown, ← sinks_ofShown_map_unnamed s.shown]
    exact (hshown.filter _).map _

/-- Two classes answer one call and both reach a sink. Merged, they share a line, and the sink is
reached once. -/
theorem second_target_merged_away :
    let start : Method := { name := "main", owner := "M" }
    let branch : Method := { name := "run", owner := "A" }
    let leaf : Method := { name := "run", owner := "B" }
    let logger : Method := { name := "log", owner := "Log" }
    let calls : List Call := [{ caller := start, callee := branch, line := some 5 },
      { caller := start, callee := leaf, line := some 5 },
      { caller := branch, callee := logger, line := some 7 },
      { caller := leaf, callee := logger, line := some 9 }]
    let p : Policy :=
      { classes := { hidden := ["Log"] }, sinks := .ofList [("Log", .ofList ["log"])] }
    let r := (grouped calls { p with scope := .path }).run none start 0 none
    let s := (ungrouped calls { p with scope := .path }).run none start 0 none
    let place (l : Trace.Line) := (l.signature, l.depth, l.lineNumber, l.isSink)
    (∀ c ∈ calls, Trace.Plain c.callee.owner) ∧
      (r.lines.map place).Sublist (s.lines.map place) ∧
      r.lines.map place =
        [("main()", 0, -1, false), ("run()", 1, 5, false), ("log()", 2, 7, true)] ∧
      s.lines.map place =
        [("main()", 0, -1, false), ("run()", 1, 5, false), ("log()", 2, 7, true),
          ("run()", 1, 5, false), ("log()", 2, 9, true)] ∧
      r.summary.sinks = [logger] ∧ s.summary.sinks = [logger, logger] := by
  intro start branch leaf logger calls p r s place
  have hplain : ∀ c ∈ calls, Trace.Plain c.callee.owner := by decide +revert
  have hmerged : r.lines.map place =
      [("main()", 0, -1, false), ("run()", 1, 5, false), ("log()", 2, 7, true)] := by
    decide +kernel +revert
  have hunmerged : s.lines.map place =
      [("main()", 0, -1, false), ("run()", 1, 5, false), ("log()", 2, 7, true),
        ("run()", 1, 5, false), ("log()", 2, 9, true)] := by
    decide +kernel +revert
  have hsinks : r.summary.sinks = [logger] ∧ s.summary.sinks = [logger, logger] := by
    decide +kernel +revert
  exact ⟨hplain, (merging_only_prunes calls p hplain start 0 none).1, hmerged, hunmerged, hsinks⟩

end CallTrace.Walk
