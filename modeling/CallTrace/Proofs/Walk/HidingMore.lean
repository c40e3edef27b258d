import CallTrace.Proofs.Walk.Blocks

/-!
# Hiding more classes

A filter that shows some classes only lets the calls into hidden classes through as well, up to the
class, where there may be a sink. To hide more classes therefore brings new calls in, and such a call
may stand for its group in place of another one. No walk goes on there: what is left of the trace,
but for its sinks, was there before.
-/

namespace CallTrace

/-- The same filter with other patterns of classes to hide. -/
def ClassFilter.withHidden (f : ClassFilter) (more : List String) : ClassFilter :=
  { f with hidden := more }

/-- The same policy with other patterns of classes to hide. -/
def Policy.withHidden (p : Policy) (more : List String) : Policy :=
  { p with classes := p.classes.withHidden more }

namespace ClassFilter

variable {f : ClassFilter} {more : List String} {n : String}

theorem Hides.withHidden (h : f.hidden ⊆ more) (hn : f.Hides n) : (f.withHidden more).Hides n :=
  hn.mono h

theorem Follows.withHidden (h : f.hidden ⊆ more) (hn : f.Follows n) :
    (f.withHidden more).Follows n :=
  hn.imp_right (.imp_right (Hides.withHidden h))

theorem follows_of_withHidden (hn : (f.withHidden more).Follows n)
    (hhid : ¬ (f.withHidden more).Hides n) : f.Follows n :=
  hn.imp_right fun h => .inl (h.resolve_right hhid)

end ClassFilter

namespace Walk

/-- The same walk with other patterns of classes to hide. -/
def withHidden (w : Walk) (more : List String) : Walk :=
  { w with policy := w.policy.withHidden more }

theorem nameAt_withHidden (v : Walk) (more : List String) (a : Arrival) :
    (v.withHidden more).nameAt a = v.nameAt a :=
  nameAt_congr rfl a

section

variable {v : Walk} {more : List String} {a : Arrival}
  (hmore : v.policy.classes.hidden ⊆ more) (h : (v.withHidden more).Passes a)

include hmore h

theorem Passes.of_withHidden : v.Passes a := by
  refine ⟨h.1, verdictAt_eq_walked_iff.mpr ?_⟩
  intro n hn hhid
  rw [← nameAt_withHidden v more] at hn
  exact verdictAt_eq_walked_iff.mp h.2 n hn (hhid.withHidden hmore)

theorem lineAt_withHidden (d : Nat) : (v.withHidden more).lineAt d a = v.lineAt d a := by
  rw [lineAt, lineAt, nameAt_withHidden, h.2, (h.of_withHidden hmore).2]

end

theorem filter_lines_eq_walked (r : Run) :
    r.lines.filter (fun l => !l.isSink) = (r.shown.filterMap walkedLine?).map Prod.fst := by
  rw [filterMap_walkedLine?, Run.lines, List.filter_map]
  rfl

section

variable {cs : List Call} {p : Policy} {more : List String}
  (hplain : ∀ c ∈ cs, Trace.Plain c.callee.owner) (hmore : p.classes.hidden ⊆ more)

include hplain hmore

theorem sublist_selected_withHidden (m : Method) :
    let v : Walk := ⟨.ofCalls cs, p, .byAlias⟩
    (((v.withHidden more).selected m).filter fun c => (v.withHidden more).Passes (.ofCall c)).Sublist
      (v.selected m) := by
  intro v
  have hagree : ∀ c ∈ v.graph.callsFrom m, (v.withHidden more).Passes (.ofCall c) →
      (p.classes.withHidden more).Follows c.callee.owner → p.classes.Follows c.callee.owner := by
    intro c hc hpass hfollows
    apply ClassFilter.follows_of_withHidden hfollows
    exact hpass.not_hides (hplain c (CallGraph.mem_callsFrom_ofCalls.mp hc).1)
  have hscan := Grouping.filter_followed_scan_sublist (a := p.aliases)
    (fun n => ClassFilter.Follows.withHidden hmore) hagree (List.Subset.refl [])
  have hswap {q r : Call → Bool} {l : List Call} : (l.filter q).filter r = (l.filter r).filter q := by
    simp only [List.filter_filter, Bool.and_comm]
  rw [selected, selected, leading, leading, hswap]
  exact hscan.filter _

theorem narrows_withHidden :
    let v : Walk := ⟨.ofCalls cs, p, .byAlias⟩
    (v.withHidden more).Narrows v walkedLine? (v.withHidden more).Passes where
  sublist_own a d ha := by
    have hline := lineAt_withHidden hmore ha d
    rw [filterMap_walkedLine?_own, filterMap_walkedLine?_own, if_pos ha,
      if_pos (ha.of_withHidden hmore)]
    exact hline ▸ .refl _
  descends closed d a ha hdesc := ⟨ha.of_withHidden hmore, hdesc.2⟩
  sublist_selected := sublist_selected_withHidden hplain hmore
  view_block_eq_nil closed d m c hc hstop := by
    rw [block_of_not_descends fun h => hstop h.1, filterMap_walkedLine?_own, if_neg hstop]

end

/-- To hide more classes adds no line to the trace of a path-scoped walk but those of sinks: the
other lines are some of those that there were before, in the same order. -/
theorem hiding_more_adds_only_sinks (cs : List Call) (p : Policy) (more : List String)
    (hplain : ∀ c ∈ cs, Trace.Plain c.callee.owner) (hscope : p.scope = .path)
    (hmore : p.classes.hidden ⊆ more) (entry : Method) (depth : Nat) (line : Option Int) :
    let v : Walk := ⟨.ofCalls cs, p, .byAlias⟩
    let w : Walk :=
      ⟨.ofCalls cs, { p with classes := { p.classes with hidden := more } }, .byAlias⟩
    ((w.run none entry depth line).lines.filter fun l => !l.isSink).Sublist
      ((v.run none entry depth line).lines.filter fun l => !l.isSink) := by
  intro v w
  have hw : w.Indexed := indexed_ofCalls _ _ _
  have hv : v.Indexed := indexed_ofCalls _ _ _
  have hshown : ((w.run none entry depth line).shown.filterMap walkedLine?).Sublist
      ((v.run none entry depth line).shown.filterMap walkedLine?) := by
    rw [shown_run_eq_block, shown_run_eq_block]
    by_cases hpass : w.Passes (.entry entry line)
    · exact (narrows_withHidden hplain hmore).block_sublist hw hv hscope hscope [] depth _ hpass
    · rw [block_of_not_descends fun h => hpass h.1, filterMap_walkedLine?_own, if_neg hpass]
      exact List.nil_sublist _
  rw [filter_lines_eq_walked, filter_lines_eq_walked]
  exact hshown.map _

/-- Once its class is hidden, the call to `B` is followed and stands for the group in place of the
call to `A`. It leads to a sink, so nothing below `A` is left. -/
theorem sink_takes_the_group_over :
    let start : Method := { name := "main", owner := "M" }
    let branch : Method := { name := "run", owner := "A" }
    let other : Method := { name := "run", owner := "B" }
    let leaf : Method := { name := "log", owner := "A" }
    let calls : List Call := [{ caller := start, callee := other, line := some 5 },
      { caller := start, callee := branch, line := some 5 },
      { caller := branch, callee := leaf, line := some 7 }]
    let p : Policy :=
      { classes := { shown := ["A"] }
        aliases := .ofList [(⟨"M", "run", 5⟩, .ofList ["A", "B"])]
        sinks := .ofList [("B", .ofList ["run"])] }
    let v : Walk := ⟨.ofCalls calls, p, .byAlias⟩
    let w : Walk :=
      ⟨.ofCalls calls, { p with classes := { p.classes with hidden := ["B"] } }, .byAlias⟩
    let r := w.run none start 0 none
    let s := v.run none start 0 none
    (∀ c ∈ calls, Trace.Plain c.callee.owner) ∧ p.scope = .path ∧ p.classes.hidden ⊆ ["B"] ∧
      (r.lines.filter fun l => !l.isSink).Sublist (s.lines.filter fun l => !l.isSink) ∧
      r.lines = [⟨start.signature, "M", 0, -1, false⟩, ⟨other.signature, "A:B", 1, 5, true⟩] ∧
      s.lines = [⟨start.signature, "M", 0, -1, false⟩, ⟨branch.signature, "A:B", 1, 5, false⟩,
        ⟨leaf.signature, "A", 2, 7, false⟩] := by
  intro start branch other leaf calls p v w r s
  have hplain : ∀ c ∈ calls, Trace.Plain c.callee.owner := by decide +revert
  have hmore : p.classes.hidden ⊆ ["B"] := List.nil_subset _
  have hr : r.lines =
      [⟨start.signature, "M", 0, -1, false⟩, ⟨other.signature, "A:B", 1, 5, true⟩] := by
    decide +kernel +revert
  have hs : s.lines = [⟨start.signature, "M", 0, -1, false⟩,
      ⟨branch.signature, "A:B", 1, 5, false⟩, ⟨leaf.signature, "A", 2, 7, false⟩] := by
    decide +kernel +revert
  exact ⟨hplain, rfl, hmore,
    hiding_more_adds_only_sinks calls p ["B"] hplain rfl hmore start 0 none, hr, hs⟩

end Walk

end CallTrace
