import CallTrace.Proofs.Walk.Blocks
import Mathlib.Logic.Relation

/-!
# Subtrees

If no calls lead from a method back to it and there is no depth bound, nothing but the filters keeps
a path-scoped walk from expanding a method. Whatever is closed then makes no difference, and a method
is shown each time with all that a walk shows that has the method for its entry.
-/

namespace CallTrace

/-- A call leads from `m` to another method `n`. -/
def CallsOther (cs : List Call) (m n : Method) : Prop :=
  ∃ c ∈ cs, ¬ c.IsSelfCall ∧ c.caller = m ∧ c.callee = n

/-- The calls, self-calls left out, lead from no method back to it. -/
def Acyclic (cs : List Call) : Prop := ∀ m, ¬ Relation.TransGen (CallsOther cs) m m

/-- Calls that only lead to methods of higher rank form no cycle. -/
theorem acyclic_of_rank {cs : List Call} (rank : Method → Nat)
    (h : ∀ c ∈ cs, ¬ c.IsSelfCall → rank c.caller < rank c.callee) : Acyclic cs := by
  intro m hcycle
  have hup : ∀ a b, CallsOther cs a b → rank a < rank b := by
    rintro _ _ ⟨c, hc, hself, rfl, rfl⟩
    exact h c hc hself
  have hlt := hcycle.lift rank hup
  rw [Relation.transGen_eq_self] at hlt
  exact Nat.lt_irrefl _ hlt

namespace Walk

/-- The walk follows a call from `m` to `n`. -/
def Onward (w : Walk) (m n : Method) : Prop := ∃ c ∈ w.selected m, c.callee = n

/-- No call that the walk follows leads back from `m` to a method in `closed`. -/
def Clear (w : Walk) (closed : List Method) (m : Method) : Prop :=
  ∀ n ∈ closed, ¬ Relation.ReflTransGen w.Onward m n

theorem clear_nil (w : Walk) (m : Method) : w.Clear [] m :=
  fun _ hn => absurd hn List.not_mem_nil

theorem Clear.not_mem {w : Walk} {closed : List Method} {m : Method} (h : w.Clear closed m) :
    m ∉ closed :=
  fun hm => h m hm .refl

/-- Nothing but the filters keeps the walk from expanding a method. -/
structure Unhindered (w : Walk) : Prop where
  scope_eq : w.policy.scope = .path
  depthBound_eq : w.policy.depthBound = none
  acyclic : ∀ m, ¬ Relation.TransGen w.Onward m m

/-- The line of an entry that passes the filters. -/
def entryLine (m : Method) (d : Nat) (line : Option Int) : Trace.Line × Method :=
  (shownLine m m.owner d (line.getD unknownLine) false, m)

theorem lineAt_entry {w : Walk} {m : Method} {line : Option Int} (h : w.Passes (.entry m line))
    (d : Nat) : w.lineAt d (.entry m line) = entryLine m d line := by
  rw [lineAt, h.2]
  rfl

/-- Unless the line is that of a sink, the lines below it are those that a walk shows below its entry
when it begins at the same depth with the same method. -/
def FullBelow (w : Walk) (l : Trace.Line × Method) (below : List (Trace.Line × Method)) : Prop :=
  l.1.isSink = false →
    ∀ line, w.block [] l.1.depth (.entry l.2 line) = entryLine l.2 l.1.depth line :: below

namespace Unhindered

variable {w : Walk} (h : w.Unhindered) {closed : List Method} {d : Nat} {a : Arrival}

include h

theorem clear_cons {m : Method} {c : Call} (hclear : w.Clear closed m) (hc : c ∈ w.selected m) :
    w.Clear (m :: closed) c.callee := by
  have honward : w.Onward m c.callee := ⟨c, hc, rfl⟩
  intro n hn hback
  rcases List.mem_cons.mp hn with rfl | hn
  · exact h.acyclic n (.head' honward hback)
  · exact hclear n hn (.head honward hback)

theorem clear_of_leads {m : Method} (hclear : w.Clear closed m) :
    ∀ k ∈ w.offers m, Leads k → w.Clear (m :: closed) k.call.callee := by
  intro k hk hlead
  cases k with
  | merge c => exact hlead.elim
  | follow c => exact h.clear_cons hclear (mem_selected_iff.mpr ⟨hk, hlead⟩)

theorem admits {m : Method} (hclear : w.Clear closed m) (d : Nat) : w.Admits closed m d :=
  ⟨hclear.not_mem, not_boundReached h.depthBound_eq d⟩

theorem descends_iff (hclear : w.Clear closed a.method) (d : Nat) :
    w.Descends closed d a ↔ w.Passes a :=
  and_iff_left (h.admits hclear d)

/-- Closed methods to which no call leads back make no difference. -/
theorem block_congr (d : Nat) {others : List Method} (hclear : w.Clear closed a.method)
    (hothers : w.Clear others a.method) : w.block closed d a = w.block others d a := by
  induction closed, d, a using block_induction (w := w) generalizing others with
  | step closed d a ih =>
    rw [block, block]
    apply congrArg ((if w.Shows a then [w.lineAt d a] else []) ++ ·)
    by_cases hpass : w.Passes a
    · have hdesc : w.Descends closed d a := (h.descends_iff hclear d).mpr hpass
      rw [if_pos hdesc, if_pos ((h.descends_iff hothers d).mpr hpass),
        linesBelow_eq_flatMap h.scope_eq, linesBelow_eq_flatMap h.scope_eq]
      refine List.flatMap_congr fun c hc => ?_
      exact ih hdesc c hc (h.clear_cons hclear hc) (h.clear_cons hothers hc)
    · rw [if_neg fun hdesc => hpass hdesc.1, if_neg fun hdesc => hpass hdesc.1]

theorem block_entry (hpass : w.Passes a) (hclear : w.Clear closed a.method) (d : Nat)
    (line : Option Int) :
    w.block [] d (.entry a.method line) =
      entryLine a.method d line :: w.linesBelow (a.method :: closed) a.method d := by
  have hnil : w.Clear [] a.method := clear_nil w _
  have hdesc : w.Descends [] d (.entry a.method line) := ⟨hpass.entry line, h.admits hnil d⟩
  rw [block_of_shows (hpass.entry line).shows, lineAt_entry (hpass.entry line), if_pos hdesc,
    linesBelow_eq_flatMap h.scope_eq, linesBelow_eq_flatMap h.scope_eq]
  apply congrArg (entryLine a.method d line :: ·)
  refine List.flatMap_congr fun c hc => ?_
  exact h.block_congr (d + 1) (h.clear_cons hnil hc) (h.clear_cons hclear hc)

theorem belowEach_block (hclear : w.Clear closed a.method) (d : Nat) :
    Report.BelowEach shownDepth w.FullBelow (w.block closed d a) := by
  induction closed, d, a using block_induction (w := w) with
  | step closed d a ih =>
    by_cases hshows : w.Shows a
    · rw [block_of_shows hshows]
      refine Report.BelowEach.cons ?own (lt_depth_below h.scope_eq closed d a) ?below
      case own =>
        intro hwalked line
        have hpass := (isSink_lineAt_eq_false_iff hshows d).mp hwalked
        rw [if_pos ((h.descends_iff hclear d).mpr hpass)]
        exact h.block_entry hpass hclear d line
      case below =>
        split
        · next hdesc =>
          rw [linesBelow_eq_flatMap h.scope_eq]
          exact .flatMap (fun c hc => ih hdesc c hc (h.clear_cons hclear hc))
            fun c _ => row_block h.scope_eq _ (d + 1) _
        · exact .nil
    · rw [block_of_not_shows hshows]
      exact .nil

/-- Every method that is shown, but for the sinks, is expanded. -/
theorem frames_unfoldPicks (closed : List Method) (m : Method) (d : Nat) (ps : List Pick)
    (hclear : ∀ k ∈ ps, Leads k → w.Clear closed k.call.callee) :
    ((w.unfoldPicks closed m d ps).expansions d).map Expansion.frame =
      (((w.unfoldPicks closed m d ps).events.filterMap Event.shown?).filterMap walkedLine?).map
        fun l => (l.2, l.1.depth) := by
  fun_induction unfoldPicks w closed m d ps with
  | case1 => rfl
  | case2 closed m d k ps t hopens ih =>
    have hturn : (t.visit.events.filterMap Event.shown?).filterMap walkedLine? = [] :=
      (filterMap_walkedLine?_glance w m d k).trans (if_neg (Bool.not_eq_true _ ▸ hopens))
    rw [Unfolding.expansions, ih (List.forall_mem_cons.mp hclear).2, Unfolding.events,
      List.append_nil, List.filterMap_append, List.filterMap_append, hturn, List.nil_append]
  | case3 closed m d k ps t n hopens hadm below ihb _ ih =>
    obtain ⟨hk, hps⟩ := List.forall_mem_cons.mp hclear
    have hturn : (t.visit.events.filterMap Event.shown?).filterMap walkedLine? =
        [w.lineAt (d + 1) (.ofPick m k)] :=
      (filterMap_walkedLine?_glance w m d k).trans (if_pos (Bool.of_not_eq_false hopens))
    have hlead := ((opens_glance_ofPick w m d k).mp (Bool.of_not_eq_false hopens)).1
    have hclosed := closedAfter_of_path h.scope_eq (below.opened ++ [n]) closed
    rw [hclosed] at ih
    rw [hclosed, Unfolding.expansions, List.map_cons, List.map_append,
      ihb (h.clear_of_leads (hk hlead)), ih hps, Unfolding.events]
    simp only [List.filterMap_append, List.map_append, hturn, List.map_cons,
      List.cons_append, List.nil_append, List.append_assoc]
    rfl
  | case4 closed m d k ps t n hopens hadm ih =>
    have hlead := ((opens_glance_ofPick w m d k).mp (Bool.of_not_eq_false hopens)).1
    exact absurd (h.admits ((List.forall_mem_cons.mp hclear).1 hlead) (d + 1)) hadm

/-- A run opens a frame for each line, but for those of the sinks, in the order of the lines. -/
theorem frames_run (entry : Method) (depth : Nat) (line : Option Int) :
    (w.expansions entry depth line).map Expansion.frame =
      ((w.run none entry depth line).shown.filterMap walkedLine?).map
        fun l => (l.2, l.1.depth) := by
  have hnil : w.Clear [] entry := clear_nil w entry
  have hexpands : w.Expands entry depth line ↔ w.Passes (.entry entry line) :=
    expands_iff.trans (and_iff_left (h.admits hnil depth))
  rw [shown_run_unlimited, story, List.filterMap_append, List.filterMap_append, shown_opening,
    filterMap_walkedLine?_own, expansions, unfolding]
  by_cases hpass : w.Passes (.entry entry line)
  · rw [if_pos (hexpands.mpr hpass), if_pos (hexpands.mpr hpass), if_pos hpass, List.map_cons,
      h.frames_unfoldPicks _ _ _ _ (h.clear_of_leads hnil)]
    rfl
  · rw [if_neg (mt hexpands.mp hpass), if_neg (mt hexpands.mp hpass), if_neg hpass]
    rfl

end Unhindered

theorem callsOther_of_onward {cs : List Call} {p : Policy} {γ : Grouping} {m n : Method}
    (h : Onward ⟨.ofCalls cs, p, γ⟩ m n) : CallsOther cs m n := by
  obtain ⟨c, hc, rfl⟩ := h
  obtain ⟨hfollow, hself⟩ := mem_selected_iff.mp hc
  obtain ⟨hmem, hcaller⟩ := call_mem_of_mem_offers hfollow
  exact ⟨c, hmem, hself, hcaller, rfl⟩

theorem unhindered_of_acyclic {cs : List Call} (hacyclic : Acyclic cs) (p : Policy) (γ : Grouping) :
    Unhindered ⟨.ofCalls cs, { p with scope := .path, depthBound := none }, γ⟩ where
  scope_eq := rfl
  depthBound_eq := rfl
  acyclic m hcycle := hacyclic m (.mono (fun _ _ => callsOther_of_onward) m m hcycle)

/-- If the calls form no cycle, a path-scoped walk without a depth bound shows below every line, but
for those of the sinks, what it shows below its entry when it begins there: it expands whatever it
shows, each time anew. -/
theorem acyclic_graph_shown_in_full (cs : List Call) (hacyclic : Acyclic cs) (p : Policy)
    (γ : Grouping) (entry : Method) (depth : Nat) (line : Option Int) :
    let w : Walk := ⟨.ofCalls cs, { p with scope := .path, depthBound := none }, γ⟩
    let r := w.run none entry depth line
    (∀ before l after, r.shown = before ++ l :: after → l.1.isSink = false → ∀ line',
      (w.run none l.2 l.1.depth line').shown =
        (shownLine l.2 l.2.owner l.1.depth (line'.getD unknownLine) false, l.2) ::
          after.takeWhile fun k => l.1.depth < k.1.depth) ∧
    (w.expansions entry depth line).map Expansion.frame =
      (r.shown.filter fun l => !l.1.isSink).map fun l => (l.2, l.1.depth) := by
  intro w r
  have h : w.Unhindered := unhindered_of_acyclic hacyclic p γ
  constructor
  · intro before l after hshown hwalked line'
    have hblock : Report.BelowEach shownDepth w.FullBelow (w.block [] depth (.entry entry line)) :=
      h.belowEach_block (clear_nil w entry) depth
    rw [← shown_run_eq_block] at hblock
    rw [shown_run_eq_block]
    exact hblock before l after hshown hwalked line'
  · rw [← filterMap_walkedLine?]
    exact h.frames_run entry depth line

/-- Two callers share a callee, and one of them calls it as one of a group. What is below the callee
is shown under both, as it is when a walk begins there. -/
theorem shared_callee_shown_under_both_callers :
    let start : Method := { name := "main", owner := "M" }
    let left : Method := { name := "go", owner := "L" }
    let right : Method := { name := "go", owner := "R" }
    let shared : Method := { name := "get", owner := "S" }
    let other : Method := { name := "get", owner := "T" }
    let leaf : Method := { name := "read", owner := "X" }
    let logger : Method := { name := "log", owner := "Log" }
    let calls : List Call := [{ caller := start, callee := left, line := some 1 },
      { caller := start, callee := right, line := some 2 },
      { caller := left, callee := shared, line := some 3 },
      { caller := left, callee := other, line := some 3 },
      { caller := right, callee := shared, line := some 4 },
      { caller := shared, callee := shared, line := some 5 },
      { caller := shared, callee := leaf, line := some 6 },
      { caller := shared, callee := logger, line := some 7 }]
    let p : Policy :=
      { classes := { hidden := ["Log"] }
        aliases := .ofList [(⟨"L", "get", 3⟩, .ofList ["S", "T"])]
        sinks := .ofList [("Log", .ofList ["log"])] }
    let w : Walk := ⟨.ofCalls calls, { p with scope := .path, depthBound := none }, .byAlias⟩
    let r := w.run none start 0 none
    let s := w.run none shared 2 none
    let row (m : Method) (className : String) (depth : Nat) (line : Int) (isSink : Bool) :=
      (shownLine m className depth line isSink, m)
    let below := [row leaf "X" 3 6 false, row logger "Log" 3 7 true]
    Acyclic calls ∧
      r.shown = [row start "M" 0 (-1) false, row left "L" 1 1 false] ++
        row shared "S:T" 2 3 false :: (below ++
          [row right "R" 1 2 false, row shared "S" 2 4 false] ++ below) ∧
      s.shown = row shared "S" 2 (-1) false :: below ∧
      (w.expansions start 0 none).map Expansion.frame =
        [(start, 0), (left, 1), (shared, 2), (leaf, 3), (right, 1), (shared, 2), (leaf, 3)] := by
  intro start left right shared other leaf logger calls p w r s row below
  have hshown : r.shown = [row start "M" 0 (-1) false, row left "L" 1 1 false] ++
      row shared "S:T" 2 3 false :: (below ++
        [row right "R" 1 2 false, row shared "S" 2 4 false] ++ below) := by
    decide +kernel +revert
  have hacyclic : Acyclic calls := by
    let rank (m : Method) := [start, left, right, shared, other, leaf, logger].idxOf m
    have hrank : ∀ c ∈ calls, ¬ c.IsSelfCall → rank c.caller < rank c.callee := by
      decide +kernel +revert
    exact acyclic_of_rank rank hrank
  obtain ⟨hfull, hframes⟩ := acyclic_graph_shown_in_full calls hacyclic p .byAlias start 0 none
  refine ⟨hacyclic, hshown, hfull _ _ _ hshown rfl none, hframes.trans ?_⟩
  rw [hshown]
  rfl

end Walk

end CallTrace
