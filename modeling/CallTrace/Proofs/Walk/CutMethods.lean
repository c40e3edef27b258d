import CallTrace.Proofs.Walk.Blocks

/-!
# Cutting more methods

A method that is cut takes its block with it. If methods stay closed only on the way down, nothing
else comes of it: the other blocks stay as they are, and calls are merged as before.
-/

namespace CallTrace.Walk

/-- The same walk with more method names to cut. -/
def cutting (w : Walk) (more : List String) : Walk :=
  { w with policy := { w.policy with cutMethods := .ofList (w.policy.cutMethods.names ++ more) } }

variable {w : Walk} {more : List String} {a : Arrival}

theorem mem_cutMethods_cutting {n : String} :
    n ∈ (w.cutting more).policy.cutMethods ↔ n ∈ w.policy.cutMethods ∨ n ∈ more := by
  rw [cutting, NameSet.mem_ofList, List.mem_append]
  rfl

theorem verdictAt_cutting : (w.cutting more).verdictAt a = w.verdictAt a :=
  verdictAt_congr rfl rfl rfl a

theorem lineAt_cutting (d : Nat) : (w.cutting more).lineAt d a = w.lineAt d a :=
  lineAt_congr rfl rfl rfl d a

theorem shows_cutting : (w.cutting more).Shows a ↔ a.method.name ∉ more ∧ w.Shows a := by
  rw [Shows, Shows, mem_cutMethods_cutting, verdictAt_cutting, not_or, and_assoc, and_left_comm]

theorem passes_cutting : (w.cutting more).Passes a ↔ a.method.name ∉ more ∧ w.Passes a := by
  rw [Passes, Passes, mem_cutMethods_cutting, verdictAt_cutting, not_or, and_assoc, and_left_comm]

theorem descends_cutting {closed : List Method} {d : Nat} :
    (w.cutting more).Descends closed d a ↔ a.method.name ∉ more ∧ w.Descends closed d a := by
  rw [Descends, passes_cutting, and_assoc]
  rfl

/-- A block without the blocks of the methods that are cut. -/
theorem block_cutting (hscope : w.policy.scope = .path) (closed : List Method) (d : Nat)
    (a : Arrival) :
    (w.cutting more).block closed d a =
      Report.Forest.remaining (fun l => l.2.name ∈ more) shownDepth (w.block closed d a) := by
  have hscopes : (w.cutting more).policy.scope = .path := hscope
  induction closed, d, a using block_induction (w := w) with
  | step closed d a ih =>
    by_cases hshows : w.Shows a
    · rw [block_of_shows hshows,
        Report.Forest.remaining_cons_of_lt (lt_depth_below hscope closed d a)]
      by_cases hcut : a.method.name ∈ more
      · rw [block_of_not_shows fun h => (shows_cutting.mp h).1 hcut]
        exact (if_pos hcut).symm
      · rw [block_of_shows (shows_cutting.mpr ⟨hcut, hshows⟩), lineAt_cutting]
        refine Eq.trans ?_ (if_neg hcut).symm
        apply congrArg (w.lineAt d a :: ·)
        by_cases hdesc : w.Descends closed d a
        · rw [if_pos (descends_cutting.mpr ⟨hcut, hdesc⟩), if_pos hdesc,
            linesBelow_eq_flatMap hscopes, linesBelow_eq_flatMap hscope,
            Report.Forest.remaining_flatMap fun c _ => row_block hscope _ (d + 1) _]
          exact List.flatMap_congr (ih hdesc)
        · rw [if_neg fun h => hdesc (descends_cutting.mp h).2, if_neg hdesc,
            Report.Forest.remaining_nil]
    · rw [block_of_not_shows hshows, block_of_not_shows fun h => hshows (shows_cutting.mp h).2,
        Report.Forest.remaining_nil]

/-- More method names to cut take the lines of these methods out of the trace of a path-scoped walk
together with all that is below them, and their sinks out of its summary. Nothing else changes. -/
theorem cut_methods_take_their_blocks (g : CallGraph) (p : Policy) (γ : Grouping)
    (more : List String) (entry : Method) (depth : Nat) (line : Option Int) :
    let v : Walk := ⟨g, { p with scope := .path }, γ⟩
    let w : Walk :=
      ⟨g, { p with scope := .path, cutMethods := .ofList (p.cutMethods.names ++ more) }, γ⟩
    let r := v.run none entry depth line
    let s := w.run none entry depth line
    let rest := Report.Forest.remaining (fun l => l.2.name ∈ more) (fun l => l.1.depth) r.shown
    s.shown = rest ∧ rest.Sublist r.shown ∧ ∃ x y, r.outcome = .ok x ∧ s.outcome = .ok y ∧
      x.sinks = (r.shown.filter fun l => l.1.isSink).map Prod.snd ∧
      y.sinks = (rest.filter fun l => l.1.isSink).map Prod.snd := by
  intro v w r s rest
  have hshown : s.shown = rest := by
    have hblock : (v.cutting more).block [] depth (.entry entry line) = _ :=
      block_cutting rfl [] depth (.entry entry line)
    simp only [s, rest, r, shown_run_eq_block]
    exact hblock
  have houtcome : s.outcome = .ok (.ofShown rest) := hshown ▸ outcome_run w entry depth line
  exact ⟨hshown, Report.Forest.remaining_sublist _, .ofShown r.shown, .ofShown rest,
    outcome_run v entry depth line, houtcome, rfl, rfl⟩

/-- The helper is cut where it is called. What it calls stays where others call it. -/
example :
    let start : Method := { name := "main", owner := "App" }
    let helper : Method := { name := "help", owner := "App" }
    let leaf : Method := { name := "read", owner := "App" }
    let calls : List Call := [{ caller := start, callee := helper, line := some 1 },
      { caller := helper, callee := leaf, line := some 2 },
      { caller := start, callee := leaf, line := some 3 }]
    let w : Walk := ⟨.ofCalls calls, { cutMethods := .ofList ["help"] }, .byAlias⟩
    (w.run none start 0 none).lines.map (fun l => (l.signature, l.depth, l.lineNumber)) =
      [("main()", 0, -1), ("read()", 1, 3)] := by
  decide +kernel

end CallTrace.Walk
