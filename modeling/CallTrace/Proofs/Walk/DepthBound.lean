import CallTrace.Proofs.Walk.Blocks

/-!
# Bounded walks

If methods stay closed only on the way down, a depth bound does no more than cut the trace off: the
walk shows what it would show without a bound, down to the bound, or down to its entry if that is
deeper.
-/

namespace CallTrace.Walk

/-- The same walk with a depth bound. -/
def withBound (w : Walk) (bound : Nat) : Walk :=
  { w with policy := { w.policy with depthBound := some bound } }

section

variable (w : Walk) (bound : Nat) (a : Arrival)

@[simp] theorem lineAt_withBound (d : Nat) : (w.withBound bound).lineAt d a = w.lineAt d a :=
  lineAt_congr rfl rfl rfl d a

@[simp] theorem verdictAt_withBound : (w.withBound bound).verdictAt a = w.verdictAt a :=
  verdictAt_congr rfl rfl rfl a

@[simp] theorem shows_withBound : (w.withBound bound).Shows a ↔ w.Shows a := by
  rw [Shows, verdictAt_withBound]
  rfl

@[simp] theorem passes_withBound : (w.withBound bound).Passes a ↔ w.Passes a := by
  rw [Passes, verdictAt_withBound]
  rfl

end

variable {w : Walk}

theorem boundReached_withBound {bound d : Nat} :
    (w.withBound bound).BoundReached d ↔ bound ≤ d := by
  simp [BoundReached, withBound]

section

variable (hunbounded : w.policy.depthBound = none)

include hunbounded

theorem descends_withBound {bound : Nat} {closed : List Method} {d : Nat} {a : Arrival} :
    (w.withBound bound).Descends closed d a ↔ w.Descends closed d a ∧ d < bound := by
  simp only [Descends, Admits, passes_withBound, boundReached_withBound, not_boundReached hunbounded,
    not_false_eq_true, and_true, Nat.not_le, and_assoc]

variable (hscope : w.policy.scope = .path)

include hscope

omit hunbounded in
theorem filter_linesBelow_eq_nil {bound d : Nat} (hd : bound ≤ d) (closed : List Method)
    (m : Method) : (w.linesBelow closed m d).filter (fun l => shownDepth l ≤ max bound d) = [] := by
  apply List.filter_eq_nil_iff.mpr
  intro l hl hkept
  have hbelow : d < shownDepth l := lt_depth_of_mem_linesBelow hscope hl
  have hle : shownDepth l ≤ max bound d := of_decide_eq_true hkept
  omega

/-- The block that the bound leaves of an arrival. -/
theorem block_withBound (bound : Nat) (closed : List Method) (d : Nat) (a : Arrival) :
    (w.withBound bound).block closed d a =
      (w.block closed d a).filter fun l => shownDepth l ≤ max bound d := by
  have hscopes : (w.withBound bound).policy.scope = .path := hscope
  -- down to the bound both walks close the same methods, so one induction serves for both
  induction closed, d, a using block_induction (w := w) with
  | step closed d a ih =>
    by_cases hshows : w.Shows a
    · have hown : decide (shownDepth (w.lineAt d a) ≤ max bound d) = true :=
        decide_eq_true (Nat.le_max_right bound d)
      rw [block_of_shows ((shows_withBound w _ a).mpr hshows), block_of_shows hshows,
        lineAt_withBound, List.filter_cons, if_pos hown]
      apply congrArg (w.lineAt d a :: ·)
      by_cases hdesc : w.Descends closed d a
      · rw [if_pos hdesc]
        by_cases hd : d < bound
        · have hmax : max bound (d + 1) = max bound d := by omega
          rw [if_pos ((descends_withBound hunbounded).mpr ⟨hdesc, hd⟩),
            linesBelow_eq_flatMap hscopes, linesBelow_eq_flatMap hscope, List.filter_flatMap]
          refine List.flatMap_congr fun c hc => ?_
          rw [ih hdesc c hc, hmax]
        · rw [if_neg fun h => hd ((descends_withBound hunbounded).mp h).2]
          exact (filter_linesBelow_eq_nil hscope (Nat.le_of_not_lt hd) _ _).symm
      · rw [if_neg hdesc, if_neg fun h => hdesc ((descends_withBound hunbounded).mp h).1]
        rfl
    · rw [block_of_not_shows hshows, block_of_not_shows (mt (shows_withBound w _ a).mp hshows)]
      rfl

end

/-- A depth bound cuts the trace of a path-scoped walk off: what is left are the lines down to the
bound, or down to the entry if that is deeper, with their sinks, their number and their greatest
depth in the summary. -/
theorem depth_bound_cuts_off (g : CallGraph) (p : Policy) (γ : Grouping) (bound : Nat)
    (entry : Method) (depth : Nat) (line : Option Int) :
    let bounded : Walk := ⟨g, { p with scope := .path, depthBound := some bound }, γ⟩
    let unbounded : Walk := ⟨g, { p with scope := .path, depthBound := none }, γ⟩
    let r := bounded.run none entry depth line
    let s := unbounded.run none entry depth line
    let kept := s.shown.filter fun l => l.1.depth ≤ max bound depth
    r.shown = kept ∧ r.lines = s.lines.filter (fun l => l.depth ≤ max bound depth) ∧
      ∃ x, r.outcome = .ok x ∧ x.lines = kept.length ∧
        x.sinks = (kept.filter fun l => l.1.isSink).map Prod.snd ∧
        (∀ l ∈ kept, l.1.depth ≤ x.deepest) ∧ (kept ≠ [] → ∃ l ∈ kept, l.1.depth = x.deepest) ∧
        (kept = [] → x.deepest = -1) := by
  intro bounded unbounded r s kept
  have hshown : r.shown = kept := by
    have hblock := block_withBound (w := unbounded) rfl rfl bound [] depth (.entry entry line)
    simp only [r, kept, s, shown_run_eq_block]
    exact hblock
  have houtcome : r.outcome = .ok (.ofShown kept) := hshown ▸ outcome_run bounded entry depth line
  refine ⟨hshown, ?_, .ofShown kept, houtcome, rfl, rfl, ?_, ?_, ?_⟩
  · rw [Run.lines, hshown, Run.lines, List.filter_map]
    rfl
  · intro l hl
    exact Summary.le_greatestDepth (List.mem_map_of_mem hl)
  · intro hne
    obtain ⟨k, hk, hdeepest⟩ := Summary.exists_depth_eq_greatestDepth (mt List.map_eq_nil_iff.mp hne)
    obtain ⟨l, hl, rfl⟩ := List.mem_map.mp hk
    exact ⟨l, hl, hdeepest⟩
  · intro hnone
    exact Summary.greatestDepth_eq_neg_one_iff.mpr (List.map_eq_nil_iff.mpr hnone)

end CallTrace.Walk
