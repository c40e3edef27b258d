import CallTrace.Proofs.Walk.CallLines

/-!
# Cut methods

A walk that keeps methods closed to its end may meet a method first where the depth bound refuses
it, and later find everything closed through which it would come to the method at less depth. What
such a walk shows less than one that closes methods on the path only is what lies behind methods
cut in this way.
-/

namespace CallTrace.Walk

/-- The depth bound has kept the method from being expanded anywhere in the run. -/
def CutOff (w : Walk) (entry : Method) (depth : Nat) (line : Option Int) (m : Method) : Prop :=
  m ∉ w.expanded entry depth line ∧
    ∃ d, .logged (.depthLimit m d) ∈ (w.run none entry depth line).events

/-- A path of an unfolding passes through methods that are opened. -/
theorem Unfolding.mem_opened_of_mem_above {u : Unfolding} {i : Nat} {p : List Hop}
    (hp : p ∈ u.paths i) (root : Arrival) :
    ∀ a ∈ above root p, a = root ∨ a.method ∈ u.opened := by
  induction u generalizing i p root with
  | done => cases hp
  | stay t refusal rest ih =>
    rcases List.mem_append.mp hp with hp | hp
    · rw [(Turn.mem_paths_iff.mp hp).2]
      intro a ha
      exact .inl (List.mem_singleton.mp ha)
    · exact ih hp root
  | descend t below rest ihb ih =>
    rcases List.mem_append.mp hp with hp | hp
    · obtain ⟨q, hq, rfl⟩ := List.mem_map.mp hp
      rw [above_cons]
      intro a ha
      rcases List.mem_cons.mp ha with rfl | ha
      · exact .inl rfl
      · right
        rcases List.mem_cons.mp hq with rfl | hq
        · cases ha
        · have hbelow : a.method ∈ below.opened ++ [t.call.callee] := by
            rcases ihb hq _ a ha with rfl | ha
            · exact List.mem_append_right _ (List.mem_singleton.mpr rfl)
            · exact List.mem_append_left _ ha
          exact List.mem_append_right _ hbelow
    · intro a ha
      exact (ih hp root a ha).imp_right (List.mem_append_left _)

@[simp] theorem shownPath_withScope (w : Walk) (s : Scope) (root : Arrival) (d : Nat)
    (p : List Hop) : (w.withScope s).ShownPath root d p ↔ w.ShownPath root d p := by
  constructor <;>
  · intro h
    exact ⟨h.linked, by simpa using h.selected, h.distinct, by simpa using h.passed,
      by simpa using h.shown, h.bounded⟩

/-- A path with calls ends with one that leaves a method which it passes. -/
theorem exists_last_hop {root : Arrival} {p : List Hop} (hp : p ≠ [])
    (hlinked : Linked root.method p) :
    ∃ h ∈ p, endOf root p = h.arrival ∧ ∃ a ∈ above root p, h.call.caller = a.method := by
  induction p generalizing root with
  | nil => exact absurd rfl hp
  | cons h p ih =>
    cases p with
    | nil => exact ⟨h, List.mem_cons_self, rfl, root, List.mem_cons_self, hlinked.1⟩
    | cons k q =>
      have hrest : Linked h.arrival.method (k :: q) := hlinked.2
      obtain ⟨l, hl, hend, a, ha, hcaller⟩ := ih (List.cons_ne_nil k q) hrest
      rw [endOf_cons, above_cons]
      exact ⟨l, List.mem_cons_of_mem _ hl, hend, a, List.mem_cons_of_mem _ ha, hcaller⟩

section

variable {w : Walk} (hw : w.Indexed) {entry : Method} {depth : Nat} {line : Option Int}

include hw

/-- Each path of a run can be shown, and it passes through methods that the run expands. -/
theorem shownPath_of_mem_paths {p : List Hop}
    (hp : p ∈ (w.unfolding entry depth line).paths 0) :
    w.ShownPath (.entry entry line) depth p ∧
      ∀ a ∈ above (.entry entry line) p, a.method ∈ w.expanded entry depth line := by
  rw [expanded_eq]
  have hopened := Unfolding.mem_opened_of_mem_above hp (.entry entry line)
  by_cases hexp : w.Expands entry depth line
  · rw [unfolding, if_pos hexp] at hp
    have hbelow := shownBelow_of_mem_paths hw _ _ _ _ 0 rfl p hp
    have hpath : w.ShownPath (.entry entry line) depth p ∧
        ∀ a ∈ above (.entry entry line) p, a.method ∉ [] :=
      shownPath_iff.mpr (.inr ⟨(expands_iff.mp hexp).1, (expands_iff.mp hexp).2, hbelow⟩)
    refine ⟨hpath.1, ?_⟩
    rw [if_pos hexp]
    intro a ha
    rcases hopened a ha with rfl | hmem
    · exact List.mem_cons_self
    · exact List.mem_cons_of_mem _ (List.mem_reverse.mpr hmem)
  · rw [unfolding, if_neg hexp] at hp
    cases hp

/-- On a path none of whose methods the bound has cut off, all are expanded. -/
theorem expanded_of_not_cutOff {root : Arrival} {d : Nat} {p : List Hop}
    (hpath : w.ShownPath root d p) (hroot : p ≠ [] → root.method ∈ w.expanded entry depth line)
    (hcut : ∀ a ∈ above root p, ¬ w.CutOff entry depth line a.method) :
    ∀ a ∈ above root p, a.method ∈ w.expanded entry depth line := by
  induction p generalizing root d with
  | nil =>
    intro a ha
    cases ha
  | cons h p ih =>
    have hexp := hroot (List.cons_ne_nil h p)
    have hall := shownPath_cons_iff.mp (And.intro hpath fun a _ => List.not_mem_nil)
    obtain ⟨-, -, hcaller, hsel, hrest, -⟩ := hall
    rw [above_cons] at hcut ⊢
    obtain ⟨-, hcut⟩ := List.forall_mem_cons.mp hcut
    refine List.forall_mem_cons.mpr ⟨hexp, ih hrest ?_ hcut⟩
    intro hp
    have hnext : h.arrival ∈ above h.arrival p := by
      cases p with
      | nil => exact absurd rfl hp
      | cons k q => exact List.mem_cons_self
    obtain ⟨x, hx, hmethod⟩ := List.mem_map.mp hexp
    have hk : .follow h.call ∈ w.offers x.method := by
      rw [hmethod, ← hcaller]
      exact List.mem_of_getElem? hsel.1
    rcases treated_of_mem_expansions hw hx hk hsel.2 (hrest.passed _ hnext) with
      hmem | hmem | ⟨-, hlog⟩
    · exact absurd hmem List.not_mem_nil
    · exact hmem
    · exact Classical.byContradiction fun hmem => hcut _ hnext ⟨hmem, _, hlog⟩

/-- A run shows its entry and then a line for each path, in this order. -/
theorem shown_run_eq_paths (root : Arrival) :
    (w.run none entry depth line).shown =
      (if w.Shows (.entry entry line) then [w.lineAt depth (.entry entry line)] else []) ++
        ((w.unfolding entry depth line).paths 0).map (w.endLine root depth) := by
  rw [shown_run_unlimited, story, List.filterMap_append, shown_opening,
    shown_unfolding hw entry depth line root]

/-- What a run shows are the paths on which the bound has cut off no method. -/
theorem mem_flat_shown_iff_kept {l : Trace.Line × Method} :
    l ∈ (w.run none entry depth line).shown.map flat ↔
      ∃ p, w.ShownPath (.entry entry line) depth p ∧
        (∀ a ∈ above (.entry entry line) p, ¬ w.CutOff entry depth line a.method) ∧
          l = w.lineAt 0 (endOf (.entry entry line) p) := by
  constructor
  · intro hl
    obtain ⟨s, hs, rfl⟩ := List.mem_map.mp hl
    rw [shown_run_eq_paths hw (.entry entry line)] at hs
    rcases List.mem_append.mp hs with hs | hs
    · split at hs
      · next hshows =>
        obtain rfl := List.mem_singleton.mp hs
        refine ⟨[], shownPath_nil.mpr hshows, ?_, flat_lineAt ..⟩
        intro a ha
        cases ha
      · cases hs
    · obtain ⟨p, hp, rfl⟩ := List.mem_map.mp hs
      obtain ⟨hpath, hexp⟩ := shownPath_of_mem_paths hw hp
      exact ⟨p, hpath, fun a ha hcut => hcut.1 (hexp a ha), flat_lineAt ..⟩
  · rintro ⟨p, hpath, hcut, rfl⟩
    apply (mem_flat_shown_iff hw).mpr
    by_cases hp : p = []
    · subst hp
      exact .inl ⟨shownPath_nil.mp hpath, rfl⟩
    · right
      obtain ⟨h, hh, hend, a, ha, hcaller⟩ := exists_last_hop hp hpath.linked
      have hroot : entry ∈ w.expanded entry depth line := by
        obtain ⟨k, q, rfl⟩ := List.exists_cons_of_ne_nil hp
        have hall := shownPath_cons_iff.mp (And.intro hpath fun a _ => List.not_mem_nil)
        exact List.mem_map_of_mem (entry_mem_expansions (expands_iff.mpr ⟨hall.1, hall.2.1⟩))
      have hexp := expanded_of_not_cutOff hw hpath (fun _ => hroot) hcut a ha
      refine ⟨h, ?_, hpath.selected h hh, ?_, congrArg _ hend⟩
      · rw [hcaller]
        exact hexp
      · rw [← hend]
        exact hpath.shown

/-- If methods stay closed on the path only, a run shows all paths. -/
theorem mem_flat_shown_iff_path (hscope : w.policy.scope = .path) {l : Trace.Line × Method} :
    l ∈ (w.run none entry depth line).shown.map flat ↔
      ∃ p, w.ShownPath (.entry entry line) depth p ∧
        l = w.lineAt 0 (endOf (.entry entry line) p) := by
  constructor
  · intro hl
    obtain ⟨p, hpath, -, hline⟩ := (mem_flat_shown_iff_kept hw).mp hl
    exact ⟨p, hpath, hline⟩
  · rintro ⟨p, hpath, rfl⟩
    apply List.mem_map.mpr
    refine ⟨w.endLine (.entry entry line) depth p, ?_, flat_lineAt ..⟩
    rw [shown_run_eq_paths hw (.entry entry line)]
    rcases shownPath_iff.mp (And.intro hpath fun a _ => List.not_mem_nil) with
      ⟨rfl, hshows⟩ | ⟨hpass, hadm, hbelow⟩
    · rw [if_pos hshows]
      exact List.mem_append_left _ (List.mem_singleton.mpr rfl)
    · apply List.mem_append_right
      apply List.mem_map_of_mem
      exact (mem_paths_unfolding_iff hw hscope ..).mpr ⟨expands_iff.mpr ⟨hpass, hadm⟩, hbelow⟩

end

/-- The methods and the sinks of a run are those at the ends of its paths. -/
theorem methods_and_sinks_iff {w : Walk} {ls : List (Trace.Line × Method)} {root : Arrival}
    {P : List Hop → Prop}
    (h : ∀ l, l ∈ ls.map flat ↔ ∃ p, P p ∧ l = w.lineAt 0 (endOf root p)) :
    (∀ m, m ∈ ls.map Prod.snd ↔ ∃ p, P p ∧ (endOf root p).method = m) ∧
      ∀ m, m ∈ (Summary.ofShown ls).sinks ↔
        ∃ p, P p ∧ w.verdictAt (endOf root p) = .sink ∧ (endOf root p).method = m := by
  have hsnd : ls.map Prod.snd = (ls.map flat).map Prod.snd := by
    rw [List.map_map]
    rfl
  constructor
  · intro m
    rw [hsnd, List.mem_map]
    simp only [h]
    constructor
    · rintro ⟨l, ⟨p, hp, rfl⟩, rfl⟩
      exact ⟨p, hp, rfl⟩
    · rintro ⟨p, hp, rfl⟩
      exact ⟨_, ⟨p, hp, rfl⟩, rfl⟩
  · intro m
    rw [mem_sinks_iff_flat]
    simp only [h]
    constructor
    · rintro ⟨l, ⟨p, hp, rfl⟩, hsink, rfl⟩
      exact ⟨p, hp, of_decide_eq_true hsink, rfl⟩
    · rintro ⟨p, hp, hsink, rfl⟩
      exact ⟨_, ⟨p, hp, rfl⟩, decide_eq_true hsink, rfl⟩

/-- What closing methods to the end of the walk takes away from a trace with a depth bound lies
behind methods that this walk meets at the bound and never expands. -/
theorem global_loses_what_is_cut_off (cs : List Call) (p : Policy) (g : Grouping) (entry : Method)
    (depth : Nat) (line : Option Int) :
    let w : Walk := ⟨.ofCalls cs, p, g⟩
    let root := Arrival.entry entry line
    let run (s : Scope) := (w.withScope s).run none entry depth line
    let Kept (q : List Hop) :=
      ∀ a ∈ above root q, ¬ (w.withScope .global).CutOff entry depth line a.method
    (∀ m, m ∈ (run .path).shown.map Prod.snd ↔
      ∃ q, w.ShownPath root depth q ∧ (endOf root q).method = m) ∧
    (∀ m, m ∈ (run .global).shown.map Prod.snd ↔
      ∃ q, (w.ShownPath root depth q ∧ Kept q) ∧ (endOf root q).method = m) ∧
    (∀ m, m ∈ (run .path).summary.sinks ↔
      ∃ q, w.ShownPath root depth q ∧
        w.verdictAt (endOf root q) = .sink ∧ (endOf root q).method = m) ∧
    (∀ m, m ∈ (run .global).summary.sinks ↔
      ∃ q, (w.ShownPath root depth q ∧ Kept q) ∧
        w.verdictAt (endOf root q) = .sink ∧ (endOf root q).method = m) := by
  intro w root run Kept
  have hw (s : Scope) : (w.withScope s).Indexed := indexed_ofCalls _ _ _
  have hpath (l : Trace.Line × Method) : l ∈ (run .path).shown.map flat ↔
      ∃ q, w.ShownPath root depth q ∧ l = w.lineAt 0 (endOf root q) := by
    apply (mem_flat_shown_iff_path (hw .path) rfl).trans
    simp only [shownPath_withScope, lineAt_withScope, root]
  have hglobal (l : Trace.Line × Method) : l ∈ (run .global).shown.map flat ↔
      ∃ q, (w.ShownPath root depth q ∧ Kept q) ∧ l = w.lineAt 0 (endOf root q) := by
    apply (mem_flat_shown_iff_kept (hw .global)).trans
    simp only [shownPath_withScope, lineAt_withScope, root, Kept, and_assoc]
  obtain ⟨hpathMethods, hpathSinks⟩ := methods_and_sinks_iff hpath
  obtain ⟨hglobalMethods, hglobalSinks⟩ := methods_and_sinks_iff hglobal
  exact ⟨hpathMethods, hglobalMethods, hpathSinks, hglobalSinks⟩

/-- The shared method is expanded first where its callee is already at the bound. -/
theorem sink_lost_behind_cut_method :
    let start : Method := { name := "main", owner := "App" }
    let first : Method := { name := "first", owner := "App" }
    let shared : Method := { name := "shared", owner := "App" }
    let middle : Method := { name := "middle", owner := "App" }
    let leaf : Method := { name := "write", owner := "Log" }
    let calls : List Call := [{ caller := start, callee := first, line := some 1 },
      { caller := first, callee := shared, line := some 2 },
      { caller := start, callee := shared, line := some 3 },
      { caller := shared, callee := middle, line := some 4 },
      { caller := middle, callee := leaf, line := some 5 }]
    let p : Policy :=
      { classes := { hidden := ["Log"] }, sinks := .ofList [("Log", .ofList ["write"])],
        depthBound := some 3 }
    let w : Walk := ⟨.ofCalls calls, p, .byAlias⟩
    leaf ∈ ((w.withScope .path).run none start 0 none).summary.sinks ∧
      leaf ∉ ((w.withScope .global).run none start 0 none).shown.map Prod.snd := by
  intro start first shared middle leaf calls p w
  decide +kernel +revert

end CallTrace.Walk
