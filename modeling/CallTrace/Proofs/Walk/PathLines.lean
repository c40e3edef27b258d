import CallTrace.Proofs.Graph.Index
import CallTrace.Proofs.Walk.Paths
import CallTrace.Proofs.Walk.RunEvents

/-!
# The lines of the paths

If a method stays closed only until its subtree is finished, a trace has one line for each path
that it shows. The lines stand in the order of the paths.
-/

namespace CallTrace.Walk

/-- The path to the line of the turn at the place `i`, if it has one. -/
def Turn.paths (i : Nat) (t : Turn) : List (List Hop) :=
  if t.shown = [] then [] else [[⟨i, t.call⟩]]

/-- The paths to the lines of an unfolding whose first turn has the place `i`. -/
def Unfolding.paths (i : Nat) : Unfolding → List (List Hop)
  | .done => []
  | .stay t _ rest => t.paths i ++ rest.paths (i + 1)
  | .descend t below rest =>
    ([] :: below.paths 0).map (⟨i, t.call⟩ :: ·) ++ rest.paths (i + 1)

theorem Turn.mem_paths_iff {t : Turn} {i : Nat} {p : List Hop} :
    p ∈ t.paths i ↔ t.shown ≠ [] ∧ p = [⟨i, t.call⟩] := by
  rw [paths]
  by_cases h : t.shown = []
  · rw [if_pos h]
    exact iff_of_false List.not_mem_nil fun hp => hp.1 h
  · rw [if_neg h, List.mem_singleton]
    exact (and_iff_right h).symm

/-- Every path begins at or after the place of the first turn. -/
theorem Unfolding.exists_cons_of_mem_paths {u : Unfolding} {i : Nat} {p : List Hop}
    (hp : p ∈ u.paths i) : ∃ h q, p = h :: q ∧ i ≤ h.position := by
  induction u generalizing i with
  | done => exact absurd hp List.not_mem_nil
  | stay t refusal rest ih =>
    cases List.mem_append.mp hp with
    | inl hp => exact ⟨⟨i, t.call⟩, [], (Turn.mem_paths_iff.mp hp).2, Nat.le_refl i⟩
    | inr hp =>
      obtain ⟨h, q, rfl, hi⟩ := ih hp
      exact ⟨h, q, rfl, Nat.le_of_succ_le hi⟩
  | descend t below rest _ ih =>
    cases List.mem_append.mp hp with
    | inl hp =>
      obtain ⟨q, -, rfl⟩ := List.mem_map.mp hp
      exact ⟨⟨i, t.call⟩, q, rfl, Nat.le_refl i⟩
    | inr hp =>
      obtain ⟨h, q, rfl, hi⟩ := ih hp
      exact ⟨h, q, rfl, Nat.le_of_succ_le hi⟩

theorem Unfolding.pairwise_paths (u : Unfolding) (i : Nat) : (u.paths i).Pairwise Before := by
  induction u generalizing i with
  | done => exact .nil
  | stay t refusal rest ih =>
    apply List.pairwise_append.mpr
    refine ⟨?_, ih (i + 1), ?_⟩
    · rw [Turn.paths]
      split
      · exact .nil
      · exact List.pairwise_singleton _ _
    · intro p hp q hq
      obtain ⟨k, q, rfl, hk⟩ := exists_cons_of_mem_paths hq
      rw [(Turn.mem_paths_iff.mp hp).2]
      exact before_of_position_lt hk
  | descend t below rest ihb ih =>
    apply List.pairwise_append.mpr
    refine ⟨?_, ih (i + 1), ?_⟩
    · apply List.pairwise_map.mpr
      apply List.pairwise_cons.mpr
      refine ⟨?_, ?_⟩
      · intro q hq
        obtain ⟨k, q, rfl, -⟩ := exists_cons_of_mem_paths hq
        exact .cons _ List.Lex.nil
      · exact (ihb 0).imp (.cons _)
    · intro p hp q hq
      obtain ⟨k, q, rfl, hk⟩ := exists_cons_of_mem_paths hq
      obtain ⟨p, -, rfl⟩ := List.mem_map.mp hp
      exact before_of_position_lt hk

section

variable {w : Walk} (hw : w.Indexed)

theorem shown_turn {m : Method} {k : Pick} (hk : k.call.caller = m) (d i : Nat) (root : Arrival) :
    let t : Turn := ⟨k, w.glance m d k⟩
    t.shown = (t.paths i).map (w.endLine root d) := by
  intro t
  have hline : w.endLine root d [⟨i, t.call⟩] = w.lineAt (d + 1) (.ofCall k.call) :=
    endLine_cons ..
  have hshown : t.shown = _ := shown_glance hk d
  by_cases h : Leads k ∧ w.Shows (.ofCall k.call)
  · rw [if_pos h] at hshown
    simp [Turn.paths, hshown, hline]
  · rw [if_neg h] at hshown
    simp [Turn.paths, hshown]

include hw

/-- The lines of an unfolding are the lines of its paths. -/
theorem shown_unfoldPicks (closed : List Method) (m : Method) (d : Nat) (ps : List Pick)
    (hps : ∀ k ∈ ps, k.call.caller = m) (i : Nat) (root : Arrival) :
    (w.unfoldPicks closed m d ps).events.filterMap Event.shown? =
      ((w.unfoldPicks closed m d ps).paths i).map (w.endLine root d) := by
  fun_induction unfoldPicks w closed m d ps generalizing i root with
  | case1 => rfl
  | case2 closed m d k ps t hopens ih =>
    obtain ⟨hk, hps⟩ := List.forall_mem_cons.mp hps
    have hturn : t.visit.events.filterMap Event.shown? = _ := shown_turn hk d i root
    rw [Unfolding.events, Unfolding.paths, List.map_append, List.filterMap_append, List.append_nil,
      hturn, ih hps (i + 1) root]
  | case3 closed m d k ps t n hopens hadm below ihb _ ih =>
    obtain ⟨hk, hps⟩ := List.forall_mem_cons.mp hps
    obtain ⟨hlead, hpass⟩ := (opens_glance hk d).mp (Bool.of_not_eq_false hopens)
    have hturn : t.visit.events.filterMap Event.shown? = [w.endLine root d [⟨i, t.call⟩]] := by
      rw [endLine_cons]
      exact (shown_glance hk d).trans (if_pos ⟨hlead, hpass.shows⟩)
    have hbelow : below.events.filterMap Event.shown? =
        (below.paths 0).map (w.endLine (.ofCall t.call) (d + 1)) := ihb (hw n) 0 (.ofCall t.call)
    rw [Unfolding.events, Unfolding.paths, List.map_append, List.filterMap_append,
      List.filterMap_append, hturn, hbelow, ih hps (i + 1) root, List.map_map]
    simp [Function.comp_def, endLine_cons, Hop.arrival]
  | case4 closed m d k ps t n hopens hadm ih =>
    obtain ⟨hk, hps⟩ := List.forall_mem_cons.mp hps
    have hturn : t.visit.events.filterMap Event.shown? = _ := shown_turn hk d i root
    rw [Unfolding.events, Unfolding.paths, List.map_append, List.filterMap_append,
      List.filterMap_append, shown_refusal, List.append_nil, hturn, ih hps (i + 1) root]

omit hw in
theorem selects_iff {m : Method} {k : Pick} {i : Nat} {h : Hop} (hk : (w.offers m)[i]? = some k)
    (hm : h.call.caller = m) (hi : h.position = i) :
    w.Selects h ↔ Leads k ∧ h = ⟨i, k.call⟩ := by
  obtain ⟨j, c⟩ := h
  obtain rfl : j = i := hi
  obtain rfl : c.caller = m := hm
  rw [Selects, hk, Option.some.injEq]
  constructor
  · intro h
    obtain ⟨rfl, hself⟩ := h
    exact ⟨hself, rfl⟩
  · intro h
    obtain ⟨hlead, heq⟩ := h
    obtain rfl : c = k.call := congrArg Hop.call heq
    have hfollow := eq_follow_of_leads hlead
    refine ⟨hfollow, ?_⟩
    rw [hfollow] at hlead
    exact hlead

/-- The path has no call before the place `i` of the first method. -/
def BeginsFrom (i : Nat) (p : List Hop) : Prop := ∀ h ∈ p.head?, i ≤ h.position

omit hw in
theorem beginsFrom_cons {i : Nat} {h : Hop} {p : List Hop} :
    BeginsFrom i (h :: p) ↔ i ≤ h.position := by
  simp [BeginsFrom]

theorem shownBelow_cons_iff {closed : List Method} {m : Method} {d i : Nat} {k : Pick}
    {q : List Hop} (hk : (w.offers m)[i]? = some k) :
    w.ShownBelow closed m d (⟨i, k.call⟩ :: q) ↔
      Leads k ∧ (q = [] ∧ w.Shows (.ofCall k.call) ∨
        w.Passes (.ofCall k.call) ∧ w.Admits closed k.call.callee (d + 1) ∧
          w.ShownBelow (k.call.callee :: closed) k.call.callee (d + 1) q) := by
  have hm : k.call.caller = m := hw m k (List.mem_of_getElem? hk)
  rw [ShownBelow, selects_iff hk hm rfl]
  simp [hm, Hop.arrival]

omit hw in
/-- A path from the place `i` on begins there, with the pick of that place, or later. -/
theorem shownBelow_from_iff {closed : List Method} {m : Method} {d i : Nat} {k : Pick}
    {p : List Hop} (hk : (w.offers m)[i]? = some k) :
    w.ShownBelow closed m d p ∧ BeginsFrom i p ↔
      (∃ q, p = ⟨i, k.call⟩ :: q ∧ w.ShownBelow closed m d p) ∨
        w.ShownBelow closed m d p ∧ BeginsFrom (i + 1) p := by
  constructor
  · intro h
    obtain ⟨hp, hi⟩ := h
    cases p with
    | nil => exact hp.elim
    | cons h q =>
      cases Nat.lt_or_eq_of_le (beginsFrom_cons.mp hi) with
      | inl hlt => exact .inr ⟨hp, beginsFrom_cons.mpr hlt⟩
      | inr heq =>
        refine .inl ⟨q, ?_, hp⟩
        rw [((selects_iff hk hp.1 heq.symm).mp hp.2.1).2]
  · intro h
    cases h with
    | inl hnow =>
      obtain ⟨q, rfl, hp⟩ := hnow
      exact ⟨hp, beginsFrom_cons.mpr (Nat.le_refl i)⟩
    | inr hlater => exact ⟨hlater.1, fun h hh => Nat.le_of_succ_le (hlater.2 h hh)⟩

/-- The paths of a turn that does not go below. -/
theorem mem_turnPaths_iff {closed : List Method} {m : Method} {d i : Nat} {k : Pick} {p : List Hop}
    (hk : (w.offers m)[i]? = some k)
    (hno : ¬ ((w.glance m d k).opens = true ∧ w.Admits closed k.call.callee (d + 1))) :
    p ∈ Turn.paths i ⟨k, w.glance m d k⟩ ↔
      ∃ q, p = ⟨i, k.call⟩ :: q ∧ w.ShownBelow closed m d p := by
  have hm : k.call.caller = m := hw m k (List.mem_of_getElem? hk)
  have hshown : Turn.shown ⟨k, w.glance m d k⟩ ≠ [] ↔ Leads k ∧ w.Shows (.ofCall k.call) := by
    rw [Turn.shown, shown_glance hm d]
    split <;> simp [*]
  have hbelow (q : List Hop) : w.ShownBelow closed m d (⟨i, k.call⟩ :: q) ↔
      q = [] ∧ Leads k ∧ w.Shows (.ofCall k.call) := by
    rw [shownBelow_cons_iff hw hk]
    constructor
    · intro h
      obtain ⟨hlead, ⟨rfl, hshows⟩ | ⟨hpass, hadm, -⟩⟩ := h
      · exact ⟨rfl, hlead, hshows⟩
      · exact absurd ⟨(opens_glance hm d).mpr ⟨hlead, hpass⟩, hadm⟩ hno
    · intro h
      obtain ⟨rfl, hlead, hshows⟩ := h
      exact ⟨hlead, .inl ⟨rfl, hshows⟩⟩
  rw [Turn.mem_paths_iff, hshown]
  constructor
  · intro h
    obtain ⟨hshows, rfl⟩ := h
    exact ⟨[], rfl, (hbelow []).mpr ⟨rfl, hshows⟩⟩
  · intro h
    obtain ⟨q, rfl, hq⟩ := h
    obtain ⟨rfl, hshows⟩ := (hbelow q).mp hq
    exact ⟨hshows, rfl⟩

omit hw in
theorem next_of_drop_eq {m : Method} {i : Nat} {k : Pick} {ps : List Pick}
    (h : k :: ps = (w.offers m).drop i) :
    (w.offers m)[i]? = some k ∧ ps = (w.offers m).drop (i + 1) := by
  constructor
  · rw [← Nat.add_zero i, ← List.getElem?_drop, ← h]
    rfl
  · rw [← List.tail_drop, ← h]
    rfl

omit hw in
theorem ShownBelow.anti {closed closed' : List Method} {m : Method} {d : Nat} {p : List Hop}
    (h : w.ShownBelow closed m d p) (hsub : closed' ⊆ closed) : w.ShownBelow closed' m d p := by
  induction p generalizing closed closed' m d with
  | nil => exact h
  | cons k p ih =>
    obtain ⟨hcaller, hsel, hlast | ⟨hpass, hadm, hp⟩⟩ := h
    · exact ⟨hcaller, hsel, .inl hlast⟩
    · exact ⟨hcaller, hsel, .inr ⟨hpass, ⟨fun hk => hadm.1 (hsub hk), hadm.2⟩,
        ih hp (List.cons_subset_cons _ hsub)⟩⟩

/-- Whatever stays closed, the paths of an unfolding can be shown. -/
theorem shownBelow_of_mem_paths (closed : List Method) (m : Method) (d : Nat) (ps : List Pick)
    (i : Nat) (hps : ps = (w.offers m).drop i) (p : List Hop) :
    p ∈ (w.unfoldPicks closed m d ps).paths i → w.ShownBelow closed m d p := by
  fun_induction unfoldPicks w closed m d ps generalizing i p with
  | case1 =>
    intro hp
    cases hp
  | case2 closed m d k ps t hopens ih =>
    obtain ⟨hk, hrest⟩ := next_of_drop_eq hps
    have hno : ¬ (t.visit.opens = true ∧ w.Admits closed k.call.callee (d + 1)) :=
      fun h => Bool.false_ne_true (hopens.symm.trans h.1)
    intro hp
    cases List.mem_append.mp hp with
    | inl hp =>
      obtain ⟨q, -, hq⟩ := (mem_turnPaths_iff hw hk hno).mp hp
      exact hq
    | inr hp => exact ih (i + 1) hrest p hp
  | case3 closed m d k ps t n hopens hadm below ihb _ ih =>
    obtain ⟨hk, hrest⟩ := next_of_drop_eq hps
    have hm : k.call.caller = m := hw m k (List.mem_of_getElem? hk)
    obtain ⟨hlead, hpass⟩ := (opens_glance hm d).mp (Bool.of_not_eq_false hopens)
    intro hp
    cases List.mem_append.mp hp with
    | inl hp =>
      obtain ⟨q, hq, rfl⟩ := List.mem_map.mp hp
      apply (shownBelow_cons_iff hw hk).mpr
      rcases List.mem_cons.mp hq with rfl | hq
      · exact ⟨hlead, .inl ⟨rfl, hpass.shows⟩⟩
      · exact ⟨hlead, .inr ⟨hpass, hadm, ihb 0 rfl q hq⟩⟩
    | inr hp => exact (ih (i + 1) hrest p hp).anti (w.subset_closedAfter _ closed)
  | case4 closed m d k ps t n hopens hadm ih =>
    obtain ⟨hk, hrest⟩ := next_of_drop_eq hps
    have hno : ¬ (t.visit.opens = true ∧ w.Admits closed k.call.callee (d + 1)) :=
      fun h => hadm h.2
    intro hp
    cases List.mem_append.mp hp with
    | inl hp =>
      obtain ⟨q, -, hq⟩ := (mem_turnPaths_iff hw hk hno).mp hp
      exact hq
    | inr hp => exact ih (i + 1) hrest p hp

/-- If nothing stays closed but the methods above, every path that can be shown is there. -/
theorem mem_paths_of_shownBelow (hscope : w.policy.scope = .path) (closed : List Method)
    (m : Method) (d : Nat) (ps : List Pick) (i : Nat) (hps : ps = (w.offers m).drop i)
    (p : List Hop) :
    w.ShownBelow closed m d p → BeginsFrom i p → p ∈ (w.unfoldPicks closed m d ps).paths i := by
  fun_induction unfoldPicks w closed m d ps generalizing i p with
  | case1 closed m d =>
    intro hp hi
    cases p with
    | nil => exact hp.elim
    | cons h q =>
      obtain ⟨rfl, hsel, -⟩ := hp
      have hend : (w.offers h.call.caller).length ≤ i := List.drop_eq_nil_iff.mp hps.symm
      have hnone : (w.offers h.call.caller)[h.position]? = none :=
        List.getElem?_eq_none (Nat.le_trans hend (beginsFrom_cons.mp hi))
      exact absurd (hnone.symm.trans hsel.1) (Option.some_ne_none _).symm
  | case2 closed m d k ps t hopens ih =>
    obtain ⟨hk, hrest⟩ := next_of_drop_eq hps
    have hno : ¬ (t.visit.opens = true ∧ w.Admits closed k.call.callee (d + 1)) :=
      fun h => Bool.false_ne_true (hopens.symm.trans h.1)
    intro hp hi
    apply List.mem_append.mpr
    cases (shownBelow_from_iff hk).mp ⟨hp, hi⟩ with
    | inl hnow => exact .inl ((mem_turnPaths_iff hw hk hno).mpr hnow)
    | inr hlater => exact .inr (ih (i + 1) hrest p hlater.1 hlater.2)
  | case3 closed m d k ps t n hopens hadm below ihb _ ih =>
    obtain ⟨hk, hrest⟩ := next_of_drop_eq hps
    intro hp hi
    apply List.mem_append.mpr
    cases (shownBelow_from_iff hk).mp ⟨hp, hi⟩ with
    | inl hnow =>
      obtain ⟨q, rfl, hq⟩ := hnow
      refine .inl (List.mem_map_of_mem ?_)
      obtain ⟨-, ⟨rfl, -⟩ | ⟨-, -, hq⟩⟩ := (shownBelow_cons_iff hw hk).mp hq
      · exact List.mem_cons_self
      · exact List.mem_cons_of_mem _ (ihb 0 rfl q hq fun _ _ => Nat.zero_le _)
    | inr hlater =>
      refine .inr (ih (i + 1) hrest p ?_ hlater.2)
      rw [closedAfter_of_path hscope]
      exact hlater.1
  | case4 closed m d k ps t n hopens hadm ih =>
    obtain ⟨hk, hrest⟩ := next_of_drop_eq hps
    have hno : ¬ (t.visit.opens = true ∧ w.Admits closed k.call.callee (d + 1)) :=
      fun h => hadm h.2
    intro hp hi
    apply List.mem_append.mpr
    cases (shownBelow_from_iff hk).mp ⟨hp, hi⟩ with
    | inl hnow => exact .inl ((mem_turnPaths_iff hw hk hno).mpr hnow)
    | inr hlater => exact .inr (ih (i + 1) hrest p hlater.1 hlater.2)

end

theorem mem_paths_unfolding_iff {w : Walk} (hw : w.Indexed)
    (hscope : w.policy.scope = .path) (entry : Method) (depth : Nat) (line : Option Int)
    (p : List Hop) :
    p ∈ (w.unfolding entry depth line).paths 0 ↔
      w.Expands entry depth line ∧ w.ShownBelow [entry] entry depth p := by
  rw [unfolding]
  by_cases h : w.Expands entry depth line
  · rw [if_pos h, and_iff_right h]
    constructor
    · exact shownBelow_of_mem_paths hw _ _ _ _ 0 rfl p
    · intro hp
      exact mem_paths_of_shownBelow hw hscope _ _ _ _ 0 rfl p hp fun _ _ => Nat.zero_le _
  · rw [if_neg h]
    exact ⟨fun hp => absurd hp List.not_mem_nil, fun hp => absurd hp.1 h⟩

theorem shown_unfolding {w : Walk} (hw : w.Indexed)
    (entry : Method) (depth : Nat) (line : Option Int) (root : Arrival) :
    (w.unfolding entry depth line).events.filterMap Event.shown? =
      ((w.unfolding entry depth line).paths 0).map (w.endLine root depth) := by
  rw [unfolding]
  split
  · exact shown_unfoldPicks hw [entry] entry depth _ (hw entry) 0 root
  · rfl

/-- If methods stay closed only on the way down, a trace shows exactly the call paths from the
entry, each in one line and in the order of the paths. These lines are all that is written after the
header. -/
theorem shown_run_eq_map_paths (cs : List Call) (p : Policy) (g : Grouping) (entry : Method)
    (depth : Nat) (line : Option Int) :
    let w : Walk := ⟨.ofCalls cs, { p with scope := .path }, g⟩
    let root := Arrival.entry entry line
    ∃ ps : List (List Hop), (∀ q, q ∈ ps ↔ w.ShownPath root depth q) ∧ ps.Pairwise Before ∧
      (w.run none entry depth line).shown = ps.map (w.endLine root depth) ∧
      (w.run none entry depth line).written = (Trace.header ++ "\n") ::
        ps.map (fun q => (w.endLine root depth q).1.text ++ "\n") := by
  intro w root
  have hw : w.Indexed := indexed_ofCalls _ _ _
  let top : List (List Hop) := if w.Shows root then [[]] else []
  have htop (q : List Hop) : q ∈ top ↔ q = [] ∧ w.Shows root := by
    by_cases h : w.Shows root <;> simp [top, h]
  have htopLines : (w.opening entry depth line).1.filterMap Event.shown? =
      top.map (w.endLine root depth) := by
    rw [shown_opening]
    by_cases h : w.Shows root
    · simp only [root, top, if_pos h]
      rfl
    · simp only [root, top, if_neg h]
      rfl
  have hshown : (w.run none entry depth line).shown =
      (top ++ (w.unfolding entry depth line).paths 0).map (w.endLine root depth) := by
    rw [shown_run_unlimited, story, List.filterMap_append, shown_unfolding hw, htopLines,
      List.map_append]
  refine ⟨top ++ (w.unfolding entry depth line).paths 0, ?_, ?_, hshown, ?_⟩
  · intro q
    have hpath : (w.ShownPath root depth q ∧ ∀ a ∈ above root q, a.method ∉ []) ↔ _ :=
      shownPath_iff
    rw [List.mem_append, htop, mem_paths_unfolding_iff hw rfl, expands_iff, and_assoc]
    exact hpath.symm.trans (and_iff_left fun _ _ => List.not_mem_nil)
  · apply List.pairwise_append.mpr
    refine ⟨?_, Unfolding.pairwise_paths _ 0, ?_⟩
    · by_cases h : w.Shows root <;> simp [top, h]
    · intro q hq r hr
      obtain ⟨h, r, rfl, -⟩ := Unfolding.exists_cons_of_mem_paths hr
      rw [((htop q).mp hq).1]
      exact List.Lex.nil
  · rw [written_run, Run.lines, hshown, List.map_map, List.map_map]
    rfl

end CallTrace.Walk
