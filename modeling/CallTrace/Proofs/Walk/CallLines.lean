import CallTrace.Proofs.Walk.Coverage
import CallTrace.Proofs.Walk.PathLines

/-!
# The calls that a run shows

Below the line of its entry a run shows a line for a call whenever it takes the call in a turn of
the caller. Which calls these are depends on the methods expanded alone. Without a depth bound
they are therefore the same in both scopes.
-/

namespace CallTrace.Walk

/-- A line below the entry, with the method shown and the call that it is shown for. -/
structure CallLine where
  hop : Hop
  shown : Trace.Line × Method

/-- A line apart from its depth. -/
def flat (l : Trace.Line × Method) : Trace.Line × Method := ({ l.1 with depth := 0 }, l.2)

def CallLine.content (c : CallLine) : Hop × (Trace.Line × Method) := (c.hop, flat c.shown)

/-- The method that a call leaves, and which of its picks the call is. -/
def Hop.place (h : Hop) : Method × Nat := (h.call.caller, h.position)

def Turn.callLines (i : Nat) (t : Turn) : List CallLine := t.shown.map fun l => ⟨⟨i, t.call⟩, l⟩

/-- The lines of the turns of one method, the first of which has the place `i`. -/
def callLinesFrom (i : Nat) (ts : List Turn) : List CallLine :=
  (ts.zipIdx i).flatMap fun s => s.1.callLines s.2

def Expansion.callLines (x : Expansion) : List CallLine := callLinesFrom 0 x.turns

def Unfolding.callLines (i : Nat) : Unfolding → List CallLine
  | done => []
  | stay t _ rest => t.callLines i ++ rest.callLines (i + 1)
  | descend t below rest => t.callLines i ++ below.callLines 0 ++ rest.callLines (i + 1)

/-- The lines of a run below that of its entry. -/
def callLines (w : Walk) (entry : Method) (depth : Nat) (line : Option Int) : List CallLine :=
  (w.unfolding entry depth line).callLines 0

theorem flat_lineAt (w : Walk) (d : Nat) (a : Arrival) : flat (w.lineAt d a) = w.lineAt 0 a := by
  rw [flat, lineAt, lineAt, shownLine, shownLine]

@[simp] theorem selects_withScope (w : Walk) (s : Scope) (h : Hop) :
    (w.withScope s).Selects h ↔ w.Selects h :=
  Iff.rfl

theorem Turn.map_shown_callLines (t : Turn) (i : Nat) :
    (t.callLines i).map CallLine.shown = t.shown := by
  simp [callLines, Function.comp_def]

theorem callLinesFrom_cons (i : Nat) (t : Turn) (ts : List Turn) :
    callLinesFrom i (t :: ts) = t.callLines i ++ callLinesFrom (i + 1) ts := by
  rw [callLinesFrom, List.zipIdx_cons, List.flatMap_cons]
  rfl

theorem map_shown_unfoldPicks (w : Walk) (closed : List Method) (m : Method) (d : Nat)
    (ps : List Pick) (i : Nat) :
    ((w.unfoldPicks closed m d ps).callLines i).map CallLine.shown =
      (w.unfoldPicks closed m d ps).events.filterMap Event.shown? := by
  fun_induction unfoldPicks w closed m d ps generalizing i with
  | case1 => rfl
  | case2 closed m d k ps t hopens ih =>
    rw [Unfolding.callLines, Unfolding.events, List.map_append, Turn.map_shown_callLines, ih,
      List.append_nil, List.filterMap_append]
    rfl
  | case3 closed m d k ps t n hopens hadm below ihb _ ih =>
    have hbelow : (below.callLines 0).map CallLine.shown = below.events.filterMap Event.shown? :=
      ihb 0
    rw [Unfolding.callLines, Unfolding.events, List.map_append, List.map_append,
      Turn.map_shown_callLines, hbelow, ih, List.filterMap_append, List.filterMap_append]
    rfl
  | case4 closed m d k ps t n hopens hadm ih =>
    rw [Unfolding.callLines, Unfolding.events, List.map_append, Turn.map_shown_callLines, ih,
      List.filterMap_append, List.filterMap_append, shown_refusal, List.append_nil]
    rfl

theorem Unfolding.callLines_perm (u : Unfolding) (d i : Nat) :
    (u.callLines i).Perm
      (callLinesFrom i u.turns ++ (u.expansions d).flatMap Expansion.callLines) := by
  induction u generalizing d i with
  | done => exact .nil
  | stay t refusal rest ih =>
    rw [callLines, turns, expansions, callLinesFrom_cons, List.append_assoc]
    exact (ih d (i + 1)).append_left _
  | descend t below rest ihb ih =>
    rw [callLines, turns, expansions, callLinesFrom_cons, List.flatMap_cons, List.flatMap_append,
      List.append_assoc, List.append_assoc]
    have hbelow : (below.callLines 0).Perm (Expansion.callLines ⟨t.call.callee, d + 1, below.turns⟩ ++
        (below.expansions (d + 1)).flatMap Expansion.callLines) := ihb (d + 1) 0
    -- what is below a turn stands before the later turns
    have hall := (hbelow.append (ih d (i + 1))).trans (List.perm_append_comm_assoc _ _ _)
    rw [List.append_assoc (Expansion.callLines _)] at hall
    exact hall.append_left _

section

variable (w : Walk) (entry : Method) (depth : Nat) (line : Option Int)

/-- A run shows its entry and then a line for each call, in this order. -/
theorem shown_run_eq :
    (w.run none entry depth line).shown =
      (if w.Shows (.entry entry line) then [w.lineAt depth (.entry entry line)] else []) ++
        (w.callLines entry depth line).map CallLine.shown := by
  rw [shown_run_unlimited, story, List.filterMap_append, shown_opening, callLines, unfolding]
  apply congrArg
  split
  · exact (map_shown_unfoldPicks ..).symm
  · rfl

theorem callLines_eq_nil (h : ¬ w.Shows (.entry entry line)) :
    w.callLines entry depth line = [] := by
  have hexp : ¬ w.Expands entry depth line := fun hexp => h (expands_iff.mp hexp).1.shows
  rw [callLines, unfolding, if_neg hexp]
  rfl

theorem callLines_perm_expansions :
    (w.callLines entry depth line).Perm
      ((w.expansions entry depth line).flatMap Expansion.callLines) := by
  rw [callLines, expansions, unfolding]
  split
  · exact Unfolding.callLines_perm _ depth 0
  · exact .nil

end

section

variable {w : Walk} (hw : w.Indexed)

include hw

/-- An expansion has a line for each call of its method that leads to a method shown. -/
theorem Expansion.Sound.mem_callLines_iff {x : Expansion} (hx : x.Sound w) {h : Hop}
    {l : Trace.Line × Method} :
    ⟨h, l⟩ ∈ x.callLines ↔ h.call.caller = x.method ∧ w.Selects h ∧ w.Shows h.arrival ∧
      l = w.lineAt (x.depth + 1) h.arrival := by
  rw [callLines, callLinesFrom, hx.turns_eq, turnsAt]
  constructor
  · intro hc
    obtain ⟨⟨t, i⟩, ht, hc⟩ := List.mem_flatMap.mp hc
    obtain ⟨l, hl, heq⟩ := List.mem_map.mp hc
    cases heq
    have hi := List.mk_mem_zipIdx_iff_getElem?.mp ht
    rw [List.getElem?_map] at hi
    obtain ⟨k, hk, rfl⟩ := Option.map_eq_some_iff.mp hi
    have hcaller := hw _ k (List.mem_of_getElem? hk)
    have hshown : Turn.shown ⟨k, w.glance x.method x.depth k⟩ = _ := shown_glance hcaller x.depth
    rw [hshown] at hl
    split at hl
    · next h =>
      exact ⟨hcaller, (selects_iff hk hcaller rfl).mpr ⟨h.1, rfl⟩, h.2, List.mem_singleton.mp hl⟩
    · exact absurd hl List.not_mem_nil
  · rintro ⟨hcaller, hsel, hshows, hline⟩
    let k : Pick := .follow h.call
    have hk : (w.offers x.method)[h.position]? = some k := by
      rw [← hcaller]
      exact hsel.1
    have hshown : Turn.shown ⟨k, w.glance x.method x.depth k⟩ = _ :=
      shown_glance (p := k) hcaller x.depth
    apply List.mem_flatMap.mpr
    refine ⟨(⟨k, w.glance x.method x.depth k⟩, h.position), ?_, ?_⟩
    · apply List.mk_mem_zipIdx_iff_getElem?.mpr
      rw [List.getElem?_map, hk]
      rfl
    · apply List.mem_map.mpr
      refine ⟨l, ?_, rfl⟩
      rw [hshown, if_pos ⟨hsel.2, hshows⟩]
      exact List.mem_singleton.mpr hline

/-- A run has a line for each call of an expanded method that leads to a method shown. -/
theorem mem_callLines_iff {entry : Method} {depth : Nat} {line : Option Int} {h : Hop}
    {l : Trace.Line × Method} :
    ⟨h, l⟩ ∈ w.callLines entry depth line ↔ w.Selects h ∧ w.Shows h.arrival ∧
      ∃ x ∈ w.expansions entry depth line, h.call.caller = x.method ∧
        l = w.lineAt (x.depth + 1) h.arrival := by
  rw [(w.callLines_perm_expansions entry depth line).mem_iff, List.mem_flatMap]
  constructor
  · rintro ⟨x, hx, hc⟩
    obtain ⟨hcaller, hsel, hshows, hline⟩ :=
      ((sound_of_mem_expansions hw hx).mem_callLines_iff hw).mp hc
    exact ⟨hsel, hshows, x, hx, hcaller, hline⟩
  · rintro ⟨hsel, hshows, x, hx, hcaller, hline⟩
    exact ⟨x, hx, ((sound_of_mem_expansions hw hx).mem_callLines_iff hw).mpr
      ⟨hcaller, hsel, hshows, hline⟩⟩

/-- What the lines of a run say depends on the methods expanded alone. -/
theorem mem_content_iff {entry : Method} {depth : Nat} {line : Option Int} {h : Hop}
    {l : Trace.Line × Method} :
    (h, l) ∈ (w.callLines entry depth line).map CallLine.content ↔
      h.call.caller ∈ w.expanded entry depth line ∧ w.Selects h ∧ w.Shows h.arrival ∧
        l = w.lineAt 0 h.arrival := by
  constructor
  · intro hl
    obtain ⟨⟨k, s⟩, hc, heq⟩ := List.mem_map.mp hl
    obtain ⟨hsel, hshows, x, hx, hcaller, rfl⟩ := (mem_callLines_iff hw).mp hc
    obtain ⟨rfl, rfl⟩ := Prod.mk.inj heq
    rw [hcaller]
    exact ⟨List.mem_map_of_mem hx, hsel, hshows, flat_lineAt ..⟩
  · rintro ⟨hexp, hsel, hshows, rfl⟩
    obtain ⟨x, hx, hcaller⟩ := List.mem_map.mp hexp
    apply List.mem_map.mpr
    refine ⟨⟨h, w.lineAt (x.depth + 1) h.arrival⟩, ?_, ?_⟩
    · exact (mem_callLines_iff hw).mpr ⟨hsel, hshows, x, hx, hcaller.symm, rfl⟩
    · rw [CallLine.content, flat_lineAt]

/-- Apart from depths, a run shows its entry and the calls of the methods expanded. -/
theorem mem_flat_shown_iff {entry : Method} {depth : Nat} {line : Option Int}
    {l : Trace.Line × Method} :
    l ∈ (w.run none entry depth line).shown.map flat ↔
      (w.Shows (.entry entry line) ∧ l = w.lineAt 0 (.entry entry line)) ∨
        ∃ h, h.call.caller ∈ w.expanded entry depth line ∧ w.Selects h ∧ w.Shows h.arrival ∧
          l = w.lineAt 0 h.arrival := by
  have htop : l ∈ (if w.Shows (.entry entry line) then [w.lineAt depth (.entry entry line)]
      else []).map flat ↔ w.Shows (.entry entry line) ∧ l = w.lineAt 0 (.entry entry line) := by
    split <;> simp [flat_lineAt, *]
  have hcalls : l ∈ ((w.callLines entry depth line).map CallLine.shown).map flat ↔
      ∃ h, (h, l) ∈ (w.callLines entry depth line).map CallLine.content := by
    constructor
    · intro hl
      rw [List.map_map] at hl
      obtain ⟨c, hc, rfl⟩ := List.mem_map.mp hl
      exact ⟨c.hop, List.mem_map_of_mem hc⟩
    · rintro ⟨h, hl⟩
      obtain ⟨c, hc, heq⟩ := List.mem_map.mp hl
      rw [← (Prod.mk.inj heq).2]
      exact List.mem_map_of_mem (List.mem_map_of_mem hc)
  rw [shown_run_eq, List.map_append, List.mem_append, htop, hcalls]
  simp only [mem_content_iff hw]

theorem Expansion.Sound.nodup_places {x : Expansion} (hx : x.Sound w) :
    (x.callLines.map fun c => c.hop.place).Nodup := by
  rw [callLines, callLinesFrom, List.map_flatMap]
  apply List.nodup_flatMap.mpr
  constructor
  · rintro ⟨t, i⟩ ht
    obtain ⟨-, hcaller, hvisit⟩ := hx.of_mem_turns hw (List.fst_mem_of_mem_zipIdx ht)
    have hshown : t.shown = _ :=
      (congrArg (fun v => v.events.filterMap Event.shown?) hvisit).trans
        (shown_glance hcaller x.depth)
    rw [Turn.callLines, hshown]
    split <;> simp
  · have hplaces : (x.turns.zipIdx.map Prod.snd).Nodup := by
      simp [List.nodup_range']
    apply (List.pairwise_map.mp hplaces).imp
    intro s t hne
    apply List.disjoint_left.mpr
    intro a ha hb
    simp only [Turn.callLines, List.map_map, List.mem_map, Function.comp_apply] at ha hb
    obtain ⟨_, -, rfl⟩ := ha
    obtain ⟨_, -, heq⟩ := hb
    exact hne (Prod.mk.inj heq).2.symm

/-- If methods stay closed for the whole walk, a run has one line at most for a call. -/
theorem nodup_places (hscope : w.policy.scope = .global) (entry : Method) (depth : Nat)
    (line : Option Int) :
    ((w.callLines entry depth line).map fun c => c.hop.place).Nodup := by
  apply ((w.callLines_perm_expansions entry depth line).map _).nodup_iff.mpr
  rw [List.map_flatMap]
  apply List.nodup_flatMap.mpr
  constructor
  · intro x hx
    exact (sound_of_mem_expansions hw hx).nodup_places hw
  · apply (List.pairwise_map.mp (nodup_expanded hscope entry depth line)).imp_of_mem
    intro x y hx hy hne
    apply List.disjoint_left.mpr
    intro a ha hb
    obtain ⟨⟨h, _⟩, hc, rfl⟩ := List.mem_map.mp ha
    obtain ⟨⟨k, _⟩, hd, heq⟩ := List.mem_map.mp hb
    have hcaller := (((sound_of_mem_expansions hw hx).mem_callLines_iff hw).mp hc).1
    have kcaller := (((sound_of_mem_expansions hw hy).mem_callLines_iff hw).mp hd).1
    exact hne (hcaller.symm.trans ((Prod.mk.inj heq).1.symm.trans kcaller))

end

/-- A sink is known by its line, whatever the depth of the line. -/
theorem mem_sinks_iff_flat {ls : List (Trace.Line × Method)} {m : Method} :
    m ∈ (Summary.ofShown ls).sinks ↔ ∃ l ∈ ls.map flat, l.1.isSink = true ∧ l.2 = m := by
  simp [Summary.ofShown, flat, and_assoc]

/-- Without a depth bound it makes no difference to the calls shown whether methods stay closed on
the path or for the whole walk; in the latter case each call is shown once. -/
theorem scopes_show_same_calls (cs : List Call) (p : Policy) (g : Grouping) (entry : Method)
    (depth : Nat) (line : Option Int) :
    let w : Walk := ⟨.ofCalls cs, { p with depthBound := none }, g⟩
    let root := Arrival.entry entry line
    let run (s : Scope) := (w.withScope s).run none entry depth line
    let calls (s : Scope) := (w.withScope s).callLines entry depth line
    (∀ s, (run s).shown =
      (if w.Shows root then [w.lineAt depth root] else []) ++ (calls s).map CallLine.shown) ∧
    (∀ s, ∀ c ∈ calls s, w.Selects c.hop ∧ ∃ d, c.shown = w.lineAt d c.hop.arrival) ∧
    (∀ c, c ∈ (calls .global).map CallLine.content ↔ c ∈ (calls .path).map CallLine.content) ∧
    ((w.withScope .global).expanded entry depth line).Nodup ∧
    ((calls .global).map fun c => c.hop.place).Nodup ∧
    ∃ a b, (run .global).outcome = .ok a ∧ (run .path).outcome = .ok b ∧
      (∀ m, m ∈ a.sinks ↔ m ∈ b.sinks) ∧
      a.lines = if w.Shows root then 1 + (calls .global).length else 0 := by
  intro w root run calls
  have hw (s : Scope) : (w.withScope s).Indexed := indexed_ofCalls _ _ _
  have hshown (s : Scope) : (run s).shown =
      (if w.Shows root then [w.lineAt depth root] else []) ++ (calls s).map CallLine.shown := by
    have hall := shown_run_eq (w.withScope s) entry depth line
    simp only [shows_withScope, lineAt_withScope] at hall
    exact hall
  have hexpanded (s : Scope) (m : Method) : m ∈ (w.withScope s).expanded entry depth line ↔
      w.Passes root ∧ Relation.ReflTransGen w.LeadsTo entry m := by
    rw [mem_expanded_iff (hw s) rfl, passes_withScope, leadsTo_withScope]
  have hcontent (c : Hop × (Trace.Line × Method)) : c ∈ (calls .global).map CallLine.content ↔
      c ∈ (calls .path).map CallLine.content := by
    obtain ⟨h, l⟩ := c
    rw [mem_content_iff (hw .global), mem_content_iff (hw .path), hexpanded, hexpanded]
    simp only [selects_withScope, shows_withScope, lineAt_withScope]
  refine ⟨hshown, ?_, hcontent, nodup_expanded rfl entry depth line,
    nodup_places (hw .global) rfl entry depth line, .ofShown (run .global).shown,
    .ofShown (run .path).shown, ?_, ?_, ?_, ?_⟩
  · intro s c hc
    obtain ⟨hsel, -, x, -, -, hline⟩ := (mem_callLines_iff (hw s)).mp hc
    rw [lineAt_withScope] at hline
    exact ⟨hsel, _, hline⟩
  · rw [shown_run_unlimited]
    exact outcome_run_unlimited ..
  · rw [shown_run_unlimited]
    exact outcome_run_unlimited ..
  · intro m
    have hflat (l : Trace.Line × Method) :
        l ∈ (run .global).shown.map flat ↔ l ∈ (run .path).shown.map flat := by
      rw [mem_flat_shown_iff (hw .global), mem_flat_shown_iff (hw .path)]
      simp only [hexpanded, selects_withScope, shows_withScope, lineAt_withScope]
    simp only [mem_sinks_iff_flat, hflat]
  · rw [Summary.ofShown, hshown, List.length_append, List.length_map]
    by_cases h : w.Shows root
    · rw [if_pos h, if_pos h]
      rfl
    · have hnil : calls .global = [] := by
        apply callLines_eq_nil
        rw [shows_withScope]
        exact h
      rw [if_neg h, if_neg h, hnil]
      rfl

end CallTrace.Walk
