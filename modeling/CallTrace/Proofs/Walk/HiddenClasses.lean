import CallTrace.Proofs.Walk.Merging
import CallTrace.Proofs.Walk.RunEvents

/-!
# Hidden classes under merging

Merging the groups of a graph neither hides a class nor shows a hidden one, and no sink is merged
away.
-/

namespace CallTrace.Walk

section

variable {cs : List Call} {p : Policy} {c : Call}
  (hplain : ∀ c ∈ cs, Trace.Plain c.callee.owner)

include hplain

theorem opens_turn_iff {x : Expansion} (hx : x.Sound (grouped cs p)) {t : Turn} (ht : t ∈ x.turns)
    (hlead : Leads t.pick) (hcut : t.call.callee.name ∉ p.cutMethods) :
    t.visit.opens = false ↔ p.classes.Hides t.call.callee.owner := by
  obtain ⟨hpick, hcaller, hvisit⟩ := hx.of_mem_turns indexed_grouped ht
  have hc : t.call ∈ cs := mem_of_mem_grouped hpick
  have hopens := opens_glance (w := grouped cs p) hcaller x.depth
  have hpass : (grouped cs p).Passes (.ofCall t.pick.call) ↔ _ := passes_ofCall_iff hplain hc
  rw [hpass] at hopens
  rw [hvisit, ← Bool.not_eq_true, hopens]
  constructor
  · intro h
    exact Decidable.byContradiction fun hhid => h ⟨hlead, hcut, hhid⟩
  · intro hhid h
    exact h.2.2 hhid

/-- A line that shows more than the callee's own class shows no hidden class. -/
theorem own_or_not_hides_of_mem_shown {x : Expansion} (hx : x.Sound (grouped cs p)) {t : Turn}
    (ht : t ∈ x.turns) {l : Trace.Line × Method} (hl : l ∈ t.shown) :
    l.1.className = t.call.callee.owner ∨ ∀ n ∈ l.1.candidates, ¬ p.classes.Hides n := by
  have hc : t.call ∈ cs := mem_of_mem_grouped (hx.of_mem_turns indexed_grouped ht).1
  obtain ⟨-, rfl⟩ := hx.of_mem_shown indexed_grouped ht hl
  rw [className_lineAt, candidates_lineAt]
  by_cases hown : t.call.callee.owner ∈ peers cs p t.call
  · right
    intro n hn
    cases (mem_candidates_iff hplain hc).mp hn with
    | inl heq =>
      rw [heq]
      exact not_hides_of_mem_peers hown
    | inr hpeers => exact not_hides_of_mem_peers hpeers.2
  · left
    exact nameAt_of_not_mem_peers hplain hown

omit hplain in
/-- No group takes the turn of a call into a hidden class. -/
theorem exists_turn_of_hides {x : Expansion} (hx : x.Sound (grouped cs p)) {before after : List Call}
    (hcalls : (grouped cs p).graph.callsFrom x.method = before ++ c :: after)
    (hhid : p.classes.Hides c.callee.owner) :
    ∃ pre post, x.turns = pre ++ ⟨.follow c, (grouped cs p).glance x.method x.depth (.follow c)⟩ ::
        post ∧
      pre.map Turn.pick = Grouping.byAlias.picks p.classes (grouped cs p).policy.aliases before ∧
      (post.map Turn.call).Sublist after := by
  have hfollows : p.classes.Follows c.callee.owner := .inr (.inr hhid)
  have hown : c.callee.owner ∉ (grouped cs p).policy.aliases.group (.ofCall c) :=
    fun hmem => not_hides_of_mem_peers hmem hhid
  obtain ⟨later, hscan⟩ := Grouping.exists_scan_append (f := p.classes)
    (a := (grouped cs p).policy.aliases) [] before (c :: after)
  have hoffers : (grouped cs p).offers x.method = _ := congrArg _ hcalls |>.trans hscan
  rw [Grouping.scan, if_neg (not_not_intro hfollows), if_pos hown] at hoffers
  rw [hx.turns_eq, turnsAt, hoffers, List.map_append, List.map_cons]
  refine ⟨_, _, rfl, ?_, ?_⟩
  · rw [List.map_map]
    exact List.map_id _
  · rw [List.map_map]
    exact Grouping.scan_sublist _ _ _ _

theorem not_isSelfCall_of_hides {x : Expansion} (hx : x.Sound (grouped cs p)) (hc : c ∈ cs)
    (hcaller : c.caller = x.method) (hhid : p.classes.Hides c.callee.owner) :
    ¬ c.IsSelfCall := by
  intro hself
  obtain ⟨a, hmethod, hpass⟩ := hx.arrival
  have hcallee : a.method = c.callee := hmethod.trans (hcaller.symm.trans hself)
  apply hpass.not_hides
  · rw [hcallee]
    exact hplain c hc
  · rw [hcallee]
    exact hhid

theorem shown_glance_of_sink (hc : c ∈ cs) (hself : ¬ c.IsSelfCall)
    (hhid : p.classes.Hides c.callee.owner) (hsink : p.IsSink c.callee.owner c.callee.name)
    (hcut : c.callee.name ∉ p.cutMethods) (d : Nat) :
    ((grouped cs p).glance c.caller d (.follow c)).events.filterMap Event.shown? =
      [(⟨c.callee.signature, c.callee.owner, d + 1, c.lineNumber, true⟩, c.callee)] := by
  have hverdict := verdictAt_of_hides hplain hc hhid
  rw [if_pos hsink] at hverdict
  have hshows : (grouped cs p).Shows (.ofCall c) :=
    ⟨hcut, by rw [hverdict]; exact Verdict.noConfusion⟩
  have hown : c.callee.owner ∉ peers cs p c := fun hmem => not_hides_of_mem_peers hmem hhid
  have hlead : Leads (.follow c) := hself
  rw [shown_glance (m := c.caller) (p := .follow c) rfl, if_pos ⟨hlead, hshows⟩, lineAt]
  change [(shownLine c.callee ((grouped cs p).nameAt (.ofCall c)) (d + 1) c.lineNumber
    (decide ((grouped cs p).verdictAt (.ofCall c) = .sink)), c.callee)] = _
  rw [nameAt_of_not_mem_peers hplain hown, hverdict]
  rfl

end

/-- The sinks that events show. -/
def sinksOf (es : List Event) : List Method :=
  (Summary.ofShown (es.filterMap Event.shown?)).sinks

theorem sinksOf_append (es fs : List Event) : sinksOf (es ++ fs) = sinksOf es ++ sinksOf fs := by
  simp [sinksOf, Summary.ofShown]

/-- The class filter stops a callee exactly for its own class, and a name that is merged contains
no hidden class. Each call into a hidden class that is a sink shows this class in a line of its
own, in its place among the calls of the method expanded, and this line is written in its place in
the text of the run. -/
theorem grouped_stops_hidden_and_shows_sinks (cs : List Call) (p : Policy)
    (hplain : ∀ c ∈ cs, Trace.Plain c.callee.owner) (entry : Method) (depth : Nat)
    (line : Option Int) :
    let w := grouped cs p
    let r := w.run none entry depth line
    ∀ x ∈ w.expansions entry depth line,
      (∀ t ∈ x.turns, Leads t.pick → t.call.callee.name ∉ p.cutMethods →
        (t.visit.opens = false ↔ p.classes.Hides t.call.callee.owner) ∧
          ∀ l ∈ t.shown, l.1.className = t.call.callee.owner ∨
            ∀ n ∈ l.1.candidates, ¬ p.classes.Hides n) ∧
      ∀ before c after, w.graph.callsFrom x.method = before ++ c :: after →
        p.classes.Hides c.callee.owner → p.IsSink c.callee.owner c.callee.name →
        c.callee.name ∉ p.cutMethods →
          ∃ pre t post, x.turns = pre ++ t :: post ∧
            pre.map Turn.pick = w.grouping.picks p.classes w.policy.aliases before ∧
            (post.map Turn.call).Sublist after ∧ t.pick = .follow c ∧
            t.shown = [(⟨c.callee.signature, c.callee.owner, x.depth + 1, c.lineNumber, true⟩,
              c.callee)] ∧
            ∃ es fs, Placed r.events pre t post es fs ∧ r.outcome = .ok r.summary ∧
              r.summary.sinks = sinksOf es ++ c.callee :: sinksOf fs ∧
              r.written = es.filterMap Event.written? ++
                (Trace.Line.text ⟨c.callee.signature, c.callee.owner, x.depth + 1, c.lineNumber,
                  true⟩ ++ "\n") :: fs.filterMap Event.written? := by
  intro w r x hx
  have hsound : x.Sound w := sound_of_mem_expansions indexed_grouped hx
  constructor
  · intro t ht hlead hcut
    exact ⟨opens_turn_iff hplain hsound ht hlead hcut,
      fun l hl => own_or_not_hides_of_mem_shown hplain hsound ht hl⟩
  · intro before c after hcalls hhid hsink hcut
    have hmem : c ∈ w.graph.callsFrom x.method := by
      rw [hcalls]
      exact List.mem_append_right _ List.mem_cons_self
    obtain ⟨hc, hcaller⟩ := CallGraph.mem_callsFrom_ofCalls.mp hmem
    have hself := not_isSelfCall_of_hides hplain hsound hc hcaller hhid
    obtain ⟨pre, post, hturns, hpre, hpost⟩ := exists_turn_of_hides hsound hcalls hhid
    have hshown := shown_glance_of_sink hplain hc hself hhid hsink hcut x.depth
    rw [hcaller] at hshown
    obtain ⟨es, fs, hplaced⟩ := exists_placed_run hx hturns
    refine ⟨pre, _, post, hturns, hpre, hpost, rfl, hshown, es, fs, hplaced, ?_, ?_, ?_⟩
    · change (w.run none entry depth line).outcome = .ok (w.run none entry depth line).summary
      rw [outcome_run_unlimited, Run.summary, shown_run_unlimited]
    · have hturn : sinksOf (w.glance x.method x.depth (.follow c)).events = [c.callee] := by
        rw [sinksOf, hshown]
        rfl
      change sinksOf r.events = _
      rw [hplaced.split, sinksOf_append, sinksOf_append, hturn, List.append_assoc]
      rfl
    · have hturn := written_of_inner (inner_of_mem_glance (w := w) (m := x.method) (d := x.depth)
        (p := .follow c))
      rw [hshown] at hturn
      change r.events.filterMap Event.written? = _
      rw [hplaced.split, List.filterMap_append, List.filterMap_append, hturn, List.append_assoc]
      rfl

theorem logger_shown_beside_group :
    let start : Method := { name := "main", owner := "M" }
    let branch : Method := { name := "run", owner := "A" }
    let leaf : Method := { name := "run", owner := "B" }
    let logger : Method := { name := "run", owner := "Log" }
    let toBranch : Call := { caller := start, callee := branch, line := some 5 }
    let toLeaf : Call := { caller := start, callee := leaf, line := some 5 }
    let toLogger : Call := { caller := start, callee := logger, line := some 5 }
    let p : Policy :=
      { classes := { hidden := ["Log"] }, sinks := .ofList [("Log", .ofList ["run"])] }
    let w := grouped [toBranch, toLeaf, toLogger] p
    let r := w.run none start 0 none
    ∃ x ∈ w.expansions start 0 none, ∃ pre t post, x.turns = pre ++ t :: post ∧
      t.visit.opens = false ∧ t.shown = [(⟨logger.signature, "Log", 1, 5, true⟩, logger)] ∧
        ∃ es fs, Placed r.events pre t post es fs ∧
          r.summary.sinks = sinksOf es ++ logger :: sinksOf fs ∧
          r.written = es.filterMap Event.written? ++
            "  run() Log linenumber=5\n" :: fs.filterMap Event.written? := by
  intro start branch leaf logger toBranch toLeaf toLogger p w r
  have hplain : ∀ c ∈ [toBranch, toLeaf, toLogger], Trace.Plain c.callee.owner := by
    decide +revert
  have hexp : w.Expands start 0 none := by decide +revert
  have hcalls : w.graph.callsFrom start = [toBranch, toLeaf] ++ toLogger :: [] := by
    decide +revert
  have hhid : p.classes.Hides toLogger.callee.owner := by decide +revert
  have hsink : p.IsSink toLogger.callee.owner toLogger.callee.name := by decide +revert
  have hcut : toLogger.callee.name ∉ p.cutMethods := by decide +revert
  have hlead : Leads (.follow toLogger) := by decide +revert
  have hx := entry_mem_expansions hexp
  obtain ⟨hstops, hsinks⟩ :=
    grouped_stops_hidden_and_shows_sinks [toBranch, toLeaf, toLogger] p hplain start 0 none _ hx
  obtain ⟨pre, t, post, hturns, -, -, hpick, hshown, es, fs, hplaced, -, hsum, hwritten⟩ :=
    hsinks [toBranch, toLeaf] toLogger [] hcalls hhid hsink hcut
  have hcall : t.call = toLogger := congrArg Pick.call hpick
  have ht : t ∈ (Expansion.mk start 0 (w.turnsAt start 0)).turns := by
    rw [hturns]
    exact List.mem_append_right _ List.mem_cons_self
  have hopens : t.visit.opens = false := by
    refine (hstops t ht ?_ ?_).1.mpr ?_
    · rw [hpick]
      exact hlead
    · rw [hcall]
      exact hcut
    · rw [hcall]
      exact hhid
  exact ⟨_, hx, pre, t, post, hturns, hopens, hshown, es, fs, hplaced, hsum, hwritten⟩

end CallTrace.Walk
