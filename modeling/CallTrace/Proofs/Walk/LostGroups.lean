import CallTrace.Proofs.Walk.Merging

/-!
# Groups that are lost

One call stands for each group, and it is the first one even if it is a call of the method itself,
which is not followed. Such a group gets no line at all; every other group gets one.
-/

namespace CallTrace.Walk

/-- The call that stands for the group of `c` is a call of the method itself. -/
def LedBySelf (w : Walk) (m : Method) (c : Call) : Prop :=
  ∃ d, Grouping.leader? w.policy.classes w.policy.aliases (.ofCall c) (w.graph.callsFrom m) =
    some d ∧ d.IsSelfCall

section

variable {cs : List Call} {p : Policy} {c : Call}
  (hplain : ∀ c ∈ cs, Trace.Plain c.callee.owner)

include hplain

theorem shown_glance_of_not_hides (hc : c ∈ cs) (hself : ¬ c.IsSelfCall)
    (hcut : c.callee.name ∉ p.cutMethods) (hhid : ¬ p.classes.Hides c.callee.owner) (d : Nat) :
    ((grouped cs p).glance c.caller d (.follow c)).events.filterMap Event.shown? =
      [(grouped cs p).lineAt (d + 1) (.ofCall c)] := by
  have hlead : Leads (.follow c) := hself
  have hpass := (passes_ofCall_iff hplain hc).mpr ⟨hcut, hhid⟩
  rw [shown_glance (m := c.caller) (p := .follow c) rfl]
  exact if_pos ⟨hlead, hpass.shows⟩

/-- A followed call shows the classes of the calls from its site that it stands for. -/
theorem exists_shown_of_follow {x : Expansion} (hx : x.Sound (grouped cs p)) {d : Call}
    (hd : .follow d ∈ (grouped cs p).offers x.method) (hself : ¬ d.IsSelfCall)
    (hcut : d.callee.name ∉ p.cutMethods) (hhid : ¬ p.classes.Hides d.callee.owner) {n : String}
    (hn : n ∈ Trace.candidates ((grouped cs p).nameAt (.ofCall d))) :
    ∃ t ∈ x.turns, t.call = d ∧ ∃ l ∈ t.shown, n ∈ l.1.candidates := by
  have hmem : d ∈ cs := mem_of_mem_grouped hd
  have hcaller : d.caller = x.method := indexed_grouped _ _ hd
  have hshown := shown_glance_of_not_hides hplain hmem hself hcut hhid x.depth
  rw [hcaller] at hshown
  rw [← candidates_lineAt _ (x.depth + 1)] at hn
  refine ⟨⟨.follow d, (grouped cs p).glance x.method x.depth (.follow d)⟩, ?_, rfl,
    (grouped cs p).lineAt (x.depth + 1) (.ofCall d), ?_, hn⟩
  · rw [hx.turns_eq]
    exact List.mem_map_of_mem hd
  · rw [Turn.shown, hshown]
    exact List.mem_singleton.mpr rfl

/-- A line shows the callee of a followed call, under its own class or with its peers. -/
theorem of_mem_shown {x : Expansion} (hx : x.Sound (grouped cs p)) {t : Turn} (ht : t ∈ x.turns)
    {l : Trace.Line × Method} (hl : l ∈ t.shown) {n : String} (hn : n ∈ l.1.candidates) :
    .follow t.call ∈ (grouped cs p).offers x.method ∧ ¬ t.call.IsSelfCall ∧
      (n = t.call.callee.owner ∨
        t.call.callee.owner ∈ peers cs p t.call ∧ n ∈ peers cs p t.call) := by
  obtain ⟨hpick, -, -⟩ := hx.of_mem_turns indexed_grouped ht
  obtain ⟨hlead, rfl⟩ := hx.of_mem_shown indexed_grouped ht hl
  have hfollow : t.pick = .follow t.call := eq_follow_of_leads hlead
  rw [candidates_lineAt] at hn
  rw [hfollow] at hpick hlead
  exact ⟨hpick, hlead, (mem_candidates_iff hplain (mem_of_mem_grouped hpick)).mp hn⟩

theorem not_ledBySelf_of_shown {x : Expansion} (hx : x.Sound (grouped cs p)) {t : Turn}
    (ht : t ∈ x.turns) (hsite : CallSite.ofCall t.call = .ofCall c) {l : Trace.Line × Method}
    (hl : l ∈ t.shown) (hn : c.callee.owner ∈ l.1.candidates) (hc : c ∈ cs)
    (hhid : ¬ p.classes.Hides c.callee.owner) : ¬ (grouped cs p).LedBySelf x.method c := by
  intro hled
  obtain ⟨d, hlead, hdself⟩ := hled
  obtain ⟨hfollow, htself, hown⟩ := of_mem_shown hplain hx ht hl hn
  have hdpeer : d.callee.owner ∈ peers cs p c := (Grouping.of_leader?_eq_some hlead).2.2.2
  have hcpeer : c.callee.owner ∈ peers cs p t.call := by
    rw [peers_of_site_eq hsite]
    exact owner_mem_peers hdpeer hc hhid
  have htpeer : t.call.callee.owner ∈ peers cs p t.call := by
    cases hown with
    | inl heq =>
      rw [← heq]
      exact hcpeer
    | inr hpeers => exact hpeers.1
  cases (follow_mem_grouped_iff.mp hfollow).2.2 with
  | inl hno => exact hno htpeer
  | inr htlead =>
    rw [hsite] at htlead
    obtain rfl := Option.some.inj (htlead.symm.trans hlead)
    exact htself hdself

theorem exists_shown_of_not_ledBySelf {x : Expansion} (hx : x.Sound (grouped cs p))
    (hall : p.classes.shown = []) (hcalls : c ∈ (grouped cs p).graph.callsFrom x.method)
    (hself : ¬ c.IsSelfCall) (hcut : c.callee.name ∉ p.cutMethods)
    (hhid : ¬ p.classes.Hides c.callee.owner) (hled : ¬ (grouped cs p).LedBySelf x.method c) :
    ∃ t ∈ x.turns, CallSite.ofCall t.call = .ofCall c ∧
      ∃ l ∈ t.shown, c.callee.owner ∈ l.1.candidates := by
  have hfollows : p.classes.Follows c.callee.owner := .inl hall
  by_cases hown : c.callee.owner ∈ peers cs p c
  · obtain ⟨d, hd⟩ := Grouping.exists_leader hcalls hfollows hown
    obtain ⟨hdcalls, hdfollows, hsite, hdpeer⟩ := Grouping.of_leader?_eq_some hd
    have hdself : ¬ d.IsSelfCall := fun h => hled ⟨d, hd, h⟩
    have hdc : d ∈ cs := (CallGraph.mem_callsFrom_ofCalls.mp hdcalls).1
    have hfollow : .follow d ∈ (grouped cs p).offers x.method := by
      refine follow_mem_grouped_iff.mpr ⟨hdcalls, hdfollows, .inr ?_⟩
      rw [hsite]
      exact hd
    have hname : d.callee.name = c.callee.name := congrArg CallSite.methodName hsite
    have hn : c.callee.owner ∈ Trace.candidates ((grouped cs p).nameAt (.ofCall d)) := by
      apply (mem_candidates_iff hplain hdc).mpr
      rw [peers_of_site_eq hsite]
      exact .inr ⟨hdpeer, hown⟩
    rw [← hname] at hcut
    obtain ⟨t, ht, rfl, hl⟩ := exists_shown_of_follow hplain hx hfollow hdself hcut
      (not_hides_of_mem_peers hdpeer) hn
    exact ⟨t, ht, hsite, hl⟩
  · have hc : c ∈ cs := (CallGraph.mem_callsFrom_ofCalls.mp hcalls).1
    have hfollow : .follow c ∈ (grouped cs p).offers x.method :=
      follow_mem_grouped_iff.mpr ⟨hcalls, hfollows, .inl hown⟩
    obtain ⟨t, ht, rfl, hl⟩ := exists_shown_of_follow hplain hx hfollow hself hcut hhid
      ((mem_candidates_iff hplain hc).mpr (.inl rfl))
    exact ⟨t, ht, rfl, hl⟩

end

/-- If no patterns select the classes shown, a call into a class that is not hidden is shown, by
its own line or that of its group, unless its group begins with a call of the expanded method to
itself. -/
theorem grouped_shows_call_iff (cs : List Call) (p : Policy)
    (hplain : ∀ c ∈ cs, Trace.Plain c.callee.owner) (hall : p.classes.shown = []) (entry : Method)
    (depth : Nat) (line : Option Int) :
    let w := grouped cs p
    ∀ x ∈ w.expansions entry depth line, ∀ c ∈ w.graph.callsFrom x.method, ¬ c.IsSelfCall →
      c.callee.name ∉ p.cutMethods → ¬ p.classes.Hides c.callee.owner →
        ((∃ t ∈ x.turns, t.visit.events <:+: (w.run none entry depth line).events ∧
            CallSite.ofCall t.call = .ofCall c ∧ ∃ l ∈ t.shown, c.callee.owner ∈ l.1.candidates) ↔
          ¬ w.LedBySelf x.method c) := by
  intro w x hx c hcalls hself hcut hhid
  have hsound : x.Sound w := sound_of_mem_expansions indexed_grouped hx
  have hc : c ∈ cs := (CallGraph.mem_callsFrom_ofCalls.mp hcalls).1
  constructor
  · intro hshown
    obtain ⟨t, ht, -, hsite, l, hl, hn⟩ := hshown
    exact not_ledBySelf_of_shown hplain hsound ht hsite hl hn hc hhid
  · intro hled
    obtain ⟨t, ht, hshown⟩ :=
      exists_shown_of_not_ledBySelf hplain hsound hall hcalls hself hcut hhid hled
    exact ⟨t, ht, infix_run hx ht, hshown⟩

theorem leaf_lost_behind_self_call :
    let node : Method := { name := "run", owner := "A" }
    let leaf : Method := { name := "run", owner := "B" }
    let toSelf : Call := { caller := node, callee := node, line := some 5 }
    let toLeaf : Call := { caller := node, callee := leaf, line := some 5 }
    let w := grouped [toSelf, toLeaf] .empty
    ∃ x ∈ w.expansions node 0 none, toLeaf ∈ w.graph.callsFrom x.method ∧ ¬ toLeaf.IsSelfCall ∧
      ¬ ∃ t ∈ x.turns, t.visit.events <:+: (w.run none node 0 none).events ∧
        CallSite.ofCall t.call = .ofCall toLeaf ∧ ∃ l ∈ t.shown, leaf.owner ∈ l.1.candidates := by
  intro node leaf toSelf toLeaf w
  have hplain : ∀ c ∈ [toSelf, toLeaf], Trace.Plain c.callee.owner := by decide +revert
  have hexp : w.Expands node 0 none := by decide +revert
  have hmem : toLeaf ∈ w.graph.callsFrom node := by decide +revert
  have hself : ¬ toLeaf.IsSelfCall := by decide +revert
  have hled : w.LedBySelf node toLeaf := ⟨toSelf, by decide +revert, rfl⟩
  have hx := entry_mem_expansions hexp
  have hiff := grouped_shows_call_iff [toSelf, toLeaf] .empty hplain rfl node 0 none _ hx toLeaf
    hmem hself (of_decide_eq_true rfl) (of_decide_eq_true rfl)
  exact ⟨_, hx, hmem, hself, fun h => hiff.mp h hled⟩

end CallTrace.Walk
