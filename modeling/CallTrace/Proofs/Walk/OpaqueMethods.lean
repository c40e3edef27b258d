import CallTrace.Proofs.Walk.Agreement
import CallTrace.Proofs.Walk.Expansions
import CallTrace.Proofs.Walk.WriteFailure

/-!
# Opaque methods

A method whose name or class is excluded is never expanded, so the calls that leave it have no
influence on a run. Two graphs that agree on all other methods have the same run, but for the
number of calls that the run reports at its start.
-/

namespace CallTrace

/-- Neither the name nor the class of the method is excluded. -/
def Policy.Transparent (p : Policy) (m : Method) : Prop :=
  m.name ∉ p.cutMethods ∧ ¬ p.classes.Hides m.owner

instance (p : Policy) (m : Method) : Decidable (p.Transparent m) :=
  inferInstanceAs (Decidable (_ ∧ _))

theorem CallGraph.callsFrom_eq_nil_of_not_caller {cs : List Call} {m : Method}
    (h : ∀ c ∈ cs, c.caller ≠ m) : (ofCalls cs).callsFrom m = [] := by
  apply List.eq_nil_iff_forall_not_mem.mpr
  intro c hc
  obtain ⟨hc, hcaller⟩ := mem_callsFrom_ofCalls.mp hc
  exact h c hc hcaller

namespace Walk

theorem story_withGraph {w : Walk} {g : CallGraph}
    (hsame : ∀ a, w.Passes a → (w.withGraph g).offers a.method = w.offers a.method)
    (entry : Method) (depth : Nat) (line : Option Int) :
    (w.withGraph g).story entry depth line =
      .logged (.started entry g.calls.length) :: (w.story entry depth line).tail :=
  (agrees_withGraph hsame).story_eq entry depth line

/-- Two walks whose events differ in a report at the start alone give any writer the same. -/
theorem exists_run_of_story_eq {w v : Walk} {entry : Method} {depth : Nat} {line : Option Int}
    {x y : Log} {es : List Event} (hw : w.story entry depth line = .logged x :: es)
    (hv : v.story entry depth line = .logged y :: es) (room : Option Nat) :
    ∃ fs completed, w.run room entry depth line = ⟨.logged x :: fs, completed⟩ ∧
      v.run room entry depth line = ⟨.logged y :: fs, completed⟩ := by
  have hwhole : w.run none entry depth line = ⟨.logged x :: (es ++ [finished entry
        (.ofShown (es.filterMap Event.shown?))]), true⟩ ∧
      v.run none entry depth line = ⟨.logged y :: (es ++ [finished entry
        (.ofShown (es.filterMap Event.shown?))]), true⟩ := by
    simp only [run_unlimited, hw, hv]
    exact ⟨rfl, rfl⟩
  cases room with
  | none => exact ⟨_, _, hwhole⟩
  | some n =>
    by_cases hn : (writes es).length ≤ n
    · have hwn : w.run (some n) entry depth line = w.run none entry depth line :=
        run_of_length_le w entry depth line (by rwa [hw])
      have hvn : v.run (some n) entry depth line = v.run none entry depth line :=
        run_of_length_le v entry depth line (by rwa [hv])
      rw [hwn, hvn]
      exact ⟨_, _, hwhole⟩
    · obtain ⟨fs, e, gs, rfl, he, rfl⟩ := exists_refused (Nat.lt_of_not_le hn)
      exact ⟨fs, false, w.run_of_refused entry depth line hw he rfl,
        v.run_of_refused entry depth line hv he rfl⟩

section

variable {cs ds : List Call} {p : Policy} {g : Grouping}

/-- Where a walk arrives through the filters, it offers the same calls in a graph that differs in
opaque methods alone. -/
theorem offers_of_passes (hplain : ∀ c ∈ cs ++ ds, Trace.Plain c.caller.owner)
    (hsame : ∀ m, p.Transparent m →
      (CallGraph.ofCalls cs).callsFrom m = (CallGraph.ofCalls ds).callsFrom m)
    {a : Arrival} (ha : Passes ⟨.ofCalls cs, p, g⟩ a) :
    offers ⟨.ofCalls ds, p, g⟩ a.method = offers ⟨.ofCalls cs, p, g⟩ a.method := by
  have hcalls : (CallGraph.ofCalls cs).callsFrom a.method =
      (CallGraph.ofCalls ds).callsFrom a.method := by
    -- a method that calls nothing may have any class name, but then it offers nothing either
    by_cases hcaller : ∃ c ∈ cs ++ ds, c.caller = a.method
    · obtain ⟨c, hc, hmethod⟩ := hcaller
      apply hsame
      refine ⟨ha.1, ha.not_hides ?_⟩
      rw [← hmethod]
      exact hplain c hc
    · have hnone : ∀ c ∈ cs ++ ds, c.caller ≠ a.method := fun c hc h => hcaller ⟨c, hc, h⟩
      obtain ⟨hcs, hds⟩ := List.forall_mem_append.mp hnone
      rw [CallGraph.callsFrom_eq_nil_of_not_caller hcs,
        CallGraph.callsFrom_eq_nil_of_not_caller hds]
  simp only [offers, hcalls]

/-- A method that is expanded and calls others is not opaque. -/
theorem transparent_of_mem_expansions (hplain : ∀ c ∈ cs, Trace.Plain c.caller.owner)
    {entry : Method} {depth : Nat} {line : Option Int} {x : Expansion}
    (hx : x ∈ expansions ⟨.ofCalls cs, p, g⟩ entry depth line) {t : Turn} (ht : t ∈ x.turns) :
    p.Transparent x.method := by
  have hw := indexed_ofCalls cs p g
  have hsound := sound_of_mem_expansions hw hx
  obtain ⟨hpick, hcaller, -⟩ := hsound.of_mem_turns hw ht
  obtain ⟨a, hmethod, hpass⟩ := hsound.arrival
  have hplainOwner : Trace.Plain a.method.owner := by
    rw [hmethod, ← hcaller]
    exact hplain _ (call_mem_of_mem_offers hpick).1
  rw [← hmethod]
  exact ⟨hpass.1, hpass.not_hides hplainOwner⟩

end

/-- The calls that leave excluded methods have no influence: two graphs that agree on all other
methods give every writer the same text, and the run the same outcome and, but for the number of
calls in its first report, the same events. No excluded method gets a turn. -/
theorem opaque_methods_without_influence (cs ds : List Call) (p : Policy) (g : Grouping)
    (hplain : ∀ c ∈ cs ++ ds, Trace.Plain c.caller.owner)
    (hsame : ∀ m, p.Transparent m →
      (CallGraph.ofCalls cs).callsFrom m = (CallGraph.ofCalls ds).callsFrom m)
    (entry : Method) (depth : Nat) (line : Option Int) :
    let w : Walk := ⟨.ofCalls cs, p, g⟩
    let v : Walk := ⟨.ofCalls ds, p, g⟩
    (∀ room,
      let r := w.run room entry depth line
      let s := v.run room entry depth line
      r.text = s.text ∧ r.outcome = s.outcome ∧ r.events.tail = s.events.tail) ∧
    (∃ s, (w.run none entry depth line).outcome = .ok s) ∧
    ∀ x ∈ w.expansions entry depth line ++ v.expansions entry depth line,
      x.turns ≠ [] → p.Transparent x.method := by
  intro w v
  refine ⟨?_, ⟨_, outcome_run_unlimited w entry depth line⟩, ?_⟩
  · intro room r s
    have hoffers : ∀ a, w.Passes a → (w.withGraph (.ofCalls ds)).offers a.method = w.offers a.method :=
      fun a ha => offers_of_passes hplain hsame ha
    obtain ⟨es, -, hinner⟩ := w.exists_inner_story entry depth line
    have hstory : v.story entry depth line = _ := story_withGraph hoffers entry depth line
    rw [hinner, List.tail_cons] at hstory
    obtain ⟨fs, completed, hr, hs⟩ := exists_run_of_story_eq hinner hstory room
    have hr : r = _ := hr
    have hs : s = _ := hs
    rw [hr, hs]
    exact ⟨rfl, rfl, rfl⟩
  · intro x hx hturns
    obtain ⟨t, ht⟩ := List.exists_mem_of_ne_nil _ hturns
    obtain ⟨hcs, hds⟩ := List.forall_mem_append.mp hplain
    cases List.mem_append.mp hx with
    | inl hx => exact transparent_of_mem_expansions hcs hx ht
    | inr hx => exact transparent_of_mem_expansions hds hx ht

/-- A sink and a method that is cut by its name call something in the first graph and nothing in
the second one. -/
theorem logger_and_helper_opaque :
    let start : Method := { name := "main", owner := "App" }
    let logger : Method := { name := "log", owner := "Log" }
    let helper : Method := { name := "skip", owner := "App" }
    let work : Method := { name := "work", owner := "App" }
    let shared : List Call := [{ caller := start, callee := logger, line := some 3 },
      { caller := start, callee := helper, line := some 4 }]
    let behind : List Call := [{ caller := logger, callee := work, line := some 7 },
      { caller := helper, callee := work, line := some 8 }]
    let p : Policy :=
      { classes := { hidden := ["Log"] }, cutMethods := .ofList ["skip"],
        sinks := .ofList [("Log", .ofList ["log"])] }
    let w : Walk := ⟨.ofCalls (shared ++ behind), p, .byAlias⟩
    let v : Walk := ⟨.ofCalls shared, p, .byAlias⟩
    (∀ m, p.Transparent m → w.graph.callsFrom m = v.graph.callsFrom m) ∧
      w.graph.callsFrom logger ≠ v.graph.callsFrom logger ∧
      w.graph.callsFrom helper ≠ v.graph.callsFrom helper ∧
      (w.run none start 0 none).text = (v.run none start 0 none).text ∧
      (v.run none start 0 none).text =
        "Call tree\nmain() App linenumber=-1\n  log() Log linenumber=3\n" := by
  intro start logger helper work shared behind p w v
  have hplain : ∀ c ∈ (shared ++ behind) ++ shared, Trace.Plain c.caller.owner := by
    decide +revert
  have hlogger : ¬ p.Transparent logger := by decide +revert
  have hhelper : ¬ p.Transparent helper := by decide +revert
  have hfromLogger : w.graph.callsFrom logger ≠ v.graph.callsFrom logger := by decide +revert
  have hfromHelper : w.graph.callsFrom helper ≠ v.graph.callsFrom helper := by decide +revert
  have htext : (v.run none start 0 none).text =
      "Call tree\nmain() App linenumber=-1\n  log() Log linenumber=3\n" := by
    decide +kernel +revert
  have hsame : ∀ m, p.Transparent m → w.graph.callsFrom m = v.graph.callsFrom m := by
    intro m hm
    have hbehind : behind.filter (fun c => c.caller = m) = [] := by
      apply List.filter_eq_nil_iff.mpr
      simp only [behind, List.forall_mem_cons, decide_eq_true_iff]
      refine ⟨?_, ?_, fun c hc => absurd hc List.not_mem_nil⟩
      · rintro rfl
        exact hlogger hm
      · rintro rfl
        exact hhelper hm
    simp only [w, v, CallGraph.callsFrom_ofCalls, List.filter_append, hbehind, List.append_nil]
  obtain ⟨hruns, -, -⟩ :=
    opaque_methods_without_influence (shared ++ behind) shared p .byAlias hplain hsame start 0 none
  exact ⟨hsame, hfromLogger, hfromHelper, (hruns none).1, htext⟩

end Walk

end CallTrace
