import CallTrace.Proofs.Graph.Index
import CallTrace.Proofs.Walk.Arrivals
import CallTrace.Proofs.Walk.Recursion

/-!
# Walks that agree

Two walks may differ in their graph, in their groups and in what else they never use. If they treat
their entry and their picks alike wherever the first one passes, they have the same run but for the
number of calls that a run reports at its start.
-/

namespace CallTrace.Walk

/-- The second walk does what the first one does wherever that passes. -/
structure Agrees (w v : Walk) : Prop where
  scope_eq : v.policy.scope = w.policy.scope
  depthBound_eq : v.policy.depthBound = w.policy.depthBound
  visit_eq : ∀ m d line, v.visit m d line none = w.visit m d line none
  glance_eq : ∀ m d, ∀ k ∈ w.offers m, v.glance m d k = w.glance m d k
  offers_eq : ∀ a, w.Passes a → v.offers a.method = w.offers a.method

/-- A walk goes below a pick only where it has arrived through the filters. -/
theorem exists_passes_of_opens {w : Walk} {m : Method} {d : Nat} {p : Pick}
    (h : (w.glance m d p).opens = true) : ∃ a : Arrival, a.method = p.call.callee ∧ w.Passes a := by
  cases p with
  | merge c => cases h
  | follow c =>
    simp only [glance] at h
    split at h
    · cases h
    · exact ⟨⟨c.callee, c.lineNumber, some m.owner⟩, rfl, (opens_visitAt w (d + 1) _).mp h⟩

namespace Agrees

section

variable {w v : Walk} (h : w.Agrees v)

include h

theorem boundReached_iff (d : Nat) : v.BoundReached d ↔ w.BoundReached d := by
  simp only [BoundReached, h.depthBound_eq]

theorem admits_iff (closed : List Method) (m : Method) (d : Nat) :
    v.Admits closed m d ↔ w.Admits closed m d :=
  and_congr_right' (not_congr (h.boundReached_iff d))

theorem refusal_eq (closed : List Method) (m : Method) (d : Nat) :
    v.refusal closed m d = w.refusal closed m d :=
  ite_congr (propext (and_congr_right' (h.boundReached_iff d))) (fun _ => rfl) fun _ => rfl

theorem closedAfter_eq (opened closed : List Method) :
    v.closedAfter opened closed = w.closedAfter opened closed := by
  simp only [closedAfter, h.scope_eq]

theorem unfoldPicks_eq (closed : List Method) (m : Method) (d : Nat) (ps : List Pick)
    (hps : ps ⊆ w.offers m) : v.unfoldPicks closed m d ps = w.unfoldPicks closed m d ps := by
  fun_induction unfoldPicks w closed m d ps with
  | case1 closed m d => exact unfoldPicks_nil
  | case2 closed m d k ps t hopens ih =>
    obtain ⟨hk, hps⟩ := List.cons_subset.mp hps
    have hglance := h.glance_eq m d k hk
    have hstay : (v.glance m d k).opens = false := by rwa [hglance]
    rw [unfoldPicks_of_not_opens hstay, ih hps, hglance]
  | case3 closed m d k ps t n hopens hadm below ihb _ ih =>
    obtain ⟨hk, hps⟩ := List.cons_subset.mp hps
    have hglance := h.glance_eq m d k hk
    have hgo : (v.glance m d k).opens = true := by
      rw [hglance]
      exact Bool.of_not_eq_false hopens
    obtain ⟨a, hmethod, hpass⟩ := exists_passes_of_opens (Bool.of_not_eq_false hopens)
    have hoffers : v.offers n = w.offers n := by
      have := h.offers_eq a hpass
      rwa [hmethod] at this
    rw [unfoldPicks_of_admits hgo ((h.admits_iff ..).mpr hadm), hglance]
    dsimp only
    rw [hoffers, ihb (List.Subset.refl _), h.closedAfter_eq, ih hps]
  | case4 closed m d k ps t n hopens hadm ih =>
    obtain ⟨hk, hps⟩ := List.cons_subset.mp hps
    have hglance := h.glance_eq m d k hk
    have hgo : (v.glance m d k).opens = true := by
      rw [hglance]
      exact Bool.of_not_eq_false hopens
    rw [unfoldPicks_of_not_admits hgo (mt (h.admits_iff ..).mp hadm), ih hps, hglance, h.refusal_eq]

theorem expands_iff (entry : Method) (depth : Nat) (line : Option Int) :
    v.Expands entry depth line ↔ w.Expands entry depth line := by
  simp only [Expands, h.visit_eq, h.admits_iff]

theorem unfolding_eq (entry : Method) (depth : Nat) (line : Option Int) :
    v.unfolding entry depth line = w.unfolding entry depth line := by
  by_cases hexpands : w.Expands entry depth line
  · have hoffers : v.offers entry = w.offers entry :=
      h.offers_eq (.entry entry line) (Walk.expands_iff.mp hexpands).1
    rw [unfolding, if_pos ((h.expands_iff ..).mpr hexpands), unfolding, if_pos hexpands, hoffers]
    exact h.unfoldPicks_eq _ _ _ _ (List.Subset.refl _)
  · rw [unfolding, if_neg (mt (h.expands_iff ..).mp hexpands), unfolding, if_neg hexpands]

theorem story_eq (entry : Method) (depth : Nat) (line : Option Int) :
    v.story entry depth line =
      .logged (.started entry v.graph.calls.length) :: (w.story entry depth line).tail := by
  simp only [story, opening_eq, h.unfolding_eq, h.visit_eq, h.refusal_eq]
  rfl

theorem story_eq_of_length_eq (hcalls : v.graph.calls.length = w.graph.calls.length)
    (entry : Method) (depth : Nat) (line : Option Int) :
    v.story entry depth line = w.story entry depth line := by
  rw [h.story_eq, hcalls]
  simp only [story, opening_eq]
  rfl

/-- Walks that agree over graphs of the same size have the same run, whatever the writer takes. -/
theorem run_eq (hcalls : v.graph.calls.length = w.graph.calls.length) (room : Option Nat)
    (entry : Method) (depth : Nat) (line : Option Int) :
    v.run room entry depth line = w.run room entry depth line := by
  have hjournal : v.journal room entry depth line = w.journal room entry depth line := by
    rw [journal_eq, journal_eq]
    exact congrArg _ (h.story_eq_of_length_eq hcalls entry depth line)
  rw [run, run, hjournal]

end

end Agrees

/-- The same walk over another graph. -/
def withGraph (w : Walk) (g : CallGraph) : Walk := { w with graph := g }

theorem visit_withGraph (w : Walk) (g : CallGraph) : (w.withGraph g).visit = w.visit := rfl

/-- Only the offers read the graph. -/
theorem agrees_withGraph {w : Walk} {g : CallGraph}
    (hsame : ∀ a, w.Passes a → (w.withGraph g).offers a.method = w.offers a.method) :
    w.Agrees (w.withGraph g) where
  scope_eq := rfl
  depthBound_eq := rfl
  visit_eq _ _ _ := rfl
  glance_eq m d k _ := by
    cases k with
    | merge c => rfl
    | follow c => rw [glance, glance, visit_withGraph]
  offers_eq := hsame

/-- The same walk with other groups. -/
def withAliases (w : Walk) (a : AliasMap) : Walk :=
  { w with policy := { w.policy with aliases := a } }

theorem verdict_withAliases (w : Walk) (a : AliasMap) : (w.withAliases a).verdict = w.verdict := rfl

/-- A visit reads the group of its own site and no other. -/
theorem visit_withAliases {w : Walk} {a : AliasMap} (m : Method) (d : Nat) (line : Int)
    (callerClass : Option String)
    (h : ∀ c ∈ callerClass,
      a.group (siteFrom c m line) = w.policy.aliases.group (siteFrom c m line)) :
    (w.withAliases a).visit m d line callerClass = w.visit m d line callerClass := by
  have hgroup : ∀ c ∈ callerClass, (w.withAliases a).groupName (siteFrom c m line) =
      w.groupName (siteFrom c m line) := fun c hc => congrArg w.grouping.display (h c hc)
  have hname : (w.withAliases a).className m line callerClass = w.className m line callerClass := by
    cases callerClass with
    | none => rfl
    | some c => simp only [className, hgroup c rfl]
  have hfallback : (w.withAliases a).fallback m line callerClass =
      w.fallback m line callerClass := by
    cases callerClass with
    | none => rfl
    | some c => simp only [fallback, hgroup c rfl]
  simp only [visit, hname, hfallback, verdict_withAliases]
  rfl

/-- Only the groups of the sites of recorded calls have influence. -/
theorem agrees_withAliases {w : Walk} {r : Rule} {a : AliasMap} (hr : w.grouping = r.grouping)
    (hw : w.Indexed)
    (h : ∀ m, ∀ c ∈ w.graph.callsFrom m, a.group (.ofCall c) = w.policy.aliases.group (.ofCall c)) :
    w.Agrees (w.withAliases a) where
  scope_eq := rfl
  depthBound_eq := rfl
  visit_eq m d line := visit_withAliases m d line none (by rintro c ⟨⟩)
  glance_eq m d k hk := by
    cases k with
    | merge c => rfl
    | follow c =>
      obtain rfl : c.caller = m := hw m _ hk
      have hsite : ∀ cls ∈ some c.caller.owner, a.group (siteFrom cls c.callee c.lineNumber) =
          w.policy.aliases.group (siteFrom cls c.callee c.lineNumber) := by
        rintro _ ⟨⟩
        exact h c.caller c (call_mem_callsFrom hk)
      rw [glance, glance, visit_withAliases c.callee (d + 1) c.lineNumber _ hsite]
  offers_eq x _ := by
    have hw' : (w.withAliases a).grouping = r.grouping := hr
    rw [offers_eq_picks hr, offers_eq_picks hw']
    exact r.picks_congr (h x.method) []

end CallTrace.Walk
