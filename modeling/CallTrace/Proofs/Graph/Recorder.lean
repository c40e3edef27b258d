import CallTrace.Proofs.Graph.Index
import CallTrace.Recorder

/-!
# Graphs that a recorder hands out

Whatever is asked of a recorder, its graph stays in step with the calls so far, so the check of a
graph that is handed out never fails. Later requests add graphs and change none.
-/

namespace CallTrace

theorem Call.line_make (caller callee : Method) (line : Option Int) :
    (make caller callee line).line.map Int.ofNat = line.filter fun n => decide (1 ≤ n) := by
  cases line with
  | none => rfl
  | some n =>
    by_cases hn : 1 ≤ n
    · have hpos : 0 < n.toNat := by omega
      have hcast : max n 0 = n := by omega
      simp [make, Option.filter, hpos, hn, hcast]
    · have hnpos : ¬ 0 < n.toNat := by omega
      simp [make, Option.filter, hnpos, hn]

/-- What a graph of these calls answers. -/
structure CallGraph.Holds (g : CallGraph) (cs : List Call) : Prop where
  calls_eq : g.calls = cs
  callsFrom_eq : ∀ m, g.callsFrom m = cs.filter fun c => c.caller = m
  callsTo_eq : ∀ m, g.callsTo m = cs.filter fun c => c.callee = m
  mem_methods_iff : ∀ m, m ∈ g.methods ↔ ∃ c ∈ cs, c.caller = m ∨ c.callee = m
  nodup_methods : g.methods.Nodup
  line_eq : ∀ c ∈ g.calls, c.line = none ∨ ∃ n, c.line = some n ∧ 1 ≤ n
  check_ofCalls : (ofCalls cs).check = .ok g

theorem CallGraph.holds_ofCalls (cs : List Call) : (ofCalls cs).Holds cs where
  calls_eq := calls_ofCalls cs
  callsFrom_eq := callsFrom_ofCalls cs
  callsTo_eq := callsTo_ofCalls cs
  mem_methods_iff m := by
    have h := (exact_ofCalls cs).mem_methods_iff m
    rwa [calls_ofCalls] at h
  nodup_methods := (ofCalls cs).nodup_methods
  line_eq c _ := by
    cases hline : c.line with
    | none => exact .inl rfl
    | some n => exact .inr ⟨n, rfl, c.line_pos n hline⟩
  check_ofCalls := (exact_ofCalls cs).check_eq

namespace Recorder

/-- The calls that the requests record, in order. -/
def recorded (qs : List Request) : List Call := qs.filterMap Request.call?

/-- How many graphs the requests ask for. -/
def freezes (qs : List Request) : Nat := qs.countP fun q => q.call?.isNone

/-- What requests make of a recorder: they add calls and graphs, and the graphs so far stay. -/
structure Follows (r : Recorder) (qs : List Request) (t : Recorder) : Prop where
  graph_eq : t.graph = (recorded qs).foldl CallGraph.record r.graph
  kept : r.snapshots <+: t.snapshots
  length_eq : t.snapshots.length = r.snapshots.length + freezes qs

theorem Follows.refl (r : Recorder) : Follows r [] r := ⟨rfl, List.prefix_refl _, rfl⟩

theorem Follows.trans {r s t : Recorder} {ps qs : List Request} (h : Follows r ps s)
    (h' : Follows s qs t) : Follows r (ps ++ qs) t where
  graph_eq := by
    rw [recorded, List.filterMap_append, List.foldl_append, h'.graph_eq, h.graph_eq]
    rfl
  kept := h.kept.trans h'.kept
  length_eq := by
    rw [freezes, List.countP_append, h'.length_eq, h.length_eq, Nat.add_assoc]
    rfl

theorem freeze_eq {r : Recorder} (h : r.graph.Exact) :
    r.freeze = .ok { r with snapshots := r.snapshots ++ [r.graph] } := by
  rw [freeze, h.check_eq]
  rfl

theorem follows_record (r : Recorder) {q : Request} {c : Call} (hq : q.call? = some c) :
    Follows r [q] (r.record c) where
  graph_eq := by simp [recorded, hq, record]
  kept := List.prefix_refl _
  length_eq := by simp [freezes, hq, record]

/-- A step keeps the graph in step with its calls, and no check fails. -/
theorem exists_step {r : Recorder} (h : r.graph.Exact) (q : Request) :
    ∃ t, r.step q = .ok t ∧ t.graph.Exact ∧ Follows r [q] t := by
  cases q with
  | add c => exact ⟨_, rfl, h.record c, follows_record r rfl⟩
  | call caller callee line => exact ⟨_, rfl, h.record _, follows_record r rfl⟩
  | freeze =>
    refine ⟨_, freeze_eq h, h, rfl, List.prefix_append _ _, ?_⟩
    simp [freezes, Request.call?]

theorem exists_steps {r : Recorder} (h : r.graph.Exact) (qs : List Request) :
    ∃ t, qs.foldlM step r = .ok t ∧ t.graph.Exact ∧ Follows r qs t := by
  induction qs generalizing r with
  | nil => exact ⟨r, rfl, h, .refl r⟩
  | cons q qs ih =>
    obtain ⟨s, hstep, hs, hfirst⟩ := exists_step h q
    obtain ⟨t, hsteps, ht, hlater⟩ := ih hs
    refine ⟨t, ?_, ht, hfirst.trans hlater⟩
    rw [List.foldlM_cons, hstep]
    exact hsteps

theorem run_append (ps qs : List Request) : run (ps ++ qs) = run ps >>= qs.foldlM step :=
  List.foldlM_append

theorem exists_run (qs : List Request) :
    ∃ r, run qs = .ok r ∧ r.graph = .ofCalls (recorded qs) ∧ r.snapshots.length = freezes qs := by
  have hstart : ({} : Recorder).graph.Exact := CallGraph.exact_empty
  obtain ⟨r, hrun, -, hfollows⟩ := exists_steps hstart qs
  exact ⟨r, hrun, hfollows.graph_eq, hfollows.length_eq.trans (Nat.zero_add _)⟩

/-- The graph handed out at a request is the one of the calls before it, whatever follows. -/
theorem getElem?_snapshots_of_run {before after : List Request} {r : Recorder}
    (h : run (before ++ .freeze :: after) = .ok r) :
    r.snapshots[freezes before]? = some (.ofCalls (recorded before)) := by
  obtain ⟨s, hbefore, hgraph, hlength⟩ := exists_run before
  have hexact : s.graph.Exact := by
    rw [hgraph]
    exact CallGraph.exact_ofCalls _
  obtain ⟨t, hafter, -, hfollows⟩ := exists_steps
    (r := { s with snapshots := s.snapshots ++ [s.graph] }) hexact after
  have hrun : run (before ++ .freeze :: after) = .ok t := by
    rw [run_append, hbefore]
    simp only [bind, Except.bind, List.foldlM_cons, step, freeze_eq hexact]
    exact hafter
  obtain rfl := Except.ok.inj (hrun.symm.trans h)
  obtain ⟨later, hlater⟩ := hfollows.kept
  rw [← hlater, ← hgraph, ← hlength, List.append_assoc]
  simp

/-- No request fails, and a recorder hands out one graph for each time that it is asked. Each graph
holds exactly the calls recorded before it was asked for and is the graph of these calls, whatever
comes later. A line that is given is kept if it is at least one. -/
theorem snapshots_stay_exact :
    (∀ qs, ∃ r, run qs = .ok r ∧ r.snapshots.length = freezes qs) ∧
      ∀ before after, ∃ r g, run (before ++ .freeze :: after) = .ok r ∧
        r.snapshots[freezes before]? = some g ∧ g.Holds (recorded before) ∧
        ∀ caller callee line, .call caller callee line ∈ before → ∃ c ∈ g.calls,
          c.caller = caller ∧ c.callee = callee ∧
            c.line.map Int.ofNat = line.filter fun n => decide (1 ≤ n) := by
  refine ⟨fun qs => ?_, fun before after => ?_⟩
  · obtain ⟨r, hrun, -, hlength⟩ := exists_run qs
    exact ⟨r, hrun, hlength⟩
  · obtain ⟨r, hrun, -⟩ := exists_run (before ++ .freeze :: after)
    refine ⟨r, _, hrun, getElem?_snapshots_of_run hrun, CallGraph.holds_ofCalls _, ?_⟩
    intro caller callee line hq
    refine ⟨.make caller callee line, ?_, rfl, rfl, Call.line_make caller callee line⟩
    rw [CallGraph.calls_ofCalls]
    exact List.mem_filterMap.mpr ⟨_, hq, rfl⟩

/-- A call that is recorded after a graph was handed out is not in this graph, and a line of zero is
not kept. -/
theorem early_graph_lacks_later_call :
    let main : Method := { name := "main", owner := "App" }
    let log : Method := { name := "write", owner := "Log" }
    let before : List Request := [.call main log (some 0), .add { caller := main, callee := log }]
    let after : List Request := [.call log main (some 3), .freeze]
    .call main log (some 0) ∈ before ∧ ∃ r g, run (before ++ .freeze :: after) = .ok r ∧
      r.snapshots[0]? = some g ∧ g.calls.length = 2 ∧ g.callsFrom log = [] ∧
      ∃ c ∈ g.calls, c.caller = main ∧ c.callee = log ∧ c.line.map Int.ofNat = none := by
  intro main log before after
  have hcall : .call main log (some 0) ∈ before := List.mem_cons_self
  have hcount : (recorded before).length = 2 := by decide +revert
  have hnone : ((recorded before).filter fun c => c.caller = log) = [] := by decide +revert
  obtain ⟨r, g, hrun, hfirst, hholds, hlines⟩ := snapshots_stay_exact.2 before after
  exact ⟨hcall, r, g, hrun, hfirst, hholds.calls_eq ▸ hcount, (hholds.callsFrom_eq log).trans hnone,
    hlines main log (some 0) hcall⟩

end Recorder

end CallTrace
