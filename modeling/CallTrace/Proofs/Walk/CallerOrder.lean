import CallTrace.Proofs.Walk.Agreement

/-!
# The order of the callers

The calls that leave one method have an order that a trace shows. Between the calls of different
methods the order of recording is free: it changes neither the groups of a graph nor a run.
-/

namespace CallTrace

/-- Sequences with the same calls of each caller have the same calls. -/
theorem perm_of_filter_caller_eq {cs ds : List Call}
    (h : ∀ m, (cs.filter fun c => c.caller = m) = ds.filter fun c => c.caller = m) :
    cs.Perm ds := by
  apply List.perm_iff_count.mpr
  intro c
  have hcount (es : List Call) : (es.filter fun d => d.caller = c.caller).count c = es.count c :=
    List.count_filter (decide_eq_true rfl)
  rw [← hcount cs, h, hcount ds]

namespace Walk

section

variable {cs ds : List Call}
  (h : ∀ m, (cs.filter fun c => c.caller = m) = ds.filter fun c => c.caller = m)

include h

theorem get?_aliasGroups_of_filter_eq (hidden : List String) (s : CallSite) :
    ((CallGraph.ofCalls cs).aliasGroups hidden).get? s =
      ((CallGraph.ofCalls ds).aliasGroups hidden).get? s := by
  apply CallGraph.get?_aliasGroups_congr
  intro c
  rw [CallGraph.calls_ofCalls, CallGraph.calls_ofCalls]
  exact (perm_of_filter_caller_eq h).mem_iff

theorem run_of_filter_eq (p : Policy) (g : Grouping) (room : Option Nat) (entry : Method)
    (depth : Nat) (line : Option Int) :
    run ⟨.ofCalls ds, p, g⟩ room entry depth line =
      run ⟨.ofCalls cs, p, g⟩ room entry depth line := by
  have hagrees : Agrees ⟨.ofCalls cs, p, g⟩ (withGraph ⟨.ofCalls cs, p, g⟩ (.ofCalls ds)) := by
    apply agrees_withGraph
    intro a _
    simp only [offers, withGraph, CallGraph.callsFrom_ofCalls, h]
  apply hagrees.run_eq
  simp only [withGraph, CallGraph.calls_ofCalls]
  exact (perm_of_filter_caller_eq h).length_eq.symm

end

/-- Two recordings that have the calls of each caller in the same order have the same groups and,
under these or any other groups, the same runs. -/
theorem caller_order_without_influence (cs ds : List Call)
    (hsame : ∀ m, (cs.filter fun c => c.caller = m) = ds.filter fun c => c.caller = m) :
    (∀ hidden s, ((CallGraph.ofCalls cs).aliasGroups hidden).get? s =
      ((CallGraph.ofCalls ds).aliasGroups hidden).get? s) ∧
    ∀ (p : Policy) (r : Rule) (hidden : List String) (entry : Method) (depth : Nat)
      (line : Option Int),
      let groups (calls : List Call) := (CallGraph.ofCalls calls).aliasGroups hidden
      let run (calls : List Call) (a : AliasMap) (room : Option Nat) :=
        Walk.run ⟨.ofCalls calls, { p with aliases := a }, r.grouping⟩ room entry depth line
      (∀ room, run cs (groups cs) room = run ds (groups ds) room) ∧
      (∀ a room, run cs a room = run ds a room) ∧
      ∀ a, ∃ s, (run cs a none).outcome = .ok s := by
  refine ⟨get?_aliasGroups_of_filter_eq hsame, ?_⟩
  intro p r hidden entry depth line groups run
  have hrun (a : AliasMap) (room : Option Nat) : run cs a room = run ds a room :=
    (run_of_filter_eq hsame { p with aliases := a } r.grouping room entry depth line).symm
  refine ⟨?_, hrun, fun a => ⟨_, outcome_run_unlimited _ entry depth line⟩⟩
  intro room
  let w : Walk := ⟨.ofCalls ds, { p with aliases := groups cs }, r.grouping⟩
  have hagrees : w.Agrees (w.withAliases (groups ds)) := by
    apply agrees_withAliases rfl (indexed_ofCalls _ _ _)
    intro m c _
    exact congrArg (·.getD .empty) (get?_aliasGroups_of_filter_eq hsame hidden (.ofCall c)).symm
  exact (hrun (groups cs) room).trans (hagrees.run_eq rfl room entry depth line).symm

/-- The calls of two methods of one class to one site, taken in turns and one method after the
other. -/
theorem turns_and_blocks_same_run :
    let main : Method := { name := "main", owner := "App" }
    let other : Method := { name := "other", owner := "App" }
    let disk : Method := { name := "write", owner := "Disk" }
    let cloud : Method := { name := "write", owner := "Cloud" }
    let inTurns : List Call := [{ caller := other, callee := disk }, { caller := main, callee := cloud },
      { caller := other, callee := cloud }, { caller := main, callee := other, line := some 3 }]
    let inBlocks : List Call := [{ caller := main, callee := cloud },
      { caller := main, callee := other, line := some 3 }, { caller := other, callee := disk },
      { caller := other, callee := cloud }]
    let groups (calls : List Call) := (CallGraph.ofCalls calls).aliasGroups []
    let walk (calls : List Call) : Walk :=
      ⟨.ofCalls calls, { aliases := groups calls }, Rule.byAlias.grouping⟩
    (∀ m, (inTurns.filter fun c => c.caller = m) = inBlocks.filter fun c => c.caller = m) ∧
      inTurns ≠ inBlocks ∧
      (groups inTurns).get? ⟨"App", "write", -1⟩ = (groups inBlocks).get? ⟨"App", "write", -1⟩ ∧
      (walk inTurns).run none main 0 none = (walk inBlocks).run none main 0 none ∧
      ((walk inBlocks).run none main 0 none).text =
        "Call tree\nmain() App linenumber=-1\n  write() Cloud:Disk linenumber=-1\n" ++
          "  other() App linenumber=3\n    write() Cloud:Disk linenumber=-1\n" := by
  intro main other disk cloud inTurns inBlocks groups walk
  have hcallers : main ≠ other := by decide +revert
  have hne : inTurns ≠ inBlocks := by decide +revert
  have htext : ((walk inBlocks).run none main 0 none).text =
      "Call tree\nmain() App linenumber=-1\n  write() Cloud:Disk linenumber=-1\n" ++
        "  other() App linenumber=3\n    write() Cloud:Disk linenumber=-1\n" := by
    decide +kernel +revert
  have hsame : ∀ m, (inTurns.filter fun c => c.caller = m) =
      inBlocks.filter fun c => c.caller = m := by
    intro m
    by_cases hm : main = m
    · have ho : other ≠ m := fun ho => hcallers (hm.trans ho.symm)
      simp [inTurns, inBlocks, hm, ho]
    · simp [inTurns, inBlocks, hm, List.filter_cons]
  obtain ⟨hgroups, hruns⟩ := caller_order_without_influence inTurns inBlocks hsame
  exact ⟨hsame, hne, hgroups [] _, (hruns {} .byAlias [] main 0 none).1 none, htext⟩

end Walk

end CallTrace
