import CallTrace.Proofs.Walk.ReadBack
import CallTrace.Report.Listing

/-!
# The listing of a run

A listing counts again what a run has counted on its way, from the lines that it reads in the text
of the run. Both come to the same figures, and the lines are those of the run.
-/

namespace CallTrace.Report

theorem sinkCount_map_fst (ls : List (Trace.Line × Method)) :
    sinkCount (ls.map Prod.fst) = (Walk.Summary.ofShown ls).sinks.length := by
  rw [sinkCount, List.countP_map, List.countP_eq_length_filter]
  exact (List.length_map ..).symm

/-- Without lines a listing has the depth 0 where a summary has -1. -/
theorem natCast_maxDepth (ls : List Trace.Line) :
    (maxDepth ls : Int) = max (Walk.Summary.greatestDepth ls) 0 := by
  have fold : ∀ (d : Nat) (e : Int), (d : Int) = max e 0 →
      (ls.foldl (fun d l => max d l.depth) d : Nat) =
        max (ls.foldl (fun d l => max d (l.depth : Int)) e) 0 := by
    induction ls with
    | nil => exact fun _ _ h => h
    | cons l ls ih =>
      intro d e h
      apply ih (max d l.depth) (max e l.depth)
      omega
  exact fold 0 (-1) rfl

/-- The listing of the text of a run has the figures of the run and then its lines as they were
written, with a mark at the lines of the sinks. -/
theorem listing_agrees_with_run (w : Walk) (entry : Method) (depth : Nat) (line : Option Int)
    (hwords : ∀ l ∈ (w.run none entry depth line).lines,
      Text.IsWord l.signature ∧ Text.IsWord l.className)
    (hnumbers : ∀ l ∈ (w.run none entry depth line).lines, Text.Readable l.lineNumber) :
    let r := w.run none entry depth line
    ∃ s, r.outcome = .ok s ∧
      listTrace r.text w.policy.classes.hidden = .ok (Text.unlines
        ([ruler '=', "Call Tree Report", ruler '=', "  Nodes: " ++ toString s.lines,
          "  Sinks: " ++ toString s.sinks.length,
          "  Max depth: " ++ toString (max s.deepest 0), ruler '-'] ++
        r.shown.map fun l => l.1.text ++ if l.1.isSink then "  [SINK]" else "")) ∧
      r.text = Text.unlines ("Call tree" :: r.shown.map fun l => l.1.text) ∧
      s.sinks = (r.shown.filter fun l => l.1.isSink).map Prod.snd := by
  intro r
  have hlisted (l : Trace.Line × Method) :
      listed l.1 = l.1.text ++ if l.1.isSink then "  [SINK]" else "" := by
    cases h : l.1.isSink <;> simp [listed, h, sinkMark]
  refine ⟨.ofShown r.shown, w.outcome_run entry depth line, ?_, ?_, rfl⟩
  · have hread : Trace.read r.text w.policy.classes.hidden = .ok r.lines :=
      Walk.read_run hwords hnumbers
    have hnodes : r.lines.length = (Walk.Summary.ofShown r.shown).lines := List.length_map ..
    have hsinks : sinkCount r.lines = (Walk.Summary.ofShown r.shown).sinks.length :=
      sinkCount_map_fst r.shown
    have hdepth : toString (max (Walk.Summary.ofShown r.shown).deepest 0) =
        toString (maxDepth r.lines) := by
      have : max (Walk.Summary.ofShown r.shown).deepest 0 = (maxDepth r.lines : Int) :=
        (natCast_maxDepth r.lines).symm
      rw [this]
      rfl
    simp only [listTrace, hread, Except.map, listing, listingHead, hnodes, hsinks, hdepth,
      ← hlisted]
    rw [Walk.Run.lines, List.map_map]
    rfl
  · rw [Walk.text_run, Trace.render, Walk.Run.lines, List.map_map]
    rfl

theorem logger_listed :
    let main : Method := { name := "main", owner := "app.Main" }
    let log : Method := { name := "log", owner := "lib.Log", parameters := ["int"] }
    let call : Call := { caller := main, callee := log, line := some 7 }
    let p : Policy :=
      { classes := { hidden := ["lib"] }, sinks := .ofList [("lib.Log", .ofList ["log"])] }
    let w : Walk := ⟨.ofCalls [call], p, .byAlias⟩
    let r := w.run none main 1 none
    (∀ l ∈ r.lines, Text.IsWord l.signature ∧ Text.IsWord l.className) ∧
      (∀ l ∈ r.lines, Text.Readable l.lineNumber) ∧ r.outcome = .ok ⟨2, [log], 2⟩ ∧
      listTrace r.text ["lib"] = .ok (Text.unlines
        [ruler '=', "Call Tree Report", ruler '=', "  Nodes: 2", "  Sinks: 1", "  Max depth: 2",
          ruler '-', "  main() app.Main linenumber=-1",
          "    log(int) lib.Log linenumber=7  [SINK]"]) := by
  intro main log call p w r
  have hshown : r.shown = [(⟨"main()", "app.Main", 1, -1, false⟩, main),
      (⟨"log(int)", "lib.Log", 2, 7, true⟩, log)] := by
    decide +kernel +revert
  have hwords : ∀ l ∈ r.lines, Text.IsWord l.signature ∧ Text.IsWord l.className := by
    rw [Walk.Run.lines, hshown]
    decide
  have hnumbers : ∀ l ∈ r.lines, Text.Readable l.lineNumber := by
    rw [Walk.Run.lines, hshown]
    decide
  have hsummary : r.outcome = .ok ⟨2, [log], 2⟩ := by
    rw [w.outcome_run main 1 none, hshown]
    rfl
  obtain ⟨s, houtcome, hlisting, -⟩ := listing_agrees_with_run w main 1 none hwords hnumbers
  obtain rfl : s = ⟨2, [log], 2⟩ := Except.ok.inj (houtcome.symm.trans hsummary)
  refine ⟨hwords, hnumbers, hsummary,
    hlisting.trans (congrArg (fun ls => Except.ok (Text.unlines ls)) ?_)⟩
  rw [hshown]
  clear hsummary houtcome hlisting hnumbers hwords hshown
  decide +kernel +revert

end CallTrace.Report
