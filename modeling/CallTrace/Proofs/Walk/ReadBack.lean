import CallTrace.Proofs.Trace.RoundTrip
import CallTrace.Proofs.Walk.Loop
import CallTrace.Proofs.Walk.RunEvents

/-!
# The trace of a run read back

The text of a run is its header and its lines. A reader that knows the hidden classes finds the
sinks again, since only the line of a sink has a hidden class among its candidates.
-/

namespace CallTrace.Walk

section

variable {w : Walk} {a : Arrival}

theorem nameAt_ne (w : Walk) (a : Arrival) : w.nameAt a ≠ "" :=
  w.className_ne a.method a.line a.callerClass

/-- Of the methods shown the sinks are those with a hidden class among their candidates. -/
theorem Shows.sink_iff_showsHidden (h : w.Shows a) :
    w.verdictAt a = .sink ↔ Trace.showsHidden w.policy.classes.hidden (w.nameAt a) = true := by
  have hwalked := verdictAt_eq_walked_iff (w := w) (a := a)
  constructor
  · intro hsink
    apply Classical.byContradiction
    intro hnone
    have : w.verdictAt a = .walked := by
      apply hwalked.mpr
      intro n hn hides
      exact hnone (List.any_eq_true.mpr ⟨n, hn, decide_eq_true hides⟩)
    rw [hsink] at this
    cases this
  · intro hany
    obtain ⟨n, hn, hides⟩ := List.any_eq_true.mp hany
    cases hverdict : w.verdictAt a with
    | walked => exact absurd (of_decide_eq_true hides) (hwalked.mp hverdict n hn)
    | sink => rfl
    | hidden => exact absurd hverdict h.2

theorem Shows.legible (h : w.Shows a) {d : Nat}
    (hsignature : Text.IsWord a.method.signature) (hclass : Text.IsWord (w.nameAt a))
    (hnumber : Text.Readable a.line) :
    (w.lineAt d a).1.Legible w.policy.classes.hidden where
  signature_ne := a.method.signature_ne
  className_ne := w.nameAt_ne a
  signature_word := hsignature
  className_word := hclass
  readable := hnumber
  isSink_eq := by
    apply Bool.eq_iff_iff.mpr
    exact decide_eq_true_iff.trans h.sink_iff_showsHidden

end

theorem text_run (w : Walk) (entry : Method) (depth : Nat) (line : Option Int) :
    (w.run none entry depth line).text = Trace.render (w.run none entry depth line).lines := by
  rw [Run.text, written_run, Trace.render, Text.unlines, List.map_cons, List.map_map]
  rfl

theorem signature_of_mem_shown {w : Walk} {entry : Method} {depth : Nat} {line : Option Int}
    {l : Trace.Line × Method} (hl : l ∈ (w.run none entry depth line).shown) :
    l.1.signature = l.2.signature := by
  obtain ⟨a, d, -, rfl, -⟩ := exists_arrival_of_mem_shown hl
  rfl

theorem legible_of_mem_lines {w : Walk} {entry : Method} {depth : Nat} {line : Option Int}
    {l : Trace.Line} (hl : l ∈ (w.run none entry depth line).lines)
    (hwords : Text.IsWord l.signature ∧ Text.IsWord l.className)
    (hnumber : Text.Readable l.lineNumber) : l.Legible w.policy.classes.hidden := by
  obtain ⟨⟨l, m⟩, hshown, rfl⟩ := List.mem_map.mp hl
  obtain ⟨a, d, hshows, hline, -⟩ := exists_arrival_of_mem_shown hshown
  obtain rfl : l = (w.lineAt d a).1 := congrArg Prod.fst hline
  exact hshows.legible hwords.1 hwords.2 hnumber

/-- The text of a run reads back to the lines of the run. -/
theorem read_run {w : Walk} {entry : Method} {depth : Nat} {line : Option Int}
    (hwords : ∀ l ∈ (w.run none entry depth line).lines,
      Text.IsWord l.signature ∧ Text.IsWord l.className)
    (hnumbers : ∀ l ∈ (w.run none entry depth line).lines, Text.Readable l.lineNumber) :
    Trace.read (w.run none entry depth line).text w.policy.classes.hidden =
      .ok (w.run none entry depth line).lines := by
  rw [text_run]
  apply Trace.read_render
  intro l hl
  exact legible_of_mem_lines hl (hwords l hl) (hnumbers l hl)

/-- The trace of a run reads back to the lines of the run, so the figures of the run are those of
its trace. The words must not be broken by spaces or line boundaries, and readers refuse numbers
with too many digits. -/
theorem read_text_run (w : Walk) (entry : Method) (depth : Nat) (line : Option Int)
    (hwords : ∀ l ∈ (w.run none entry depth line).lines,
      Text.IsWord l.signature ∧ Text.IsWord l.className)
    (hnumbers : ∀ l ∈ (w.run none entry depth line).lines, Text.Readable l.lineNumber) :
    let r := w.run none entry depth line
    ∃ ls s, Trace.read r.text w.policy.classes.hidden = .ok ls ∧ ls = r.lines ∧
      r.outcome = .ok s ∧ ls.length = s.lines ∧
      (∀ l ∈ ls, l.depth ≤ s.deepest) ∧ (ls ≠ [] → ∃ l ∈ ls, l.depth = s.deepest) ∧
      (ls = [] ↔ s.deepest = -1) ∧
      (ls.filter Trace.Line.isSink).map Trace.Line.signature = s.sinks.map Method.signature := by
  intro r
  refine ⟨r.lines, .ofShown r.shown, read_run hwords hnumbers, rfl,
    w.outcome_run entry depth line, List.length_map .., ?_, ?_, ?_, ?_⟩
  · intro l hl
    exact Summary.le_greatestDepth hl
  · exact Summary.exists_depth_eq_greatestDepth
  · exact Summary.greatestDepth_eq_neg_one_iff.symm
  · rw [Run.lines, List.filter_map, List.map_map, Summary.ofShown, List.map_map]
    apply List.map_congr_left
    intro l hl
    exact signature_of_mem_shown (List.mem_filter.mp hl).1

theorem logger_read_back :
    let main : Method := { name := "main", owner := "app.Main" }
    let log : Method := { name := "log", owner := "lib.Log", parameters := ["int"] }
    let call : Call := { caller := main, callee := log, line := some 7 }
    let p : Policy :=
      { classes := { hidden := ["lib"] }, sinks := .ofList [("lib.Log", .ofList ["log"])] }
    let w : Walk := ⟨.ofCalls [call], p, .byAlias⟩
    let r := w.run none main 1 none
    (∀ l ∈ r.lines, Text.IsWord l.signature ∧ Text.IsWord l.className) ∧
      (∀ l ∈ r.lines, Text.Readable l.lineNumber) ∧
      ∃ ls s, Trace.read r.text ["lib"] = .ok ls ∧ ls.length = s.lines ∧ r.outcome = .ok s ∧
        ls = [⟨"main()", "app.Main", 1, -1, false⟩, ⟨"log(int)", "lib.Log", 2, 7, true⟩] := by
  intro main log call p w r
  have hlines : r.lines =
      [⟨"main()", "app.Main", 1, -1, false⟩, ⟨"log(int)", "lib.Log", 2, 7, true⟩] := by
    decide +kernel +revert
  have hwords : ∀ l ∈ r.lines, Text.IsWord l.signature ∧ Text.IsWord l.className := by
    rw [hlines]
    decide
  have hnumbers : ∀ l ∈ r.lines, Text.Readable l.lineNumber := by
    rw [hlines]
    decide
  obtain ⟨ls, s, hread, rfl, houtcome, hlength, -⟩ := read_text_run w main 1 none hwords hnumbers
  exact ⟨hwords, hnumbers, _, s, hread, hlength, houtcome, hlines⟩

end CallTrace.Walk
