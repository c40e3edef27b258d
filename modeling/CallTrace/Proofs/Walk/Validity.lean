import CallTrace.MethodRecord
import CallTrace.Proofs.Walk.ReadBack

/-!
# No check fails in a run

Every method of a walk has a name and a class, and a displayed name is never empty, whatever the
groups are. So a checked run breaks no rule: it is the run without checks.
-/

namespace CallTrace

namespace MethodRecord

theorem isLine_line_ofMethod (m : Method) (extended : Bool) :
    IsLine (ofMethod m extended).line := by
  simp only [ofMethod]
  split
  · next n hn =>
    have : 0 < n := m.sourceLine_pos n hn
    left
    omega
  · exact .inr rfl

theorem name_ofMethod_ne (m : Method) (extended : Bool) : (ofMethod m extended).name ≠ "" := by
  intro h
  have := congrArg String.length h
  simp [ofMethod, Method.qualifiedName] at this

/-- The record of a method breaks no rule. -/
theorem check_ofMethod (m : Method) (extended : Bool) :
    (ofMethod m extended).check = .ok (ofMethod m extended) := by
  unfold check
  rw [require_of (name_ofMethod_ne m extended), require_of (isLine_line_ofMethod m extended)]
  rfl

theorem mapM_check_ofMethod (sinks : List Method) (extended : Bool) :
    sinks.mapM (fun m => (ofMethod m extended).check) = .ok (ofSinks sinks extended).1 := by
  induction sinks with
  | nil => rfl
  | cons m sinks ih =>
    rw [List.mapM_cons, check_ofMethod, ih]
    rfl

end MethodRecord

namespace Walk

section

variable {w : Walk} {entry : Method} {s t : State} {es : List Event} (hi : w.Inv entry s)

theorem checkedSteps_of_none (hs : w.step s = none) : w.checkedSteps entry s hi = return () := by
  have hstep := w.checkedStep_eq s
  rw [hs] at hstep
  funext j
  rw [checkedSteps]
  split
  · next hstopped => cases (congrFun hstep j).symm.trans hstopped
  · next hdone =>
    cases (congrFun hstep j).symm.trans hdone
    rfl
  · next hnext => cases (congrFun hstep j).symm.trans hnext

theorem checkedSteps_of_step (hs : w.step s = some (es, t)) :
    w.checkedSteps entry s hi = recordAll es >>= fun _ => w.checkedSteps entry t (hi.step hs) := by
  funext j
  have hstep : w.checkedStep s j = recordThen es (some t) j := by rw [checkedStep_eq, hs]
  rw [checkedSteps]
  simp only [recordThen, bind, EStateM.bind] at hstep ⊢
  cases hes : recordAll es j with
  | ok _ k =>
    rw [hes] at hstep
    split
    · next hstopped => cases hstep.symm.trans hstopped
    · next hdone => cases hstep.symm.trans hdone
    · next hnext =>
      cases hstep.symm.trans hnext
      rfl
  | error f k =>
    rw [hes] at hstep
    split
    · next hstopped =>
      cases hstep.symm.trans hstopped
      rfl
    · next hdone => cases hstep.symm.trans hdone
    · next hnext => cases hstep.symm.trans hnext

theorem checkedSteps_of_reaches {ms : List (Method × Nat)} (h : w.Reaches s es ms t) :
    w.checkedSteps entry s hi = recordAll es >>= fun _ => w.checkedSteps entry t (h.inv hi) := by
  induction h with
  | refl => rfl
  | head hs _ ih => rw [checkedSteps_of_step hi hs, recordAll_append, bind_assoc, ih]

end

theorem printable_finished {entry : Method} {s : Summary} : (finished entry s).Printable :=
  Event.printable_of_no_site rfl

section

variable (w : Walk) (room : Option Nat) (entry : Method) (depth : Nat) (line : Option Int)

/-- No check fails on the way, so a checked walk records the events of the walk. -/
theorem checkedWalk_eq : w.checkedWalk entry depth line = recordAll (w.story entry depth line) := by
  obtain ⟨_, t, ht, -, hr⟩ := w.reaches_unfolding entry depth line
  have hsteps : w.checkedSteps entry _ (w.inv_opening entry depth line) =
      recordAll (w.unfolding entry depth line).events := by
    rw [checkedSteps_of_reaches _ hr, checkedSteps_of_none _ ht]
    exact bind_pure _
  funext j
  have hopening := congrFun (w.checkedOpening_eq entry depth line) j
  rw [checkedWalk, story, recordAll_append]
  simp only [recordThen, bind, EStateM.bind] at hopening ⊢
  cases hes : recordAll (w.opening entry depth line).1 j with
  | ok _ k =>
    rw [hes] at hopening
    split
    · next hstopped => cases hopening.symm.trans hstopped
    · next hok =>
      cases hopening.symm.trans hok
      exact congrFun hsteps k
  | error f k =>
    rw [hes] at hopening
    split
    · next hstopped =>
      cases hopening.symm.trans hstopped
      rfl
    · next hok => cases hopening.symm.trans hok

/-- The summary of what has been shown breaks no rule either. -/
theorem conclude_eq (j : Journal) :
    conclude entry j =
      .ok () (j.push (finished entry (.ofShown (j.events.filterMap Event.shown?)))) := by
  have hsummary := Summary.make_of
    (Summary.length_sinks_ofShown_le (j.events.filterMap Event.shown?))
  change (Recording.check (Summary.make _ _ _) >>= fun s => record (finished entry s)) j = _
  rw [hsummary]
  exact record_of_printable printable_finished j

theorem recording_eq :
    w.recording entry depth line =
      recordAll (w.story entry depth line) >>= fun _ => conclude entry := by
  rw [recording, require_of (Int.natCast_nonneg depth), Int.toNat_natCast, checkedWalk_eq]
  rfl

/-- A run whose texts can all be made breaks no rule: the checked run is the run without checks,
whatever the writer takes. -/
theorem checkedRun_of_printable (h : ∀ e ∈ w.story entry depth line, e.Printable) :
    w.checkedRun room entry depth line = .ok (w.run room entry depth line) := by
  have hjournal : w.journal room entry depth line =
      (Journal.start room).addAll (w.story entry depth line) := journal_eq ..
  rw [checkedRun, recording_eq, run, hjournal]
  simp only [bind, EStateM.bind, recordAll_of_printable h]
  cases (Journal.start room).addAll (w.story entry depth line) with
  | ok j =>
    simp only [conclude_eq, Journal.events, Journal.push, List.reverse_cons]
  | error j => rfl

end

section

variable {w : Walk} {entry : Method} {depth : Nat} {line : Option Int}

/-- The first text that cannot be made breaks a run off, after all that comes before it. -/
theorem checkedRun_of_unprintable {es fs : List Event} {e : Event} {u : Text.Unprintable}
    (hstory : w.story entry depth line = es ++ e :: fs) (hes : ∀ f ∈ es, f.Printable)
    (he : e.print = .error u) :
    w.checkedRun none entry depth line = .error ⟨⟨es, false⟩, .unprintable u⟩ := by
  rw [checkedRun, recording_eq, hstory]
  simp only [bind, EStateM.bind, recordAll_of_unprintable hes he, Journal.events, List.reverse_reverse]

theorem printable_events_iff :
    (∀ e ∈ (w.run none entry depth line).events, e.Printable) ↔
      ∀ e ∈ w.story entry depth line, e.Printable := by
  rw [run_unlimited, List.forall_mem_append, and_iff_left]
  exact List.forall_mem_singleton.mpr printable_finished

/-- A checked run has a result exactly if all its texts can be made, and it is the run then. -/
theorem checkedRun_eq_ok_iff {r : Run} :
    w.checkedRun none entry depth line = .ok r ↔
      (∀ e ∈ (w.run none entry depth line).events, e.Printable) ∧
        r = w.run none entry depth line := by
  rw [printable_events_iff]
  constructor
  · intro hrun
    rcases printable_or_exists_unprintable (w.story entry depth line) with
      hall | ⟨es, e, fs, u, hstory, hes, he⟩
    · exact ⟨hall, Except.ok.inj (hrun.symm.trans (w.checkedRun_of_printable none _ _ _ hall))⟩
    · cases hrun.symm.trans (checkedRun_of_unprintable hstory hes he)
  · rintro ⟨hall, rfl⟩
    exact w.checkedRun_of_printable none _ _ _ hall

/-- What cannot be printed comes before the report of the end. -/
theorem exists_story_of_events {es fs : List Event} {e : Event} {u : Text.Unprintable}
    (h : (w.run none entry depth line).events = es ++ e :: fs) (he : e.print = .error u) :
    ∃ gs, w.story entry depth line = es ++ e :: gs := by
  rw [run_unlimited] at h
  rcases List.eq_nil_or_concat fs with rfl | ⟨gs, f, rfl⟩
  · obtain rfl := List.singleton_inj.mp (List.append_inj_right' h rfl)
    cases he.symm.trans (Event.print_eq_ok_iff.mpr printable_finished)
  · have happend := h.trans (b := es ++ e :: gs.concat f) (c := (es ++ e :: gs) ++ [f]) (by simp)
    exact ⟨gs, List.append_inj_left' happend rfl⟩

/-- A root that cannot be printed breaks a run off after its header. -/
theorem checkedRun_of_unprintable_root {l : Trace.Line} {u : Text.Unprintable}
    (hvisit : (w.visit entry depth (line.getD unknownLine) none).events = [.shown l entry])
    (hl : l.print = .error u) :
    w.checkedRun none entry depth line =
      .error ⟨⟨[.logged (.started entry w.graph.calls.length), .header], false⟩,
        .unprintable u⟩ := by
  have hstory : w.story entry depth line =
      [.logged (.started entry w.graph.calls.length), .header] ++ .shown l entry ::
        ((if (w.visit entry depth (line.getD unknownLine) none).opens then
          w.refusal [] entry depth else []) ++ (w.unfolding entry depth line).events) := by
    simp [story, opening_eq, hvisit]
  apply checkedRun_of_unprintable hstory
  · exact List.forall_mem_cons.mpr
      ⟨Event.printable_of_no_site rfl, List.forall_mem_singleton.mpr trivial⟩
  · rw [Event.print, hl]
    rfl

theorem className_ne_of_mem_shown {l : Trace.Line × Method}
    (hl : l ∈ (w.run none entry depth line).shown) : l.1.className ≠ "" := by
  obtain ⟨a, d, -, rfl, -⟩ := exists_arrival_of_mem_shown hl
  exact w.nameAt_ne a

end

/-- A run breaks no rule: the checks of its call sites, of its lines and of its summary hold, and so
do those of the records of its sinks. There is one record for each line of a sink, in order, named
after the class of the sink and the signature in the line. So a checked run is the run without
checks if all that it shows and reports can be printed, and otherwise it breaks off at the first
text that cannot be made, with all that comes before it. -/
theorem run_breaks_no_rule (w : Walk) (entry : Method) (depth : Nat) (line : Option Int) :
    let r := w.run none entry depth line
    ∃ s, r.outcome = .ok s ∧ Summary.make s.lines s.sinks s.deepest = .ok s ∧
      (∀ l ∈ r.lines, l.signature ≠ "" ∧ l.className ≠ "") ∧
      (∀ extended,
        s.sinks.mapM (fun m => (MethodRecord.ofMethod m extended).check) =
          .ok (MethodRecord.ofSinks s.sinks extended).1 ∧
        (MethodRecord.ofSinks s.sinks extended).1.map MethodRecord.name =
          (r.shown.filter fun l => l.1.isSink).map fun l =>
            "[" ++ l.2.owner ++ "]." ++ l.1.signature) ∧
      ((∀ e ∈ r.events, e.Printable) → w.checkedRun none entry depth line = .ok r) ∧
      ∀ es e fs u, r.events = es ++ e :: fs → (∀ f ∈ es, f.Printable) → e.print = .error u →
        w.checkedRun none entry depth line = .error ⟨⟨es, false⟩, .unprintable u⟩ := by
  intro r
  refine ⟨_, w.outcome_run entry depth line,
    Summary.make_of (Summary.length_sinks_ofShown_le _), ?_, ?_, ?_, ?_⟩
  · intro l hl
    obtain ⟨shown, hshown, rfl⟩ := List.mem_map.mp hl
    rw [signature_of_mem_shown hshown]
    exact ⟨shown.2.signature_ne, className_ne_of_mem_shown hshown⟩
  · intro extended
    refine ⟨MethodRecord.mapM_check_ofMethod _ extended, ?_⟩
    simp only [MethodRecord.ofSinks, Summary.ofShown, List.map_map]
    apply List.map_congr_left
    intro l hl
    rw [signature_of_mem_shown (List.mem_filter.mp hl).1]
    rfl
  · intro h
    exact checkedRun_eq_ok_iff.mpr ⟨h, rfl⟩
  · intro es e fs u hevents hes he
    obtain ⟨gs, hstory⟩ := exists_story_of_events hevents he
    exact checkedRun_of_unprintable hstory hes he

/-- A sink is printed below its caller, but not at a depth whose margin is too long. -/
theorem sink_printed_unless_too_deep :
    let main : Method := { name := "main", owner := "App" }
    let log : Method := { name := "write", owner := "Log" }
    let call : Call := { caller := main, callee := log, line := some 3 }
    let p : Policy :=
      { classes := { hidden := ["Log"] }, sinks := .ofList [("Log", .ofList ["write"])] }
    let w : Walk := ⟨.ofCalls [call], p, .byAlias⟩
    let deep := 4611686018427387903
    let r := w.run none main 0 none
    let es : List Event := [.logged (.started main 1), .header,
      .shown ⟨"main()", "App", deep, -1, false⟩ main]
    let e : Event := .shown ⟨"write()", "Log", deep + 1, 3, true⟩ log
    (∀ e ∈ r.events, e.Printable) ∧ w.checkedRun none main 0 none = .ok r ∧
      r.text = "Call tree\nmain() App linenumber=-1\n  write() Log linenumber=3\n" ∧
      (∃ s, r.outcome = .ok s ∧
        (MethodRecord.ofSinks s.sinks false).1.map MethodRecord.name = ["[Log].write()"]) ∧
      (∃ fs, (w.run none main deep none).events = es ++ e :: fs) ∧ (∀ f ∈ es, f.Printable) ∧
      e.print = .error .tooLong ∧
      w.checkedRun none main deep none = .error ⟨⟨es, false⟩, .unprintable .tooLong⟩ := by
  intro main log call p w deep r es e
  have hprintable : ∀ e ∈ r.events, e.Printable := by decide +kernel +revert
  have htext : r.text = "Call tree\nmain() App linenumber=-1\n  write() Log linenumber=3\n" := by
    decide +kernel +revert
  have hnames : ((r.shown.filter fun l => l.1.isSink).map fun l =>
      "[" ++ l.2.owner ++ "]." ++ l.1.signature) = ["[Log].write()"] := by
    decide +kernel +revert
  have hevents : (w.run none main deep none).events =
      es ++ e :: [.logged (.finished main 2 1)] := by
    decide +kernel +revert
  have hes : ∀ f ∈ es, f.Printable := by decide +kernel +revert
  have he : e.print = .error .tooLong := by decide +kernel +revert
  obtain ⟨s, houtcome, -, -, hrecords, hprinted, -⟩ := run_breaks_no_rule w main 0 none
  obtain ⟨_, -, -, -, -, -, hbroken⟩ := run_breaks_no_rule w main deep none
  exact ⟨hprintable, hprinted hprintable, htext, ⟨s, houtcome, (hrecords false).2.trans hnames⟩,
    ⟨_, hevents⟩, hes, he, hbroken es e _ _ hevents hes he⟩

/-- A root that is too deep, or whose number is a one with 4300 zeros, is not printed, and there is
no result. -/
theorem root_not_printed :
    let main : Method := { name := "main", owner := "App" }
    let w : Walk := ⟨.ofCalls [], .empty, .byAlias⟩
    let begun : Run := ⟨[.logged (.started main 0), .header], false⟩
    w.checkedRun none main 9223372036854775808 none =
        .error ⟨begun, .unprintable .tooManyCopies⟩ ∧
      w.checkedRun none main 0 (some (Text.ofDigits (1 :: List.replicate 4300 0))) =
        .error ⟨begun, .unprintable .tooManyDigits⟩ ∧
      begun.text = "Call tree\n" := by
  intro main w begun
  have htext : begun.text = "Call tree\n" := by decide +revert
  have hcut : main.name ∉ w.policy.cutMethods := by decide +revert
  have hverdict : w.verdict main main.owner = .walked := by decide +revert
  have hvisit (depth : Nat) (line : Int) : (w.visit main depth line none).events =
      [.shown (shownLine main "App" depth line false) main] := by
    rw [visit, if_neg hcut]
    simp only [className, fallback, hverdict]
    rfl
  have hdeep : (shownLine main "App" 9223372036854775808 (-1) false).print =
      .error .tooManyCopies :=
    Trace.Line.print_of_too_deep (by decide)
  have hmargin : 0 * Trace.indent.length ≤ Text.maxLength := by decide
  have hlong {n : Int} (h : ¬ Text.Readable n) :
      (shownLine main "App" 0 n false).print = .error .tooManyDigits :=
    Trace.Line.print_of_not_readable hmargin h
  have hdigits : Text.digitLimit ≤ 4300 := by decide
  exact ⟨checkedRun_of_unprintable_root (hvisit _ _) hdeep,
    checkedRun_of_unprintable_root (hvisit _ _) (hlong (Text.not_readable_of_le hdigits)), htext⟩

end Walk

end CallTrace
