import CallTrace.Proofs.Walk.RunEvents

/-!
# Writers that run full

A run offers a writer the same events whatever the writer takes. A writer that takes enough writes
sees the whole run; any other one sees the run up to the write that it refuses.
-/

namespace CallTrace.Walk

/-- What a writer is given by events. -/
def writes (es : List Event) : List String := es.filterMap Event.written?

@[simp] theorem writes_append (es fs : List Event) : writes (es ++ fs) = writes es ++ writes fs :=
  List.filterMap_append

theorem length_writes_cons (e : Event) (es : List Event) :
    (writes (e :: es)).length = (if e.isWrite = true then 1 else 0) + (writes es).length := by
  simp only [writes, List.length_filterMap_eq_countP, List.countP_cons, Event.isSome_written?]
  exact Nat.add_comm ..

/-- If there are more than `n` writes, one of them is the first that a writer of `n` refuses. -/
theorem exists_refused {es : List Event} {n : Nat} (h : n < (writes es).length) :
    ∃ fs e gs, es = fs ++ e :: gs ∧ e.isWrite = true ∧ (writes fs).length = n := by
  induction es generalizing n with
  | nil => exact absurd h (Nat.not_lt_zero n)
  | cons e es ih =>
    rw [length_writes_cons] at h
    cases hwrite : e.isWrite with
    | false =>
      simp only [hwrite, Bool.false_eq_true, if_false, Nat.zero_add] at h
      obtain ⟨fs, f, gs, rfl, hf, hlength⟩ := ih h
      refine ⟨e :: fs, f, gs, rfl, hf, ?_⟩
      simpa [length_writes_cons, hwrite] using hlength
    | true =>
      cases n with
      | zero => exact ⟨[], e, es, rfl, hwrite, rfl⟩
      | succ n =>
        have hrest : n < (writes es).length := by
          simp only [hwrite, if_true] at h
          omega
        obtain ⟨fs, f, gs, rfl, hf, hlength⟩ := ih hrest
        refine ⟨e :: fs, f, gs, rfl, hf, ?_⟩
        simp only [length_writes_cons, hwrite, if_true, hlength]
        exact Nat.add_comm ..

namespace Journal

theorem add_of_not_write {e : Event} (h : e.isWrite = false) (j : Journal) :
    j.add e = .ok (j.push e) := by
  simp [add, h]

theorem add_of_write {e : Event} (h : e.isWrite = true) (past : List Event) (n : Nat) :
    (⟨past, some (n + 1)⟩ : Journal).add e = .ok ⟨e :: past, some n⟩ := by
  simp [add, h, push]

theorem add_of_full {e : Event} (h : e.isWrite = true) (past : List Event) :
    (⟨past, some 0⟩ : Journal).add e = .error ⟨past, some 0⟩ := by
  simp [add, h]

theorem addAll_of_length_le {es : List Event} {n : Nat} (h : (writes es).length ≤ n)
    (past : List Event) :
    (⟨past, some n⟩ : Journal).addAll es =
      .ok ⟨es.reverse ++ past, some (n - (writes es).length)⟩ := by
  induction es generalizing n past with
  | nil => rfl
  | cons e es ih =>
    rw [length_writes_cons] at h ⊢
    cases hwrite : e.isWrite with
    | false =>
      simp only [hwrite, Bool.false_eq_true, if_false, Nat.zero_add] at h ⊢
      simp [addAll, add_of_not_write hwrite, push, ih h]
    | true =>
      obtain ⟨k, rfl⟩ : ∃ k, n = k + 1 := Nat.exists_eq_add_one.mpr (by simp [hwrite] at h; omega)
      have hrest : (writes es).length ≤ k := by
        simp only [hwrite, if_true] at h
        omega
      have hroom : k + 1 - (1 + (writes es).length) = k - (writes es).length := by omega
      simp [addAll, add_of_write hwrite, ih hrest, hroom]

/-- The events before the refused write are all that a journal keeps. -/
theorem addAll_of_refused {fs gs : List Event} {e : Event} (he : e.isWrite = true) :
    (⟨[], some (writes fs).length⟩ : Journal).addAll (fs ++ e :: gs) =
      .error ⟨fs.reverse, some 0⟩ := by
  have hfs := addAll_of_length_le (Nat.le_refl (writes fs).length) []
  rw [List.append_nil, Nat.sub_self] at hfs
  rw [addAll_append, hfs]
  change (⟨fs.reverse, some 0⟩ : Journal).addAll (e :: gs) = _
  rw [addAll, add_of_full he]

end Journal

section

variable (w : Walk) (entry : Method) (depth : Nat) (line : Option Int)

theorem writes_run : writes (w.run none entry depth line).events = writes (w.story entry depth line) := by
  simp [run_unlimited, finished, writes, Event.written?]

theorem run_of_length_le {n : Nat} (h : (writes (w.story entry depth line)).length ≤ n) :
    w.run (some n) entry depth line = w.run none entry depth line := by
  have hjournal : w.journal (some n) entry depth line = _ :=
    (journal_eq ..).trans (Journal.addAll_of_length_le h [])
  rw [run_unlimited, run, hjournal]
  simp [Journal.events]

theorem run_of_refused {fs gs : List Event} {e : Event} {n : Nat}
    (hstory : w.story entry depth line = fs ++ e :: gs) (he : e.isWrite = true)
    (hn : (writes fs).length = n) : w.run (some n) entry depth line = ⟨fs, false⟩ := by
  have hjournal : w.journal (some n) entry depth line =
      (Journal.start (some n)).addAll (w.story entry depth line) :=
    journal_eq ..
  rw [hstory, ← hn] at hjournal
  have hrefused : w.journal _ entry depth line = _ :=
    hjournal.trans (Journal.addAll_of_refused he)
  rw [run, ← hn, hrefused]
  simp [Journal.events]

/-- What a run has before a write that is refused: its start, but never its end. -/
theorem logs_of_refused {fs gs : List Event} {e : Event}
    (hstory : w.story entry depth line = fs ++ e :: gs) (he : e.isWrite = true) :
    .logged (.started entry w.graph.calls.length) ∈ fs ∧
      ∀ m lines sinks, .logged (.finished m lines sinks) ∉ fs := by
  obtain ⟨es, hes, hinner⟩ := w.exists_inner_story entry depth line
  constructor
  · cases fs with
    | nil =>
      obtain ⟨rfl, -⟩ := List.cons.inj (hinner.symm.trans hstory)
      cases he
    | cons f fs =>
      obtain ⟨rfl, -⟩ := List.cons.inj (hinner.symm.trans hstory)
      exact List.mem_cons_self
  · intro m lines sinks hmem
    have hall : .logged (.finished m lines sinks) ∈ w.story entry depth line := by
      rw [hstory]
      exact List.mem_append_left _ hmem
    rw [hinner] at hall
    rcases List.mem_cons.mp hall with heq | hall
    · cases heq
    · rcases List.mem_cons.mp hall with heq | hall
      · cases heq
      · cases hes _ hall

end

/-- A writer that takes `n` writes and no more either does not break the run off at all, or it holds
the first `n` writes of the run, and the run has done nothing that comes after the write refused. -/
theorem run_stops_at_refused_write (w : Walk) (entry : Method) (depth : Nat) (line : Option Int)
    (n : Nat) :
    let r := w.run none entry depth line
    let cut := w.run (some n) entry depth line
    ∃ s, r.outcome = .ok s ∧ r.written.length = 1 + s.lines ∧
      (1 + s.lines ≤ n → cut = r) ∧
      (n < 1 + s.lines →
        cut.outcome = .error .writerFull ∧ cut.text = "".intercalate (r.written.take n) ∧
        (∃ e rest, r.events = cut.events ++ e :: rest ∧ e.isWrite = true ∧
          cut.written.length = n) ∧
        .started entry w.graph.calls.length ∈ cut.logs ∧
          ∀ m lines sinks, .finished m lines sinks ∉ cut.logs) := by
  intro r cut
  have hwritten : r.written = writes (w.story entry depth line) := w.writes_run entry depth line
  have hlength : r.written.length = 1 + r.shown.length := by
    simp only [r, written_run, Run.lines, List.length_cons, List.length_map]
    exact Nat.add_comm ..
  refine ⟨.ofShown r.shown, ?_, hlength, ?_, ?_⟩
  · simp only [r, outcome_run_unlimited, shown_run_unlimited]
  · intro hn
    apply run_of_length_le
    rw [← hwritten, hlength]
    exact hn
  · intro hn
    have hmore : n < (writes (w.story entry depth line)).length := by
      rw [← hwritten, hlength]
      exact hn
    obtain ⟨fs, e, gs, hstory, he, rfl⟩ := exists_refused hmore
    have hcut : cut = ⟨fs, false⟩ := w.run_of_refused entry depth line hstory he rfl
    have hevents : r.events = fs ++ e :: (gs ++ [finished entry (.ofShown
        ((w.story entry depth line).filterMap Event.shown?))]) := by
      simp [r, run_unlimited, hstory]
    obtain ⟨hstarted, hfinished⟩ := w.logs_of_refused entry depth line hstory he
    rw [hcut]
    refine ⟨rfl, ?_, ⟨e, _, hevents, he, rfl⟩, ?_, ?_⟩
    · have htake : r.written.take (writes fs).length = writes fs := by
        rw [hwritten, hstory, writes_append, List.take_left]
      rw [htake]
      rfl
    · exact List.mem_filterMap.mpr ⟨_, hstarted, rfl⟩
    · intro m lines sinks hmem
      obtain ⟨f, hf, hlog⟩ := List.mem_filterMap.mp hmem
      cases f with
      | logged log =>
        obtain rfl := Option.some.inj hlog
        exact hfinished m lines sinks hf
      | header => cases hlog
      | shown l m => cases hlog

/-- The writer takes the header and two lines; the third line is refused after a report on the
second one. -/
theorem third_line_refused :
    let start : Method := { name := "main", owner := "App" }
    let first : Method := { name := "first", owner := "App" }
    let second : Method := { name := "second", owner := "App" }
    let calls : List Call := [{ caller := start, callee := first, line := some 1 },
      { caller := start, callee := second, line := some 2 }]
    let w : Walk := ⟨.ofCalls calls, { depthBound := some 1 }, .byAlias⟩
    let r := w.run none start 0 none
    let cut := w.run (some 3) start 0 none
    ∃ s, r.outcome = .ok s ∧ 3 < 1 + s.lines ∧ cut.outcome = .error .writerFull ∧
      cut.text = "Call tree\nmain() App linenumber=-1\n  first() App linenumber=1\n" ∧
      (∃ e rest, r.events = cut.events ++ e :: rest ∧ e.isWrite = true) ∧
      cut.logs = [.started start 2, .depthLimit first 1] := by
  intro start first second calls w r cut
  have hwritten : r.written.length = 4 := by decide +kernel +revert
  have htake : "".intercalate (r.written.take 3) =
      "Call tree\nmain() App linenumber=-1\n  first() App linenumber=1\n" := by
    decide +kernel +revert
  have hlogs : cut.logs = [.started start 2, .depthLimit first 1] := by decide +kernel +revert
  obtain ⟨s, houtcome, hlength, -, hcut⟩ := run_stops_at_refused_write w start 0 none 3
  have hlines : 3 < 1 + s.lines := by
    rw [← hlength]
    exact Nat.lt_of_lt_of_eq (Nat.lt_succ_self 3) hwritten.symm
  obtain ⟨hfull, htext, ⟨e, rest, hevents, he, -⟩, -, -⟩ := hcut hlines
  exact ⟨s, houtcome, hlines, hfull, htext.trans htake, ⟨e, rest, hevents, he⟩, hlogs⟩

end CallTrace.Walk
