import CallTrace.Proofs.Walk.RunUnfolding
import Mathlib.Data.List.Basic

/-!
# The events of a run

A run reports its start, writes the header, and reports its end. In between it shows lines and
reports what it decides.
-/

namespace CallTrace.Walk

/-- An event between the header of a run and the report of its end. -/
inductive Event.Inner : Event → Prop
  | shown (line : Trace.Line) (method : Method) : Inner (.shown line method)
  | aliasFallback (site : CallSite) (merged owner : String) :
      Inner (.logged (.aliasFallback site merged owner))
  | depthLimit (method : Method) (depth : Nat) : Inner (.logged (.depthLimit method depth))
  | callMerged (site : CallSite) (target : Method) : Inner (.logged (.callMerged site target))

section

variable {w : Walk} {m : Method} {d : Nat}

theorem inner_of_mem_fallback {line : Int} {callerClass : Option String} :
    ∀ e ∈ w.fallback m line callerClass, e.Inner := by
  intro e he
  cases callerClass with
  | none => cases he
  | some cls =>
    simp only [fallback] at he
    split at he
    · cases he
    · obtain rfl := List.mem_singleton.mp he
      exact .aliasFallback ..

theorem inner_of_mem_visit {line : Int} {callerClass : Option String} :
    ∀ e ∈ (w.visit m d line callerClass).events, e.Inner := by
  intro e he
  have hshown (isSink : Bool) (he : e ∈ w.fallback m line callerClass ++
      [.shown (shownLine m (w.className m line callerClass) d line isSink) m]) : e.Inner := by
    rcases List.mem_append.mp he with he | he
    · exact inner_of_mem_fallback e he
    · obtain rfl := List.mem_singleton.mp he
      exact .shown ..
  simp only [visit] at he
  split at he
  · cases he
  · split at he
    · exact hshown false he
    · exact hshown true he
    · exact inner_of_mem_fallback e he

theorem inner_of_mem_refusal {closed : List Method} : ∀ e ∈ w.refusal closed m d, e.Inner := by
  intro e he
  simp only [refusal] at he
  split at he
  · obtain rfl := List.mem_singleton.mp he
    exact .depthLimit ..
  · cases he

theorem inner_of_mem_glance {p : Pick} : ∀ e ∈ (w.glance m d p).events, e.Inner := by
  intro e he
  cases p with
  | merge c =>
    obtain rfl := List.mem_singleton.mp he
    exact .callMerged ..
  | follow c =>
    simp only [glance] at he
    split at he
    · cases he
    · exact inner_of_mem_visit e he

theorem inner_of_mem_unfoldPicks (closed : List Method) (ps : List Pick) :
    ∀ e ∈ (w.unfoldPicks closed m d ps).events, e.Inner := by
  fun_induction unfoldPicks w closed m d ps with
  | case1 =>
    intro e he
    cases he
  | case2 closed m d k ps t hopens ih =>
    exact List.forall_mem_append.mpr
      ⟨List.forall_mem_append.mpr ⟨inner_of_mem_glance, List.forall_mem_nil _⟩, ih⟩
  | case3 closed m d k ps t n hopens hadm below ihb _ ih =>
    exact List.forall_mem_append.mpr
      ⟨List.forall_mem_append.mpr ⟨inner_of_mem_glance, ihb⟩, ih⟩
  | case4 closed m d k ps t n hopens hadm ih =>
    exact List.forall_mem_append.mpr
      ⟨List.forall_mem_append.mpr ⟨inner_of_mem_glance, inner_of_mem_refusal⟩, ih⟩

end

/-- Inner events write the lines that they show and nothing else. -/
theorem written_of_inner {es : List Event} (h : ∀ e ∈ es, e.Inner) :
    es.filterMap Event.written? =
      (es.filterMap Event.shown?).map fun l => l.1.text ++ "\n" := by
  rw [List.map_filterMap]
  apply List.filterMap_congr
  intro e he
  cases h e he <;> rfl

section

variable (w : Walk) (entry : Method) (depth : Nat) (line : Option Int)

/-- After its start and its header a run has inner events only, until it reports its end. -/
theorem exists_inner_story :
    ∃ es, (∀ e ∈ es, e.Inner) ∧ w.story entry depth line =
      .logged (.started entry w.graph.calls.length) :: .header :: es := by
  have hrefused : ∀ e ∈ (if (w.visit entry depth (line.getD unknownLine) none).opens then
      w.refusal [] entry depth else []), e.Inner := by
    split
    · exact inner_of_mem_refusal
    · exact List.forall_mem_nil _
  have hunfolding : ∀ e ∈ (w.unfolding entry depth line).events, e.Inner := by
    unfold unfolding
    split
    · exact inner_of_mem_unfoldPicks _ _
    · exact List.forall_mem_nil _
  refine ⟨(w.visit entry depth (line.getD unknownLine) none).events ++
    ((if (w.visit entry depth (line.getD unknownLine) none).opens then
      w.refusal [] entry depth else []) ++ (w.unfolding entry depth line).events), ?_, ?_⟩
  · exact List.forall_mem_append.mpr
      ⟨inner_of_mem_visit, List.forall_mem_append.mpr ⟨hrefused, hunfolding⟩⟩
  · simp [story, opening_eq]

/-- A run writes its header and the lines that it shows. -/
theorem written_story :
    (w.story entry depth line).filterMap Event.written? = (Trace.header ++ "\n") ::
      ((w.story entry depth line).filterMap Event.shown?).map fun l => l.1.text ++ "\n" := by
  obtain ⟨es, hes, hstory⟩ := w.exists_inner_story entry depth line
  simp only [hstory, List.filterMap_cons, Event.written?, Event.shown?, written_of_inner hes]

theorem written_run :
    (w.run none entry depth line).written =
      (Trace.header ++ "\n") :: (w.run none entry depth line).lines.map fun l => l.text ++ "\n" := by
  have hwritten : (w.run none entry depth line).written =
      (w.story entry depth line).filterMap Event.written? := by
    simp [Run.written, run_unlimited, finished, Event.written?]
  rw [hwritten, written_story, Run.lines, shown_run_unlimited, List.map_map]
  rfl

end

end CallTrace.Walk
