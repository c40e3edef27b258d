import CallTrace.Proofs.Graph.Index
import CallTrace.Proofs.Walk.Arrivals
import Mathlib.Data.List.Dedup

/-!
# The states of a walk

A step gives up the topmost frame, takes one of its picks, or takes a pick and opens a frame for
the method called. From these three moves follows what holds of every state that a walk reaches:
how deep the frames are, which methods are closed, and which lines a step can show.
-/

namespace CallTrace.Walk

/-- What a step does to the frames and to the closed methods, and the events that it has. -/
inductive Moves (w : Walk) : State → List Event → State → Prop
  | pop (m : Method) (d : Nat) (fs : List Frame) (closed : List Method) :
      Moves w ⟨⟨m, d, []⟩ :: fs, closed⟩ [] ⟨fs, w.release m closed⟩
  | pass (m : Method) (d : Nat) (p : Pick) (ps : List Pick) (fs : List Frame)
      (closed : List Method) :
      ((w.glance m d p).opens = true → ¬ w.Admits closed p.call.callee (d + 1)) →
      Moves w ⟨⟨m, d, p :: ps⟩ :: fs, closed⟩
        ((w.glance m d p).events ++
          if (w.glance m d p).opens then w.refusal closed p.call.callee (d + 1) else [])
        ⟨⟨m, d, ps⟩ :: fs, closed⟩
  | descend (m : Method) (d : Nat) (p : Pick) (ps : List Pick) (fs : List Frame)
      (closed : List Method) :
      (w.glance m d p).opens = true → w.Admits closed p.call.callee (d + 1) →
      Moves w ⟨⟨m, d, p :: ps⟩ :: fs, closed⟩ (w.glance m d p).events
        ⟨⟨p.call.callee, d + 1, w.offers p.call.callee⟩ :: ⟨m, d, ps⟩ :: fs,
          p.call.callee :: closed⟩

section

variable {w : Walk} {s t : State} {es : List Event}

theorem moves_of_step (h : w.step s = some (es, t)) : w.Moves s es t := by
  obtain ⟨stack, closed⟩ := s
  rcases stack with _ | ⟨⟨m, d, _ | ⟨p, ps⟩⟩, fs⟩
  · cases h
  · cases h
    exact .pop m d fs closed
  · rw [step_cons] at h
    by_cases hopens : (w.glance m d p).opens = true
    · rw [if_neg (ne_false_of_eq_true hopens)] at h
      by_cases hadm : w.Admits closed p.call.callee (d + 1)
      · rw [enter_of_admits hadm, List.append_nil] at h
        cases h
        exact .descend m d p ps fs closed hopens hadm
      · rw [enter_of_not_admits hadm] at h
        cases h
        have hpass := Moves.pass m d p ps fs closed fun _ => hadm
        rwa [if_pos hopens] at hpass
    · rw [if_pos (eq_false_of_ne_true hopens)] at h
      cases h
      have hpass := Moves.pass m d p ps fs closed fun h => absurd h hopens
      rwa [if_neg hopens, List.append_nil] at hpass

theorem exists_arrival_of_glance {m : Method} {d : Nat} {p : Pick} {l : Trace.Line × Method}
    (hl : l ∈ (w.glance m d p).events.filterMap Event.shown?) :
    ∃ a, w.Shows a ∧ l = w.lineAt (d + 1) a := by
  rw [shown_glance_ofPick] at hl
  split at hl
  · next h => exact ⟨_, h.2, List.mem_singleton.mp hl⟩
  · exact absurd hl List.not_mem_nil

/-- A line of a step is the line of an arrival one level below a method on the stack. -/
theorem exists_arrival_of_step (h : w.step s = some (es, t)) {l : Trace.Line × Method}
    (hl : l ∈ es.filterMap Event.shown?) :
    ∃ f ∈ s.stack, ∃ a, w.Shows a ∧ l = w.lineAt (f.depth + 1) a := by
  cases moves_of_step h with
  | pop m d fs closed => exact absurd hl List.not_mem_nil
  | pass m d p ps fs closed hpass =>
    refine ⟨_, List.mem_cons_self, exists_arrival_of_glance (m := m) (p := p) ?_⟩
    rwa [List.filterMap_append, shown_refusal_if, List.append_nil] at hl
  | descend m d p ps fs closed hopens hadm =>
    exact ⟨_, List.mem_cons_self, exists_arrival_of_glance hl⟩

/-- What every move keeps holds of all states reached. -/
theorem Reaches.keeps {P : State → Prop} (hP : ∀ {s es t}, w.Moves s es t → P s → P t)
    {ms : List (Method × Nat)} (h : w.Reaches s es ms t) (hs : P s) : P t := by
  induction h with
  | refl => exact hs
  | head hstep _ ih => exact ih (hP (moves_of_step hstep) hs)

end

/-- The frames stand at the depths from `depth` on, and none of them at the depth bound. If
methods stay closed on the path only, the closed methods are those of the frames. -/
structure Layered (w : Walk) (depth : Nat) (s : State) : Prop where
  depths : s.stack.reverse.map Frame.depth = List.range' depth s.stack.length
  bounded : ∀ f ∈ s.stack, ¬ w.BoundReached f.depth
  closed_eq : w.policy.scope = .path → s.expanded = s.methods

namespace Layered

variable {w : Walk} {depth : Nat}

theorem start : w.Layered depth .start := by
  constructor <;> simp [State.start, State.methods]

theorem first {m : Method} (h : ¬ w.BoundReached depth) :
    w.Layered depth ⟨[⟨m, depth, w.offers m⟩], [m]⟩ := by
  constructor <;> simp [State.methods, h]

/-- Every frame stands one deeper than the frame below it. -/
theorem depths_cons_iff {f : Frame} {fs : List Frame} :
    (f :: fs).reverse.map Frame.depth = List.range' depth (f :: fs).length ↔
      fs.reverse.map Frame.depth = List.range' depth fs.length ∧ f.depth = depth + fs.length := by
  rw [List.reverse_cons, List.map_append, List.length_cons, List.range'_concat, Nat.one_mul]
  constructor
  · intro h
    obtain ⟨hfs, hf⟩ := List.append_inj' h rfl
    exact ⟨hfs, List.singleton_inj.mp hf⟩
  · rintro ⟨hfs, hf⟩
    rw [hfs, List.map_singleton, hf]

theorem move {s t : State} {es : List Event} (hm : w.Moves s es t) (h : w.Layered depth s) :
    w.Layered depth t := by
  cases hm with
  | pop m d fs closed =>
    refine ⟨(depths_cons_iff.mp h.depths).1, (List.forall_mem_cons.mp h.bounded).2, ?_⟩
    intro hscope
    have hclosed : closed = m :: fs.map Frame.method := h.closed_eq hscope
    simp [release, hscope, hclosed, State.methods]
  | pass m d p ps fs closed hpass =>
    obtain ⟨hfs, hd⟩ := depths_cons_iff.mp h.depths
    obtain ⟨hbound, hbounds⟩ := List.forall_mem_cons.mp h.bounded
    exact ⟨depths_cons_iff.mpr ⟨hfs, hd⟩, List.forall_mem_cons.mpr ⟨hbound, hbounds⟩, h.closed_eq⟩
  | descend m d p ps fs closed hopens hadm =>
    obtain ⟨hfs, hd⟩ := depths_cons_iff.mp h.depths
    obtain ⟨hbound, hbounds⟩ := List.forall_mem_cons.mp h.bounded
    refine ⟨?_, List.forall_mem_cons.mpr ⟨hadm.2, List.forall_mem_cons.mpr ⟨hbound, hbounds⟩⟩, ?_⟩
    · apply depths_cons_iff.mpr
      exact ⟨depths_cons_iff.mpr ⟨hfs, hd⟩, congrArg (· + 1) hd⟩
    · intro hscope
      exact congrArg (p.call.callee :: ·) (h.closed_eq hscope)

end Layered

section

variable {w : Walk} {depth : Nat} {s t : State} {es : List Event} {ms : List (Method × Nat)}

theorem exists_arrival_of_reaches (h : w.Reaches s es ms t) (hs : w.Layered depth s)
    {l : Trace.Line × Method} (hl : l ∈ es.filterMap Event.shown?) :
    ∃ a d, w.Shows a ∧ l = w.lineAt d a ∧ ∀ bound ∈ w.policy.depthBound, d ≤ bound := by
  induction h with
  | refl => exact absurd hl List.not_mem_nil
  | head hstep _ ih =>
    rw [List.filterMap_append] at hl
    rcases List.mem_append.mp hl with hl | hl
    · obtain ⟨f, hf, a, hshows, hline⟩ := exists_arrival_of_step hstep hl
      refine ⟨a, f.depth + 1, hshows, hline, ?_⟩
      intro bound hbound
      apply Nat.succ_le_of_lt
      apply Nat.lt_of_not_le
      intro hle
      exact hs.bounded f hf ⟨bound, hbound, hle⟩
    · exact ih (hs.move (moves_of_step hstep)) hl

/-- If methods stay closed for the whole walk, a move closes what it opens and nothing else. -/
theorem expanded_of_move (hscope : w.policy.scope = .global) (hm : w.Moves s es t) :
    t.expanded = ((openedFrame s t).map Prod.fst).reverse ++ s.expanded := by
  cases hm with
  | pop m d fs closed =>
    have hlen : ¬ fs.length + 1 < fs.length := Nat.not_lt.mpr (Nat.le_succ _)
    simp [openedFrame, release, hscope, hlen]
  | pass m d p ps fs closed hpass => simp [openedFrame]
  | descend m d p ps fs closed hopens hadm => simp [openedFrame]

theorem nodup_expanded_of_move (hscope : w.policy.scope = .global) (hm : w.Moves s es t)
    (h : s.expanded.Nodup) : t.expanded.Nodup := by
  cases hm with
  | pop m d fs closed => simpa [release, hscope] using h
  | pass m d p ps fs closed hpass => exact h
  | descend m d p ps fs closed hopens hadm => exact List.nodup_cons.mpr ⟨hadm.1, h⟩

theorem Reaches.expanded_eq (hscope : w.policy.scope = .global) (h : w.Reaches s es ms t) :
    t.expanded = (ms.map Prod.fst).reverse ++ s.expanded := by
  induction h with
  | refl => rfl
  | head hstep _ ih =>
    rw [ih, expanded_of_move hscope (moves_of_step hstep), List.map_append, List.reverse_append,
      List.append_assoc]

end

section

variable (w : Walk) (entry : Method) (depth : Nat) (line : Option Int)

theorem layered_opening : w.Layered depth (w.opening entry depth line).2 := by
  rw [opening_eq]
  by_cases h : w.Expands entry depth line
  · rw [if_pos h]
    exact Layered.first h.2.2
  · rw [if_neg h]
    exact Layered.start

/-- Before its first step a walk has closed the method that it has opened, if any. -/
theorem expanded_opening :
    (w.opening entry depth line).2.expanded =
      ((openedFrame .start (w.opening entry depth line).2).map Prod.fst).reverse := by
  rw [opening_eq]
  by_cases h : w.Expands entry depth line <;> simp [h, openedFrame, State.start]

theorem nodup_opening : (w.opening entry depth line).2.expanded.Nodup := by
  rw [opening_eq]
  by_cases h : w.Expands entry depth line <;> simp [h, State.start]

end

/-- If methods stay closed for the whole walk, no frame is opened twice for a method. -/
theorem nodup_openedFrames {w : Walk} {entry : Method} {depth : Nat} {line : Option Int}
    {t : State} {es : List Event} {ms : List (Method × Nat)} (hscope : w.policy.scope = .global)
    (h : w.Reaches (w.opening entry depth line).2 es ms t) :
    ((openedFrame .start (w.opening entry depth line).2 ++ ms).map Prod.fst).Nodup := by
  have hall := h.keeps (nodup_expanded_of_move hscope) (w.nodup_opening entry depth line)
  rw [h.expanded_eq hscope, expanded_opening, ← List.reverse_append, ← List.map_append] at hall
  exact List.nodup_reverse.mp hall

/-- Every line of a run is the line of an arrival, and none is deeper than the depth bound but
that of an entry that begins there. -/
theorem exists_arrival_of_mem_shown {w : Walk} {entry : Method} {depth : Nat} {line : Option Int}
    {l : Trace.Line × Method} (hl : l ∈ (w.run none entry depth line).shown) :
    ∃ a d, w.Shows a ∧ l = w.lineAt d a ∧ ∀ bound ∈ w.policy.depthBound, d ≤ max depth bound := by
  rw [shown_run_unlimited, story, List.filterMap_append, shown_opening] at hl
  rcases List.mem_append.mp hl with hl | hl
  · split at hl
    · next hshows =>
      exact ⟨_, depth, hshows, List.mem_singleton.mp hl, fun _ _ => Nat.le_max_left ..⟩
    · exact absurd hl List.not_mem_nil
  · obtain ⟨_, _, -, -, hreach⟩ := w.reaches_unfolding entry depth line
    obtain ⟨a, d, hshows, hline, hd⟩ :=
      exists_arrival_of_reaches hreach (w.layered_opening entry depth line) hl
    exact ⟨a, d, hshows, hline, fun bound hb => Nat.le_trans (hd bound hb) (Nat.le_max_right ..)⟩

/-- The index finds each of its calls under some method. -/
theorem exists_callsFrom_of_mem_indexedCalls (w : Walk) {c : Call} (hc : c ∈ w.indexedCalls) :
    ∃ m, c ∈ w.graph.callsFrom m := by
  obtain ⟨cs, hcs, hc⟩ := List.mem_flatten.mp hc
  obtain ⟨m, hm⟩ := Table.exists_get?_of_mem_values hcs
  refine ⟨m, ?_⟩
  rw [CallGraph.callsFrom, hm]
  exact hc

/-- No walk goes on for ever: each step takes away from the weight of the state. -/
theorem acc_step {w : Walk} {entry : Method} {s : State} (h : w.Inv entry s) :
    Acc (fun t s => ∃ es, w.step s = some (es, t)) s := by
  induction hn : weight w.indexedCalls.length (w.targets entry).length s.stack
    using Nat.strongRecOn generalizing s with
  | ind n ih =>
    constructor
    rintro t ⟨es, hstep⟩
    subst hn
    exact ih _ (weight_step_lt h hstep) (h.step hstep) rfl

theorem stack_eq_nil_of_step_eq_none {w : Walk} {s : State} (h : w.step s = none) :
    s.stack = [] := by
  obtain ⟨stack, closed⟩ := s
  rcases stack with _ | ⟨⟨m, d, _ | ⟨p, ps⟩⟩, fs⟩
  · rfl
  · cases h
  · rw [step_cons] at h
    cases h

/-- The methods that a walk has on its stack are distinct and each stands one deeper than the one
below it, so the stack stays small, and the walk comes to an end. -/
theorem walk_bounded_and_ends (w : Walk) (entry : Method) (depth : Nat) (line : Option Int) :
    let start := (w.opening entry depth line).2
    (∀ es ms s, w.Reaches start es ms s →
      s.methods.Nodup ∧
      (∀ m ∈ s.methods, m = entry ∨ ∃ n, ∃ c ∈ w.graph.callsFrom n, c.callee = m) ∧
      s.stack.reverse.map Frame.depth = List.range' depth s.stack.length ∧
      (∀ m ∈ s.methods, m ∈ s.expanded) ∧
      (w.policy.scope = .path → ∀ m, m ∈ s.expanded ↔ m ∈ s.methods) ∧
      (w.policy.scope = .global → ((openedFrame .start start ++ ms).map Prod.fst).Nodup) ∧
      s.stack.length ≤ (w.targets entry).dedup.length) ∧
    Acc (fun t s => ∃ es, w.step s = some (es, t)) start ∧
    (∃ es ms t, w.Reaches start es ms t ∧ w.step t = none) ∧
    (∀ es ms t, w.Reaches start es ms t → w.step t = none →
      t.stack = [] ∧ (w.policy.scope = .path → t.expanded = [])) ∧
    ∀ l ∈ (w.run none entry depth line).lines, ∀ bound ∈ w.policy.depthBound,
      l.depth ≤ max depth bound := by
  intro start
  refine ⟨?_, acc_step (w.inv_opening entry depth line), ?_, ?_, ?_⟩
  · intro es ms s hreach
    have hinv : w.Inv entry s := hreach.inv (w.inv_opening entry depth line)
    have hlayered := hreach.keeps Layered.move (w.layered_opening entry depth line)
    refine ⟨hinv.nodup, ?_, hlayered.depths, hinv.closed, ?_, ?_, ?_⟩
    · intro m hm
      rcases List.mem_cons.mp (hinv.known m hm) with rfl | hm
      · exact .inl rfl
      · obtain ⟨c, hc, rfl⟩ := List.mem_map.mp hm
        obtain ⟨n, hn⟩ := w.exists_callsFrom_of_mem_indexedCalls hc
        exact .inr ⟨n, c, hn, rfl⟩
    · intro hscope m
      rw [hlayered.closed_eq hscope]
    · intro hscope
      exact nodup_openedFrames hscope hreach
    · have hsub : s.methods ⊆ (w.targets entry).dedup :=
        fun m hm => List.mem_dedup.mpr (hinv.known m hm)
      simpa [State.methods] using hinv.nodup.length_le_of_subset hsub
  · obtain ⟨ms, t, hend, -, hreach⟩ := w.reaches_unfolding entry depth line
    exact ⟨_, ms, t, hreach, hend⟩
  · intro es ms t hreach hend
    have hlayered := hreach.keeps Layered.move (w.layered_opening entry depth line)
    have hstack := stack_eq_nil_of_step_eq_none hend
    refine ⟨hstack, ?_⟩
    intro hscope
    rw [hlayered.closed_eq hscope, State.methods, hstack]
    rfl
  · intro l hl bound hbound
    obtain ⟨shown, hshown, rfl⟩ := List.mem_map.mp hl
    obtain ⟨a, d, -, hline, hd⟩ := exists_arrival_of_mem_shown hshown
    rw [hline]
    exact hd bound hbound

end CallTrace.Walk
