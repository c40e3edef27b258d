import CallTrace.Proofs.Walk.Unfolding

/-!
# Runs and their unfoldings

Step by step a walk does what its unfolding says: a run has the events of the unfolding in order,
and the frames that it opens are the expansions in the order in which they begin.
-/

namespace CallTrace.Walk

theorem step_cons (w : Walk) (m : Method) (d : Nat) (p : Pick) (ps : List Pick) (fs : List Frame)
    (x : List Method) :
    w.step ⟨⟨m, d, p :: ps⟩ :: fs, x⟩ = some (
      if (w.glance m d p).opens = false then ((w.glance m d p).events, ⟨⟨m, d, ps⟩ :: fs, x⟩)
      else
        ((w.glance m d p).events ++ (w.enter p.call.callee (d + 1) ⟨⟨m, d, ps⟩ :: fs, x⟩).1,
          (w.enter p.call.callee (d + 1) ⟨⟨m, d, ps⟩ :: fs, x⟩).2)) := by
  cases p with
  | merge c => rfl
  | follow c =>
    by_cases hself : c.IsSelfCall
    · have hg : w.glance m d (.follow c) = ⟨[], false⟩ := if_pos hself
      simp [step, follow, hself, hg]
    · have hg : w.glance m d (.follow c) =
        w.visit c.callee (d + 1) c.lineNumber (some m.owner) := if_neg hself
      cases hopens : (w.visit c.callee (d + 1) c.lineNumber (some m.owner)).opens <;>
        simp [step, follow, hself, hg, hopens, Pick.call]

/-- The method and the depth of the frame that a step from `s` to `t` opens. -/
def openedFrame (s t : State) : List (Method × Nat) :=
  if s.stack.length < t.stack.length then
    (t.stack.head?.map fun f => (f.method, f.depth)).toList
  else []

/-- `w.Reaches s es ms t`: the walk goes from `s` to `t` in steps with the events `es` that open
the frames `ms`. -/
inductive Reaches (w : Walk) : State → List Event → List (Method × Nat) → State → Prop
  | refl (s : State) : Reaches w s [] [] s
  | head {s t u : State} {es fs : List Event} {ms : List (Method × Nat)} :
      w.step s = some (es, t) → Reaches w t fs ms u →
        Reaches w s (es ++ fs) (openedFrame s t ++ ms) u

theorem Reaches.trans {w : Walk} {s t u : State} {es fs : List Event}
    {ms ns : List (Method × Nat)} (h : w.Reaches s es ms t) (h' : w.Reaches t fs ns u) :
    w.Reaches s (es ++ fs) (ms ++ ns) u := by
  induction h with
  | refl => exact h'
  | head hs _ ih =>
    rw [List.append_assoc, List.append_assoc]
    exact .head hs (ih h')

theorem Reaches.single {w : Walk} {s t : State} {es : List Event} (h : w.step s = some (es, t)) :
    w.Reaches s es (openedFrame s t) t := by
  have := Reaches.head h (.refl t)
  rwa [List.append_nil, List.append_nil] at this

/-- A step that opens no frame. -/
theorem Reaches.quiet {w : Walk} {s t u : State} {es fs : List Event} {ms : List (Method × Nat)}
    (hs : w.step s = some (es, t)) (hlen : t.stack.length ≤ s.stack.length)
    (h : w.Reaches t fs ms u) : w.Reaches s (es ++ fs) ms u := by
  have hnone : openedFrame s t = [] := if_neg (Nat.not_lt.mpr hlen)
  have hall := Reaches.head hs h
  rwa [hnone] at hall

def Expansion.frame (x : Expansion) : Method × Nat := (x.method, x.depth)

/-- The frame of `m` takes the picks `ps`, everything above it included, and has `qs` left. -/
theorem reaches_unfoldPicks (w : Walk) (closed : List Method) (m : Method) (d : Nat)
    (ps qs : List Pick) (fs : List Frame) :
    w.Reaches ⟨⟨m, d, ps ++ qs⟩ :: fs, closed⟩ (w.unfoldPicks closed m d ps).events
      (((w.unfoldPicks closed m d ps).expansions d).map Expansion.frame)
      ⟨⟨m, d, qs⟩ :: fs, w.closedAfter (w.unfoldPicks closed m d ps).opened closed⟩ := by
  fun_induction unfoldPicks w closed m d ps generalizing qs fs with
  | case1 closed m d =>
    rw [Unfolding.opened, closedAfter_nil]
    exact .refl _
  | case2 closed m d p ps t hopens ih =>
    have hstep : w.step ⟨⟨m, d, p :: (ps ++ qs)⟩ :: fs, closed⟩ =
        some (t.visit.events, ⟨⟨m, d, ps ++ qs⟩ :: fs, closed⟩) := by
      rw [step_cons, if_pos hopens]
    rw [Unfolding.events, List.append_nil]
    exact .quiet hstep (Nat.le_refl _) (ih qs fs)
  | case3 closed m d p ps t n hopens hadm below ihb _ ih =>
    have hstep : w.step ⟨⟨m, d, p :: (ps ++ qs)⟩ :: fs, closed⟩ = some (t.visit.events,
        ⟨⟨n, d + 1, w.offers n⟩ :: ⟨m, d, ps ++ qs⟩ :: fs, n :: closed⟩) := by
      rw [step_cons, if_neg hopens, enter_of_admits hadm, List.append_nil]
    have hopened : openedFrame ⟨⟨m, d, p :: (ps ++ qs)⟩ :: fs, closed⟩
        ⟨⟨n, d + 1, w.offers n⟩ :: ⟨m, d, ps ++ qs⟩ :: fs, n :: closed⟩ = [(n, d + 1)] :=
      if_pos (Nat.lt_succ_self _)
    have hbelow := ihb [] (⟨m, d, ps ++ qs⟩ :: fs)
    rw [List.append_nil] at hbelow
    have hpop : w.step ⟨⟨n, d + 1, []⟩ :: ⟨m, d, ps ++ qs⟩ :: fs,
        w.closedAfter below.opened (n :: closed)⟩ = some ([], ⟨⟨m, d, ps ++ qs⟩ :: fs,
          w.closedAfter (below.opened ++ [n]) closed⟩) := by
      rw [← release_closedAfter]
      rfl
    have hall := Reaches.head hstep (hbelow.trans (.quiet hpop (Nat.le_succ _) (ih qs fs)))
    rw [hopened] at hall
    rw [Unfolding.events, Unfolding.opened, w.closedAfter_append _ (below.opened ++ [t.call.callee]),
      Unfolding.expansions, List.map_cons, List.map_append, List.append_assoc]
    exact hall
  | case4 closed m d p ps t n hopens hadm ih =>
    have hstep : w.step ⟨⟨m, d, p :: (ps ++ qs)⟩ :: fs, closed⟩ = some (t.visit.events ++
        w.refusal closed n (d + 1), ⟨⟨m, d, ps ++ qs⟩ :: fs, closed⟩) := by
      rw [step_cons, if_neg hopens, enter_of_not_admits hadm]
    rw [Unfolding.events]
    exact .quiet hstep (Nat.le_refl _) (ih qs fs)

theorem Journal.addAll_append (j : Journal) (es fs : List Event) :
    j.addAll (es ++ fs) = j.addAll es >>= fun k => k.addAll fs := by
  induction es generalizing j with
  | nil => rfl
  | cons e es ih =>
    simp only [List.cons_append, addAll]
    cases j.add e with
    | ok k => exact ih k
    | error k => rfl

theorem Reaches.inv {w : Walk} {entry : Method} {s t : State} {es : List Event}
    {ms : List (Method × Nat)} (h : w.Reaches s es ms t) (hi : w.Inv entry s) : w.Inv entry t := by
  induction h with
  | refl => exact hi
  | head hs _ ih => exact ih (hi.step hs)

theorem steps_of_step {w : Walk} {entry : Method} {s t : State} {es : List Event}
    (hi : w.Inv entry s) (hs : w.step s = some (es, t)) (j : Journal) :
    w.steps entry s hi j = j.addAll es >>= w.steps entry t (hi.step hs) := by
  rw [steps]
  split
  · next hn =>
    rw [hn] at hs
    cases hs
  · next es' t' hs' =>
    rw [hs'] at hs
    cases hs
    cases j.addAll es <;> rfl

theorem steps_of_none {w : Walk} {entry : Method} {s : State} (hi : w.Inv entry s)
    (hs : w.step s = none) (j : Journal) : w.steps entry s hi j = .ok j := by
  rw [steps]
  split
  · rfl
  · next hs' =>
    rw [hs'] at hs
    cases hs

theorem steps_of_reaches {w : Walk} {entry : Method} {s t : State} {es : List Event}
    {ms : List (Method × Nat)} (h : w.Reaches s es ms t) (hi : w.Inv entry s) (j : Journal) :
    w.steps entry s hi j = j.addAll es >>= w.steps entry t (h.inv hi) := by
  induction h generalizing j with
  | refl => rfl
  | head hs _ ih =>
    rw [steps_of_step hi hs, Journal.addAll_append, bind_assoc]
    exact congrArg _ (funext fun k => ih (hi.step hs) k)

/-- The entry passes the filters and the depth bound, so its calls are followed. -/
def Expands (w : Walk) (entry : Method) (depth : Nat) (line : Option Int) : Prop :=
  (w.visit entry depth (line.getD unknownLine) none).opens = true ∧ w.Admits [] entry depth

instance (w : Walk) (entry : Method) (depth : Nat) (line : Option Int) :
    Decidable (w.Expands entry depth line) :=
  inferInstanceAs (Decidable (_ ∧ _))

/-- The turns of a run, those of the entry at the top. -/
def unfolding (w : Walk) (entry : Method) (depth : Nat) (line : Option Int) : Unfolding :=
  if w.Expands entry depth line then w.unfoldPicks [entry] entry depth (w.offers entry) else .done

/-- All expansions of a run in the order in which they begin. -/
def expansions (w : Walk) (entry : Method) (depth : Nat) (line : Option Int) : List Expansion :=
  if w.Expands entry depth line then
    ⟨entry, depth, (w.unfolding entry depth line).turns⟩ ::
      (w.unfolding entry depth line).expansions depth
  else []

theorem opening_eq (w : Walk) (entry : Method) (depth : Nat) (line : Option Int) :
    w.opening entry depth line =
      ([.logged (.started entry w.graph.calls.length), .header] ++
          (w.visit entry depth (line.getD unknownLine) none).events ++
          (if (w.visit entry depth (line.getD unknownLine) none).opens then
            w.refusal [] entry depth else []),
        if w.Expands entry depth line then ⟨[⟨entry, depth, w.offers entry⟩], [entry]⟩
        else .start) := by
  by_cases hopens : (w.visit entry depth (line.getD unknownLine) none).opens = true
  · by_cases hadm : w.Admits [] entry depth
    · have henter : w.enter entry depth .start = ([], ⟨[⟨entry, depth, w.offers entry⟩], [entry]⟩) :=
        enter_of_admits hadm
      have hexp : w.Expands entry depth line := ⟨hopens, hadm⟩
      simp [opening, hopens, henter, hexp, refusal_of_admits hadm]
    · have henter : w.enter entry depth .start = (w.refusal [] entry depth, .start) :=
        enter_of_not_admits hadm
      have hexp : ¬ w.Expands entry depth line := fun h => hadm h.2
      simp [opening, hopens, henter, hexp]
  · have hexp : ¬ w.Expands entry depth line := fun h => hopens h.1
    simp [opening, hopens, hexp]

/-- A run opens a frame for each expansion and no others, in this order. -/
theorem reaches_unfolding (w : Walk) (entry : Method) (depth : Nat) (line : Option Int) :
    ∃ ms t, w.step t = none ∧
      openedFrame .start (w.opening entry depth line).2 ++ ms =
        (w.expansions entry depth line).map Expansion.frame ∧
      w.Reaches (w.opening entry depth line).2 (w.unfolding entry depth line).events ms t := by
  rw [opening_eq, expansions, unfolding]
  by_cases h : w.Expands entry depth line
  · have hmain := w.reaches_unfoldPicks [entry] entry depth (w.offers entry) [] []
    have hall := hmain.trans (.single rfl)
    rw [List.append_nil, List.append_nil] at hall
    rw [if_pos h, if_pos h, if_pos h]
    exact ⟨_, _, rfl, by simp [openedFrame, State.start, Expansion.frame], hall⟩
  · rw [if_neg h, if_neg h, if_neg h]
    exact ⟨[], .start, rfl, rfl, .refl _⟩

/-- Whatever the writer takes, a run offers it the events of its unfolding. -/
theorem journal_eq (w : Walk) (room : Option Nat) (entry : Method) (depth : Nat)
    (line : Option Int) :
    w.journal room entry depth line = (Journal.start room).addAll
      ((w.opening entry depth line).1 ++ (w.unfolding entry depth line).events) := by
  obtain ⟨_, t, ht, -, hr⟩ := w.reaches_unfolding entry depth line
  rw [journal, Journal.addAll_append]
  cases (Journal.start room).addAll (w.opening entry depth line).1 with
  | error j => rfl
  | ok j =>
    have hsteps := steps_of_reaches hr (w.inv_opening entry depth line) j
    have hend : w.steps entry t (hr.inv (w.inv_opening entry depth line)) = .ok :=
      funext (steps_of_none _ ht)
    rw [hend] at hsteps
    exact hsteps.trans (bind_pure _)

/-- The events of a run with an unlimited writer, the report of its end left out. -/
def story (w : Walk) (entry : Method) (depth : Nat) (line : Option Int) : List Event :=
  (w.opening entry depth line).1 ++ (w.unfolding entry depth line).events

theorem run_unlimited (w : Walk) (entry : Method) (depth : Nat) (line : Option Int) :
    w.run none entry depth line = ⟨w.story entry depth line ++
      [finished entry (.ofShown ((w.story entry depth line).filterMap Event.shown?))], true⟩ := by
  rw [run, journal_eq, Journal.start, Journal.addAll_of_unlimited]
  simp [Journal.events, story]

theorem shown_run_unlimited (w : Walk) (entry : Method) (depth : Nat) (line : Option Int) :
    (w.run none entry depth line).shown =
      (w.story entry depth line).filterMap Event.shown? := by
  rw [run_unlimited, Run.shown, List.filterMap_append]
  exact List.append_nil _

theorem outcome_run_unlimited (w : Walk) (entry : Method) (depth : Nat) (line : Option Int) :
    (w.run none entry depth line).outcome =
      .ok (.ofShown ((w.story entry depth line).filterMap Event.shown?)) := by
  rw [Run.outcome, Run.summary, shown_run_unlimited, run_unlimited]
  rfl

/-- With an unlimited writer a run has a summary of the lines that it has shown. -/
theorem outcome_run (w : Walk) (entry : Method) (depth : Nat) (line : Option Int) :
    (w.run none entry depth line).outcome = .ok (.ofShown (w.run none entry depth line).shown) := by
  rw [outcome_run_unlimited, shown_run_unlimited]

end CallTrace.Walk
