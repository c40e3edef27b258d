import CallTrace.Proofs.Graph.Index
import CallTrace.Proofs.Walk.Arrivals

/-!
# Expansions

What a run does with each method that it expands: one turn for each pick, whose events stand
together in the run.
-/

namespace CallTrace.Walk

/-- The turns of a method that is expanded at depth `d`. -/
def turnsAt (w : Walk) (m : Method) (d : Nat) : List Turn :=
  (w.offers m).map fun k => ⟨k, w.glance m d k⟩

theorem turns_unfoldPicks (w : Walk) (closed : List Method) (m : Method) (d : Nat)
    (ps : List Pick) :
    (w.unfoldPicks closed m d ps).turns = ps.map fun k => ⟨k, w.glance m d k⟩ := by
  fun_induction unfoldPicks w closed m d ps with
  | case1 => rfl
  | case2 closed m d k ps t hopens ih => rw [Unfolding.turns, ih, List.map_cons]
  | case3 closed m d k ps t n hopens hadm below _ _ ih => rw [Unfolding.turns, ih, List.map_cons]
  | case4 closed m d k ps t n hopens hadm ih => rw [Unfolding.turns, ih, List.map_cons]

namespace Expansion

/-- The turns are those of the method, and the walk came to the method through the filters. -/
structure Sound (w : Walk) (x : Expansion) : Prop where
  turns_eq : x.turns = w.turnsAt x.method x.depth
  arrival : ∃ a : Arrival, a.method = x.method ∧ w.Passes a

end Expansion

/-- The turns `pre`, `t` and `post` have their events in this order, those of `t` between `es`
and `fs`. -/
structure Placed (events : List Event) (pre : List Turn) (t : Turn) (post : List Turn)
    (es fs : List Event) : Prop where
  split : events = es ++ t.visit.events ++ fs
  earlier : (pre.flatMap fun s => s.visit.events).Sublist es
  later : (post.flatMap fun s => s.visit.events).Sublist fs

theorem Placed.within {events : List Event} {pre : List Turn} {t : Turn} {post : List Turn}
    {es fs : List Event} (h : Placed events pre t post es fs) (before after : List Event) :
    Placed (before ++ events ++ after) pre t post (before ++ es) (fs ++ after) where
  split := by
    rw [h.split]
    simp
  earlier := h.earlier.trans (List.sublist_append_right _ _)
  later := h.later.trans (List.sublist_append_left _ _)

namespace Unfolding

theorem sublist_events (u : Unfolding) :
    (u.turns.flatMap fun t => t.visit.events).Sublist u.events := by
  induction u with
  | done => exact .slnil
  | stay t refusal rest ih =>
    rw [turns, events, List.flatMap_cons]
    exact (List.sublist_append_left _ _).append ih
  | descend t below rest _ ih =>
    rw [turns, events, List.flatMap_cons]
    exact (List.sublist_append_left _ _).append ih

theorem exists_placed_cons {s t : Turn} {between : List Event} {rest : Unfolding}
    {pre post : List Turn} (h : s :: rest.turns = pre ++ t :: post)
    (ih : ∀ {pre}, rest.turns = pre ++ t :: post → ∃ es fs, Placed rest.events pre t post es fs) :
    ∃ es fs, Placed (s.visit.events ++ between ++ rest.events) pre t post es fs := by
  cases pre with
  | nil =>
    obtain ⟨rfl, rfl⟩ := List.cons.inj h
    refine ⟨[], between ++ rest.events, ?_, .slnil, ?_⟩
    · rw [List.nil_append, List.append_assoc]
    · exact rest.sublist_events.trans (List.sublist_append_right _ _)
  | cons first pre =>
    obtain ⟨rfl, hrest⟩ := List.cons.inj h
    obtain ⟨es, fs, hp⟩ := ih hrest
    refine ⟨s.visit.events ++ between ++ es, fs, ?_, ?_, hp.later⟩
    · rw [hp.split]
      simp
    · rw [List.flatMap_cons]
      exact (List.sublist_append_left _ _).append hp.earlier

/-- The events of a turn stand together, and turns do not change places. -/
theorem exists_placed {u : Unfolding} {pre post : List Turn} {t : Turn}
    (h : u.turns = pre ++ t :: post) : ∃ es fs, Placed u.events pre t post es fs := by
  induction u generalizing pre with
  | done => simp [turns] at h
  | stay s refusal rest ih => exact exists_placed_cons h ih
  | descend s below rest _ ih => exact exists_placed_cons h ih

theorem exists_placed_of_mem {u : Unfolding} {d : Nat} {x : Expansion} {pre post : List Turn}
    {t : Turn} (hx : x ∈ u.expansions d) (h : x.turns = pre ++ t :: post) :
    ∃ es fs, Placed u.events pre t post es fs := by
  induction u generalizing d with
  | done => exact absurd hx List.not_mem_nil
  | stay s refusal rest ih =>
    obtain ⟨es, fs, hp⟩ := ih hx
    have hall := hp.within (s.visit.events ++ refusal) []
    rw [List.append_nil] at hall
    exact ⟨_, _, hall⟩
  | descend s below rest ihb ih =>
    have hbelow : (∃ es fs, Placed below.events pre t post es fs) →
        ∃ es fs, Placed (descend s below rest).events pre t post es fs := by
      rintro ⟨es, fs, hp⟩
      exact ⟨_, _, hp.within s.visit.events rest.events⟩
    rcases List.mem_cons.mp hx with rfl | hx
    · exact hbelow (exists_placed h)
    · rcases List.mem_append.mp hx with hx | hx
      · exact hbelow (ihb hx)
      · obtain ⟨es, fs, hp⟩ := ih hx
        have hall := hp.within (s.visit.events ++ below.events) []
        rw [List.append_nil] at hall
        exact ⟨_, _, hall⟩

end Unfolding

section

variable {w : Walk} (hw : w.Indexed)

include hw

theorem Expansion.Sound.of_mem_turns {x : Expansion} (hx : x.Sound w) {t : Turn}
    (ht : t ∈ x.turns) :
    t.pick ∈ w.offers x.method ∧ t.call.caller = x.method ∧
      t.visit = w.glance x.method x.depth t.pick := by
  rw [hx.turns_eq] at ht
  obtain ⟨k, hk, rfl⟩ := List.mem_map.mp ht
  exact ⟨hk, hw _ k hk, rfl⟩

/-- A line of an expansion is the line of a callee at which the walk has arrived. -/
theorem Expansion.Sound.of_mem_shown {x : Expansion} (hx : x.Sound w) {t : Turn}
    (ht : t ∈ x.turns) {l : Trace.Line × Method} (hl : l ∈ t.shown) :
    Leads t.pick ∧ l = w.lineAt (x.depth + 1) (.ofCall t.call) := by
  obtain ⟨-, hcaller, hvisit⟩ := hx.of_mem_turns hw ht
  have hshown := shown_glance (w := w) hcaller x.depth
  rw [Turn.shown, hvisit, hshown] at hl
  split at hl
  · next hlead => exact ⟨hlead.1, List.mem_singleton.mp hl⟩
  · exact absurd hl List.not_mem_nil

theorem sound_of_mem_unfoldPicks {closed : List Method} {m : Method} {d : Nat} {ps : List Pick}
    {x : Expansion} (hps : ∀ k ∈ ps, k.call.caller = m)
    (hx : x ∈ (w.unfoldPicks closed m d ps).expansions d) : x.Sound w := by
  fun_induction unfoldPicks w closed m d ps with
  | case1 => exact absurd hx List.not_mem_nil
  | case2 closed m d k ps t hopens ih => exact ih (List.forall_mem_cons.mp hps).2 hx
  | case3 closed m d k ps t n hopens hadm below ihb _ ih =>
    obtain ⟨hk, hps⟩ := List.forall_mem_cons.mp hps
    rcases List.mem_cons.mp hx with rfl | hx
    · have hpass := ((opens_glance hk d).mp (Bool.of_not_eq_false hopens)).2
      exact ⟨turns_unfoldPicks .., .ofCall k.call, rfl, hpass⟩
    · rcases List.mem_append.mp hx with hx | hx
      · exact ihb (hw n) hx
      · exact ih hps hx
  | case4 closed m d k ps t n hopens hadm ih => exact ih (List.forall_mem_cons.mp hps).2 hx

theorem sound_of_mem_expansions {entry : Method} {depth : Nat} {line : Option Int} {x : Expansion}
    (hx : x ∈ w.expansions entry depth line) : x.Sound w := by
  rw [expansions] at hx
  split at hx
  · next hexp =>
    rw [unfolding, if_pos hexp] at hx
    rcases List.mem_cons.mp hx with rfl | hx
    · exact ⟨turns_unfoldPicks .., .entry entry line, rfl, (expands_iff.mp hexp).1⟩
    · exact sound_of_mem_unfoldPicks hw (hw entry) hx
  · exact absurd hx List.not_mem_nil

end

/-- The entry is expanded like any other method. -/
theorem entry_mem_expansions {w : Walk} {entry : Method} {depth : Nat} {line : Option Int}
    (h : w.Expands entry depth line) :
    ⟨entry, depth, w.turnsAt entry depth⟩ ∈ w.expansions entry depth line := by
  rw [expansions, if_pos h, unfolding, if_pos h, turns_unfoldPicks]
  exact List.mem_cons_self

/-- The events of each turn of an expansion stand together in the run. -/
theorem exists_placed_run {w : Walk} {entry : Method} {depth : Nat} {line : Option Int}
    {x : Expansion} {pre post : List Turn} {t : Turn} (hx : x ∈ w.expansions entry depth line)
    (h : x.turns = pre ++ t :: post) :
    ∃ es fs, Placed (w.run none entry depth line).events pre t post es fs := by
  have hunfolding : ∃ es fs, Placed (w.unfolding entry depth line).events pre t post es fs := by
    rw [expansions] at hx
    split at hx
    · rcases List.mem_cons.mp hx with rfl | hx
      · exact Unfolding.exists_placed h
      · exact Unfolding.exists_placed_of_mem hx h
    · exact absurd hx List.not_mem_nil
  obtain ⟨es, fs, hp⟩ := hunfolding
  rw [run_unlimited]
  exact ⟨_, _, hp.within _ _⟩

theorem infix_run {w : Walk} {entry : Method} {depth : Nat} {line : Option Int} {x : Expansion}
    {t : Turn} (hx : x ∈ w.expansions entry depth line) (ht : t ∈ x.turns) :
    t.visit.events <:+: (w.run none entry depth line).events := by
  obtain ⟨pre, post, hturns⟩ := List.append_of_mem ht
  obtain ⟨es, fs, hp⟩ := exists_placed_run hx hturns
  exact ⟨es, fs, hp.split.symm⟩

end CallTrace.Walk
