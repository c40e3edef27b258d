import CallTrace.Proofs.Walk.Expansions
import CallTrace.Proofs.Walk.Loop
import Mathlib.Logic.Relation

/-!
# What a walk covers

Calls lead from a method that is expanded to others that pass the filters. Each of them is expanded
as well, somewhere in the walk, unless the depth bound alone refuses it. Without a bound a walk
therefore expands the same methods whether they stay closed on the path or for the whole walk.
-/

namespace CallTrace.Walk

/-- The same walk in another scope. -/
def withScope (w : Walk) (s : Scope) : Walk := { w with policy := { w.policy with scope := s } }

/-- A pick of `m` leads through the filters to `n`. -/
def LeadsTo (w : Walk) (m n : Method) : Prop :=
  ∃ k ∈ w.offers m, Leads k ∧ w.Passes (.ofCall k.call) ∧ k.call.callee = n

section

variable (w : Walk) (s : Scope) (a : Arrival)

@[simp] theorem offers_withScope : (w.withScope s).offers = w.offers := rfl

@[simp] theorem verdictAt_withScope : (w.withScope s).verdictAt a = w.verdictAt a :=
  verdictAt_congr rfl rfl rfl a

@[simp] theorem passes_withScope : (w.withScope s).Passes a ↔ w.Passes a := by
  rw [Passes, verdictAt_withScope]
  rfl

@[simp] theorem shows_withScope : (w.withScope s).Shows a ↔ w.Shows a := by
  rw [Shows, verdictAt_withScope]
  rfl

@[simp] theorem lineAt_withScope (d : Nat) : (w.withScope s).lineAt d a = w.lineAt d a :=
  lineAt_congr rfl rfl rfl d a

@[simp] theorem leadsTo_withScope : (w.withScope s).LeadsTo = w.LeadsTo := by
  funext m n
  simp [LeadsTo]

end

/-- The methods that a run expands. -/
def expanded (w : Walk) (entry : Method) (depth : Nat) (line : Option Int) : List Method :=
  (w.expansions entry depth line).map Expansion.method

/-- What becomes of a method that passes the filters at depth `d`: it was closed before, it is
opened, or it is refused for its depth. -/
def Treated (w : Walk) (closed opened : List Method) (es : List Event) (n : Method) (d : Nat) :
    Prop :=
  n ∈ closed ∨ n ∈ opened ∨ w.BoundReached d ∧ .logged (.depthLimit n d) ∈ es

theorem Treated.mono {w : Walk} {closed closed' opened opened' : List Method}
    {es es' : List Event} {n : Method} {d : Nat} (h : w.Treated closed opened es n d)
    (hclosed : ∀ m ∈ closed, m ∈ closed' ∨ m ∈ opened') (hopened : opened ⊆ opened')
    (hes : es ⊆ es') : w.Treated closed' opened' es' n d := by
  rcases h with h | h | ⟨hbound, h⟩
  · rcases hclosed n h with h | h
    · exact .inl h
    · exact .inr (.inl h)
  · exact .inr (.inl (hopened h))
  · exact .inr (.inr ⟨hbound, hes h⟩)

theorem mem_closedAfter {w : Walk} {opened closed : List Method} {m : Method}
    (h : m ∈ w.closedAfter opened closed) : m ∈ closed ∨ m ∈ opened := by
  rw [closedAfter] at h
  split at h
  · exact .inl h
  · exact (List.mem_append.mp h).symm

theorem opened_eq (u : Unfolding) (d : Nat) :
    u.opened = ((u.expansions d).map Expansion.method).reverse := by
  induction u generalizing d with
  | done => rfl
  | stay t refusal rest ih => exact ih d
  | descend t below rest ihb ih =>
    rw [Unfolding.opened, Unfolding.expansions, ih d, ihb (d + 1)]
    simp

/-- All turns below a method of depth `d`, each with the depth of the method that takes it. -/
def Unfolding.allTurns (d : Nat) : Unfolding → List (Turn × Nat)
  | done => []
  | stay t _ rest => (t, d) :: rest.allTurns d
  | descend t below rest => (t, d) :: (below.allTurns (d + 1) ++ rest.allTurns d)

theorem Unfolding.mem_allTurns {u : Unfolding} {d : Nat} {t : Turn} (ht : t ∈ u.turns) :
    (t, d) ∈ u.allTurns d := by
  induction u with
  | done => exact absurd ht List.not_mem_nil
  | stay s refusal rest ih =>
    rcases List.mem_cons.mp ht with rfl | ht
    · exact List.mem_cons_self
    · exact List.mem_cons_of_mem _ (ih ht)
  | descend s below rest _ ih =>
    rcases List.mem_cons.mp ht with rfl | ht
    · exact List.mem_cons_self
    · exact List.mem_cons_of_mem _ (List.mem_append_right _ (ih ht))

theorem Unfolding.mem_allTurns_of_mem_expansions {u : Unfolding} {d : Nat} {x : Expansion}
    {t : Turn} (hx : x ∈ u.expansions d) (ht : t ∈ x.turns) : (t, x.depth) ∈ u.allTurns d := by
  induction u generalizing d with
  | done => exact absurd hx List.not_mem_nil
  | stay s refusal rest ih => exact List.mem_cons_of_mem _ (ih hx)
  | descend s below rest ihb ih =>
    apply List.mem_cons_of_mem
    apply List.mem_append.mpr
    rcases List.mem_cons.mp hx with rfl | hx
    · exact .inl (mem_allTurns ht)
    · rcases List.mem_append.mp hx with hx | hx
      · exact .inl (ihb hx)
      · exact .inr (ih hx)

/-- Every turn that goes on leads to a method that is treated. -/
theorem treated_of_opens (w : Walk) (closed : List Method) (m : Method) (d : Nat)
    (ps : List Pick) :
    let u := w.unfoldPicks closed m d ps
    ∀ s ∈ u.allTurns d, s.1.visit.opens = true →
      w.Treated closed u.opened u.events s.1.call.callee (s.2 + 1) := by
  fun_induction unfoldPicks w closed m d ps with
  | case1 =>
    intro u s hs
    cases hs
  | case2 closed m d k ps t hopens ih =>
    intro u s hs h
    rcases List.mem_cons.mp hs with rfl | hs
    · exact absurd (hopens.symm.trans h) Bool.false_ne_true
    · exact (ih s hs h).mono (fun _ => .inl) (List.Subset.refl _)
        (List.subset_append_right _ _)
  | case3 closed m d k ps t n hopens hadm below ihb _ ih =>
    intro u s hs h
    have hbelow : ∀ a ∈ below.opened ++ [n], a ∈ u.opened :=
      fun a ha => List.mem_append_right _ ha
    have hn : n ∈ u.opened := hbelow n (List.mem_append_right _ (List.mem_singleton.mpr rfl))
    rcases List.mem_cons.mp hs with rfl | hs
    · exact .inr (.inl hn)
    · rcases List.mem_append.mp hs with hs | hs
      · apply (ihb s hs h).mono
        · intro a ha
          rcases List.mem_cons.mp ha with rfl | ha
          · exact .inr hn
          · exact .inl ha
        · exact fun a ha => hbelow a (List.mem_append_left _ ha)
        · exact fun e he => List.mem_append_left _ (List.mem_append_right _ he)
      · apply (ih s hs h).mono
        · exact fun a ha => (mem_closedAfter ha).imp_right (hbelow a)
        · exact fun a ha => List.mem_append_left _ ha
        · exact fun e he => List.mem_append_right _ he
  | case4 closed m d k ps t n hopens hadm ih =>
    intro u s hs h
    rcases List.mem_cons.mp hs with rfl | hs
    · by_cases hn : n ∈ closed
      · exact .inl hn
      · have hbound : w.BoundReached (d + 1) :=
          Classical.byContradiction fun hbound => hadm ⟨hn, hbound⟩
        refine .inr (.inr ⟨hbound, ?_⟩)
        apply List.mem_append_left
        apply List.mem_append_right
        rw [refusal, if_pos ⟨hn, hbound⟩]
        exact List.mem_singleton.mpr rfl
    · exact (ih s hs h).mono (fun _ => .inl) (List.Subset.refl _)
        (List.subset_append_right _ _)

section

variable {w : Walk} {entry : Method} {depth : Nat} {line : Option Int}

theorem expanded_eq :
    w.expanded entry depth line =
      if w.Expands entry depth line then entry :: (w.unfolding entry depth line).opened.reverse
      else [] := by
  rw [expanded, expansions, opened_eq _ depth, List.reverse_reverse]
  split <;> rfl

theorem expands_of_mem_expanded {m : Method} (h : m ∈ w.expanded entry depth line) :
    w.Expands entry depth line := by
  rw [expanded_eq] at h
  split at h
  · assumption
  · exact absurd h List.not_mem_nil

theorem events_unfolding_subset :
    (w.unfolding entry depth line).events ⊆ (w.run none entry depth line).events := by
  rw [run_unlimited, story]
  exact fun e he => List.mem_append_left _ (List.mem_append_right _ he)

variable (hw : w.Indexed)

include hw

/-- Whatever an expanded method leads to is expanded as well or refused for its depth. -/
theorem treated_of_mem_expansions {x : Expansion} {k : Pick}
    (hx : x ∈ w.expansions entry depth line) (hk : k ∈ w.offers x.method) (hlead : Leads k)
    (hpass : w.Passes (.ofCall k.call)) :
    w.Treated [] (w.expanded entry depth line) (w.run none entry depth line).events
      k.call.callee (x.depth + 1) := by
  let t : Turn := ⟨k, w.glance x.method x.depth k⟩
  have ht : t ∈ x.turns := by
    rw [(sound_of_mem_expansions hw hx).turns_eq]
    exact List.mem_map_of_mem hk
  have hopens : t.visit.opens = true := (opens_glance (hw x.method k hk) x.depth).mpr ⟨hlead, hpass⟩
  have hexp : w.Expands entry depth line :=
    expands_of_mem_expanded (List.mem_map_of_mem hx)
  have hall : (t, x.depth) ∈ (w.unfolding entry depth line).allTurns depth := by
    rw [expansions, if_pos hexp] at hx
    rcases List.mem_cons.mp hx with rfl | hx
    · exact Unfolding.mem_allTurns ht
    · exact Unfolding.mem_allTurns_of_mem_expansions hx ht
  have hmain := w.treated_of_opens [entry] entry depth (w.offers entry)
  rw [unfolding, if_pos hexp] at hall
  apply (hmain _ hall hopens).mono
  · intro m hm
    rw [expanded_eq, if_pos hexp]
    exact .inr (List.mem_cons.mpr (.inl (List.mem_singleton.mp hm)))
  · intro m hm
    rw [expanded_eq, if_pos hexp, unfolding, if_pos hexp]
    exact List.mem_cons_of_mem _ (List.mem_reverse.mpr hm)
  · intro e he
    apply events_unfolding_subset
    rw [unfolding, if_pos hexp]
    exact he

end

/-- Every method that is expanded below `m` can be reached from `m`. -/
theorem reachable_of_mem_opened {w : Walk} (hw : w.Indexed) (closed : List Method) (m : Method)
    (d : Nat) (ps : List Pick) (hps : ∀ k ∈ ps, k ∈ w.offers m) :
    ∀ n ∈ (w.unfoldPicks closed m d ps).opened, Relation.ReflTransGen w.LeadsTo m n := by
  fun_induction unfoldPicks w closed m d ps with
  | case1 =>
    intro n hn
    cases hn
  | case2 closed m d k ps t hopens ih => exact ih (List.forall_mem_cons.mp hps).2
  | case3 closed m d k ps t n hopens hadm below ihb _ ih =>
    obtain ⟨hk, hps⟩ := List.forall_mem_cons.mp hps
    have hpass := (opens_glance (hw m k hk) d).mp (Bool.of_not_eq_false hopens)
    have hn : w.LeadsTo m n := ⟨k, hk, hpass.1, hpass.2, rfl⟩
    intro a ha
    rcases List.mem_append.mp ha with ha | ha
    · exact ih hps a ha
    · rcases List.mem_append.mp ha with ha | ha
      · exact .head hn (ihb (fun _ => id) a ha)
      · obtain rfl := List.mem_singleton.mp ha
        exact .single hn
  | case4 closed m d k ps t n hopens hadm ih => exact ih (List.forall_mem_cons.mp hps).2

/-- Without a depth bound a walk expands what it can reach through the filters. -/
theorem mem_expanded_iff {w : Walk} (hw : w.Indexed) (hbound : w.policy.depthBound = none)
    {entry : Method} {depth : Nat} {line : Option Int} {m : Method} :
    m ∈ w.expanded entry depth line ↔
      w.Passes (.entry entry line) ∧ Relation.ReflTransGen w.LeadsTo entry m := by
  have hnot := not_boundReached hbound
  have hexpands : w.Expands entry depth line ↔ w.Passes (.entry entry line) := by
    rw [expands_iff]
    exact and_iff_left ⟨List.not_mem_nil, hnot depth⟩
  constructor
  · intro h
    have hexp := expands_of_mem_expanded h
    refine ⟨hexpands.mp hexp, ?_⟩
    rw [expanded_eq, if_pos hexp, unfolding, if_pos hexp] at h
    rcases List.mem_cons.mp h with rfl | h
    · exact .refl
    · exact reachable_of_mem_opened hw _ _ _ _ (fun _ => id) m (List.mem_reverse.mp h)
  · rintro ⟨hpass, hreach⟩
    induction hreach with
    | refl =>
      rw [expanded_eq, if_pos (hexpands.mpr hpass)]
      exact List.mem_cons_self
    | tail _ hlead ih =>
      obtain ⟨x, hx, rfl⟩ := List.mem_map.mp ih
      obtain ⟨k, hk, hlead, hpass, rfl⟩ := hlead
      rcases treated_of_mem_expansions hw hx hk hlead hpass with h | h | h
      · exact absurd h List.not_mem_nil
      · exact h
      · exact absurd h.1 (hnot _)

/-- If methods stay closed for the whole walk, each is expanded at most once. -/
theorem nodup_expanded {w : Walk} (hscope : w.policy.scope = .global) (entry : Method)
    (depth : Nat) (line : Option Int) : (w.expanded entry depth line).Nodup := by
  obtain ⟨ms, t, -, hframes, hreach⟩ := w.reaches_unfolding entry depth line
  have hnodup := nodup_openedFrames hscope hreach
  rw [hframes, List.map_map] at hnodup
  exact hnodup

end CallTrace.Walk
