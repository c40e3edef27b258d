import CallTrace.Walk.Run

/-!
# The unfolding of a walk

A walk keeps its pending work on a stack. Its unfolding is the same work as a tree: one turn for
each pick of an expanded method and, below a turn that opens the method called, the turns of that
method.
-/

namespace CallTrace.Walk

/-- What happens at a pick of `m` before the walk goes below. -/
def glance (w : Walk) (m : Method) (d : Nat) : Pick → Visit
  | .merge c => ⟨[.logged (Pick.mergeLog c)], false⟩
  | .follow c =>
    if c.IsSelfCall then ⟨[], false⟩
    else w.visit c.callee (d + 1) c.lineNumber (some m.owner)

/-- Neither the closed methods nor the depth bound keep `m` from being expanded. -/
def Admits (w : Walk) (closed : List Method) (m : Method) (d : Nat) : Prop :=
  m ∉ closed ∧ ¬ w.BoundReached d

instance (w : Walk) (closed : List Method) (m : Method) (d : Nat) :
    Decidable (w.Admits closed m d) :=
  inferInstanceAs (Decidable (_ ∧ _))

theorem not_boundReached {w : Walk} (h : w.policy.depthBound = none) (d : Nat) :
    ¬ w.BoundReached d := by
  simp [BoundReached, h]

/-- A method that is refused for its depth alone is reported. -/
def refusal (w : Walk) (closed : List Method) (m : Method) (d : Nat) : List Event :=
  if m ∉ closed ∧ w.BoundReached d then [.logged (.depthLimit m d)] else []

theorem enter_of_admits {w : Walk} {m : Method} {d : Nat} {s : State}
    (h : w.Admits s.expanded m d) :
    w.enter m d s = ([], ⟨⟨m, d, w.offers m⟩ :: s.stack, m :: s.expanded⟩) := by
  rw [enter, if_neg h.1, if_neg h.2]

theorem enter_of_not_admits {w : Walk} {m : Method} {d : Nat} {s : State}
    (h : ¬ w.Admits s.expanded m d) : w.enter m d s = (w.refusal s.expanded m d, s) := by
  by_cases hm : m ∈ s.expanded
  · simp [enter, refusal, hm]
  · have hd : w.BoundReached d := Classical.byContradiction fun hd => h ⟨hm, hd⟩
    simp [enter, refusal, hm, hd]

theorem refusal_of_admits {w : Walk} {closed : List Method} {m : Method} {d : Nat}
    (h : w.Admits closed m d) : w.refusal closed m d = [] :=
  if_neg fun hr => h.2 hr.2

structure Turn where
  pick : Pick
  visit : Visit

namespace Turn

def call (t : Turn) : Call := t.pick.call

/-- The lines that the expanded method gets in this turn, each with the method shown. -/
def shown (t : Turn) : List (Trace.Line × Method) := t.visit.events.filterMap Event.shown?

end Turn

/-- The turns of one method in order. Only `descend` expands the method called; the turns of
that method are `below`. -/
inductive Unfolding
  | done
  | stay (turn : Turn) (refusal : List Event) (rest : Unfolding)
  | descend (turn : Turn) (below rest : Unfolding)

/-- A method that a walk expands, and its turns. -/
structure Expansion where
  method : Method
  depth : Nat
  turns : List Turn

namespace Unfolding

def turns : Unfolding → List Turn
  | done => []
  | stay t _ rest => t :: rest.turns
  | descend t _ rest => t :: rest.turns

def events : Unfolding → List Event
  | done => []
  | stay t refusal rest => t.visit.events ++ refusal ++ rest.events
  | descend t below rest => t.visit.events ++ below.events ++ rest.events

/-- The methods expanded, the last one first. -/
def opened : Unfolding → List Method
  | done => []
  | stay _ _ rest => rest.opened
  | descend t below rest => rest.opened ++ (below.opened ++ [t.call.callee])

/-- All expansions below a method of depth `d`. -/
def expansions (d : Nat) : Unfolding → List Expansion
  | done => []
  | stay _ _ rest => rest.expansions d
  | descend t below rest =>
    ⟨t.call.callee, d + 1, below.turns⟩ :: (below.expansions (d + 1) ++ rest.expansions d)

end Unfolding

/-- What stays closed after the methods in `opened` have been expanded. -/
def closedAfter (w : Walk) (opened closed : List Method) : List Method :=
  match w.policy.scope with
  | .path => closed
  | .global => opened ++ closed

theorem subset_closedAfter (w : Walk) (opened closed : List Method) :
    closed ⊆ w.closedAfter opened closed := by
  unfold closedAfter
  split
  · exact List.Subset.refl _
  · exact List.subset_append_right _ _

theorem closedAfter_nil (w : Walk) (closed : List Method) : w.closedAfter [] closed = closed := by
  unfold closedAfter
  split <;> rfl

theorem closedAfter_of_path {w : Walk} (h : w.policy.scope = .path) (opened closed : List Method) :
    w.closedAfter opened closed = closed := by
  rw [closedAfter, h]

theorem closedAfter_append (w : Walk) (a b closed : List Method) :
    w.closedAfter (a ++ b) closed = w.closedAfter a (w.closedAfter b closed) := by
  unfold closedAfter
  cases w.policy.scope with
  | path => rfl
  | global => exact List.append_assoc a b closed

/-- A method is released when its turns are over. -/
theorem release_closedAfter (w : Walk) (m : Method) (opened closed : List Method) :
    w.release m (w.closedAfter opened (m :: closed)) = w.closedAfter (opened ++ [m]) closed := by
  unfold release closedAfter
  cases w.policy.scope with
  | path => simp
  | global => simp

/-- How many methods with calls can still be opened. -/
def unopened (w : Walk) (closed : List Method) : Nat :=
  w.graph.outgoing.keys.countP fun m => m ∉ closed

theorem unopened_le {w : Walk} {a b : List Method} (h : a ⊆ b) : w.unopened b ≤ w.unopened a := by
  apply List.countP_mono_left
  intro m _ hm
  have hb : m ∉ b := of_decide_eq_true hm
  exact decide_eq_true fun ha => hb (h ha)

theorem unopened_lt {w : Walk} {closed : List Method} {m : Method} (hm : m ∉ closed)
    (hk : m ∈ w.graph.outgoing.keys) : w.unopened (m :: closed) < w.unopened closed := by
  have split : w.graph.outgoing.keys.filter (fun k => k ∉ m :: closed) =
      (w.graph.outgoing.keys.filter fun k => k ∉ closed).filter fun k => k ≠ m := by
    rw [List.filter_filter]
    apply List.filter_congr
    intro k _
    simp
  rw [unopened, unopened, List.countP_eq_length_filter, List.countP_eq_length_filter, split]
  apply List.length_filter_lt_length_iff_exists.mpr
  exact ⟨m, List.mem_filter.mpr ⟨hk, decide_eq_true hm⟩, by simp⟩

theorem callsFrom_eq_nil {w : Walk} {m : Method} (hk : m ∉ w.graph.outgoing.keys) :
    w.graph.callsFrom m = [] := by
  rw [CallGraph.callsFrom, Table.get?_eq_none_iff.mpr hk]
  rfl

theorem offers_eq_nil {w : Walk} {m : Method} (hk : m ∉ w.graph.outgoing.keys) :
    w.offers m = [] := by
  have hsub := w.grouping.picks_sublist w.policy.classes w.policy.aliases (w.graph.callsFrom m)
  rw [callsFrom_eq_nil hk] at hsub
  rw [offers, callsFrom_eq_nil hk]
  exact List.map_eq_nil_iff.mp (List.sublist_nil.mp hsub)

/-- Opening a method leaves less to open, unless there is nothing to do for the method at all. -/
theorem opening_lt (w : Walk) {closed : List Method} {m : Method} {n k : Nat} (hm : m ∉ closed)
    (hn : m ∉ w.graph.outgoing.keys → n = 0) (hk : 0 < k) :
    Prod.Lex (· < ·) (· < ·) (w.unopened (m :: closed), n) (w.unopened closed, k) := by
  by_cases hkey : m ∈ w.graph.outgoing.keys
  · exact Prod.Lex.left _ _ (unopened_lt hm hkey)
  · rw [hn hkey]
    rcases Nat.lt_or_eq_of_le (unopened_le (List.subset_cons_self m closed)) with hlt | heq
    · exact Prod.Lex.left _ _ hlt
    · rw [heq]
      exact Prod.Lex.right _ hk

theorem closing_lt (w : Walk) (opened closed : List Method) {n k : Nat} (h : n < k) :
    Prod.Lex (· < ·) (· < ·) (w.unopened (w.closedAfter opened closed), n)
      (w.unopened closed, k) := by
  rcases Nat.lt_or_eq_of_le (unopened_le (w.subset_closedAfter opened closed)) with hlt | heq
  · exact Prod.Lex.left _ _ hlt
  · rw [heq]
    exact Prod.Lex.right _ h

/-- What the walk does with the picks `ps` of `m` while the methods in `closed` are closed. -/
def unfoldPicks (w : Walk) (closed : List Method) (m : Method) (d : Nat) : List Pick → Unfolding
  | [] => .done
  | p :: ps =>
    let t : Turn := ⟨p, w.glance m d p⟩
    let n := p.call.callee
    if t.visit.opens = false then .stay t [] (w.unfoldPicks closed m d ps)
    else if w.Admits closed n (d + 1) then
      let below := w.unfoldPicks (n :: closed) n (d + 1) (w.offers n)
      .descend t below (w.unfoldPicks (w.closedAfter (below.opened ++ [n]) closed) m d ps)
    else .stay t (w.refusal closed n (d + 1)) (w.unfoldPicks closed m d ps)
termination_by ps => (w.unopened closed, ps.length)
decreasing_by
  · exact Prod.Lex.right _ (Nat.lt_succ_self _)
  · next hadm =>
    exact w.opening_lt hadm.1 (fun hk => by rw [offers_eq_nil hk]; rfl) (Nat.succ_pos _)
  · exact w.closing_lt _ _ (Nat.lt_succ_self _)
  · exact Prod.Lex.right _ (Nat.lt_succ_self _)

section

variable {w : Walk} {closed : List Method} {m : Method} {d : Nat} {p : Pick} {ps : List Pick}

theorem unfoldPicks_nil : w.unfoldPicks closed m d [] = .done := by
  rw [unfoldPicks]

theorem unfoldPicks_of_not_opens (h : (w.glance m d p).opens = false) :
    w.unfoldPicks closed m d (p :: ps) =
      .stay ⟨p, w.glance m d p⟩ [] (w.unfoldPicks closed m d ps) := by
  rw [unfoldPicks]
  exact if_pos h

theorem unfoldPicks_of_admits (h : (w.glance m d p).opens = true)
    (ha : w.Admits closed p.call.callee (d + 1)) :
    w.unfoldPicks closed m d (p :: ps) =
      let below := w.unfoldPicks (p.call.callee :: closed) p.call.callee (d + 1)
        (w.offers p.call.callee)
      .descend ⟨p, w.glance m d p⟩ below
        (w.unfoldPicks (w.closedAfter (below.opened ++ [p.call.callee]) closed) m d ps) := by
  rw [unfoldPicks]
  simp [h, ha]

theorem unfoldPicks_of_not_admits (h : (w.glance m d p).opens = true)
    (ha : ¬ w.Admits closed p.call.callee (d + 1)) :
    w.unfoldPicks closed m d (p :: ps) =
      .stay ⟨p, w.glance m d p⟩ (w.refusal closed p.call.callee (d + 1))
        (w.unfoldPicks closed m d ps) := by
  rw [unfoldPicks]
  simp [h, ha]

end

end CallTrace.Walk
