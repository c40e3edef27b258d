import CallTrace.Proofs.Alias.Picks
import CallTrace.Proofs.Graph.Index
import CallTrace.Proofs.Report.Rows
import CallTrace.Proofs.Walk.Arrivals
import Mathlib.Data.List.Basic
import Mathlib.Data.List.Flatten

/-!
# Blocks of lines

If methods stay closed only on the way down, the lines that a walk shows at an arrival and below it
depend on the methods above alone. A block is the line of the arrival and, below it, the blocks of
the calls that the walk selects, one after the other. Two walks over one graph are compared block
by block.
-/

namespace CallTrace.Walk

/-- The calls that are followed to another method. -/
def leading (ps : List Pick) : List Call := (Pick.followed ps).filter fun c => ¬ c.IsSelfCall

theorem leading_cons_of_leads {k : Pick} (h : Leads k) (ps : List Pick) :
    leading (k :: ps) = k.call :: leading ps := by
  cases k with
  | merge c => exact h.elim
  | follow c => exact List.filter_cons_of_pos (decide_eq_true h)

theorem leading_cons_of_not_leads {k : Pick} (h : ¬ Leads k) (ps : List Pick) :
    leading (k :: ps) = leading ps := by
  cases k with
  | merge c => rfl
  | follow c => exact List.filter_cons_of_neg fun hc => h (of_decide_eq_true hc)

/-- The calls of `m` that the walk follows to another method. -/
def selected (w : Walk) (m : Method) : List Call := leading (w.offers m)

theorem mem_selected_iff {w : Walk} {m : Method} {c : Call} :
    c ∈ w.selected m ↔ .follow c ∈ w.offers m ∧ ¬ c.IsSelfCall := by
  rw [selected, leading, List.mem_filter, Pick.mem_followed_iff, decide_eq_true_iff]

/-- The lines below `m` while the methods in `closed` are closed. -/
def linesBelow (w : Walk) (closed : List Method) (m : Method) (d : Nat) :
    List (Trace.Line × Method) :=
  (w.unfoldPicks closed m d (w.offers m)).events.filterMap Event.shown?

/-- The walk goes on below the arrival. -/
def Descends (w : Walk) (closed : List Method) (d : Nat) (a : Arrival) : Prop :=
  w.Passes a ∧ w.Admits closed a.method d

instance (w : Walk) (closed : List Method) (d : Nat) (a : Arrival) :
    Decidable (w.Descends closed d a) :=
  inferInstanceAs (Decidable (_ ∧ _))

/-- The lines of an arrival while the methods in `closed` are closed: its own and those below. -/
def block (w : Walk) (closed : List Method) (d : Nat) (a : Arrival) : List (Trace.Line × Method) :=
  (if w.Shows a then [w.lineAt d a] else []) ++
    if w.Descends closed d a then w.linesBelow (a.method :: closed) a.method d else []

theorem block_of_not_descends {w : Walk} {closed : List Method} {d : Nat} {a : Arrival}
    (h : ¬ w.Descends closed d a) :
    w.block closed d a = if w.Shows a then [w.lineAt d a] else [] := by
  rw [block, if_neg h, List.append_nil]

section

variable {w : Walk} (hscope : w.policy.scope = .path)

include hscope

theorem shown_unfoldPicks_eq_flatMap (closed : List Method) (m : Method) (d : Nat)
    (ps : List Pick) :
    (w.unfoldPicks closed m d ps).events.filterMap Event.shown? =
      (leading ps).flatMap fun c => w.block closed (d + 1) (.ofPick m (.follow c)) := by
  fun_induction unfoldPicks w closed m d ps with
  | case1 => rfl
  | case2 closed m d k ps t hopens ih =>
    have hturn : t.visit.events.filterMap Event.shown? = _ := shown_glance_ofPick w m d k
    simp only [Unfolding.events, List.append_nil, List.filterMap_append, hturn, ih]
    by_cases hlead : Leads k
    · have hpass : ¬ w.Passes (.ofPick m k) := by
        intro hpass
        exact Bool.false_ne_true
          (hopens.symm.trans ((opens_glance_ofPick w m d k).mpr ⟨hlead, hpass⟩))
      have hblock : w.block closed (d + 1) (.ofPick m (.follow k.call)) = _ :=
        block_of_not_descends fun h => hpass h.1
      simp only [leading_cons_of_leads hlead, List.flatMap_cons, hblock, and_iff_right hlead]
      rfl
    · have hno : ¬ (Leads k ∧ w.Shows (.ofPick m k)) := fun h => hlead h.1
      simp only [leading_cons_of_not_leads hlead, if_neg hno, List.nil_append]
  | case3 closed m d k ps t n hopens hadm below ihb _ ih =>
    obtain ⟨hlead, hpass⟩ := (opens_glance_ofPick w m d k).mp (Bool.of_not_eq_false hopens)
    have hturn : t.visit.events.filterMap Event.shown? = [w.lineAt (d + 1) (.ofPick m k)] :=
      (shown_glance_ofPick w m d k).trans (if_pos ⟨hlead, hpass.shows⟩)
    have hrest := ih
    rw [closedAfter_of_path hscope] at hrest
    have hblock : w.block closed (d + 1) (.ofPick m (.follow k.call)) =
        w.lineAt (d + 1) (.ofPick m k) :: below.events.filterMap Event.shown? := by
      have hshows : w.Shows (.ofPick m (.follow k.call)) := hpass.shows
      have hgoes : w.Descends closed (d + 1) (.ofPick m (.follow k.call)) := ⟨hpass, hadm⟩
      rw [block, if_pos hshows, if_pos hgoes]
      rfl
    simp only [Unfolding.events, List.filterMap_append, hturn, closedAfter_of_path hscope, hrest,
      leading_cons_of_leads hlead, List.flatMap_cons, hblock]
    rfl
  | case4 closed m d k ps t n hopens hadm ih =>
    obtain ⟨hlead, hpass⟩ := (opens_glance_ofPick w m d k).mp (Bool.of_not_eq_false hopens)
    have hturn : t.visit.events.filterMap Event.shown? = _ := shown_glance_ofPick w m d k
    have hblock : w.block closed (d + 1) (.ofPick m (.follow k.call)) = _ :=
      block_of_not_descends fun h => hadm h.2
    simp only [Unfolding.events, List.filterMap_append, hturn, shown_refusal, List.append_nil,
      ih, leading_cons_of_leads hlead, List.flatMap_cons, hblock, and_iff_right hlead]
    rfl

/-- Below a method stand the blocks of its selected calls in order. -/
theorem linesBelow_eq_flatMap (closed : List Method) (m : Method) (d : Nat) :
    w.linesBelow closed m d =
      (w.selected m).flatMap fun c => w.block closed (d + 1) (.ofPick m (.follow c)) :=
  shown_unfoldPicks_eq_flatMap hscope closed m d (w.offers m)

omit hscope in
theorem ofPick_follow_of_selected (hw : w.Indexed) {m : Method} {c : Call}
    (hc : c ∈ w.selected m) : Arrival.ofPick m (.follow c) = .ofCall c :=
  Arrival.ofPick_eq_ofCall (hw m _ (mem_selected_iff.mp hc).1)

theorem linesBelow_eq_flatMap_ofCall (hw : w.Indexed) (closed : List Method) (m : Method)
    (d : Nat) :
    w.linesBelow closed m d =
      (w.selected m).flatMap fun c => w.block closed (d + 1) (.ofCall c) := by
  rw [linesBelow_eq_flatMap hscope]
  refine List.flatMap_congr fun c hc => ?_
  rw [ofPick_follow_of_selected hw hc]

end

/-- A run shows the block of its entry. -/
theorem shown_run_eq_block (w : Walk) (entry : Method) (depth : Nat) (line : Option Int) :
    (w.run none entry depth line).shown = w.block [] depth (.entry entry line) := by
  have hdescends : w.Expands entry depth line ↔ w.Descends [] depth (.entry entry line) :=
    expands_iff
  rw [shown_run_unlimited, story, List.filterMap_append, shown_opening, unfolding, block]
  by_cases h : w.Expands entry depth line
  · rw [if_pos h, if_pos (hdescends.mp h)]
    rfl
  · rw [if_neg h, if_neg (mt hdescends.mpr h)]
    rfl

/-- Induction on what is left to open: a statement about closed methods may be assumed as soon as a
further method with calls is closed. -/
theorem closed_induction {w : Walk} {P : List Method → Prop}
    (step : ∀ closed, (∀ m, m ∉ closed → m ∈ w.graph.outgoing.keys → P (m :: closed)) → P closed)
    (closed : List Method) : P closed := by
  apply (measure w.unopened).wf.induction closed
  intro closed ih
  apply step
  intro m hm hkey
  exact ih (m :: closed) (unopened_lt hm hkey)

/-- Induction on blocks: a statement about an arrival may be assumed for the calls below it if the walk
goes on there. -/
theorem block_induction {w : Walk} {P : List Method → Nat → Arrival → Prop}
    (step : ∀ closed d a,
      (w.Descends closed d a → ∀ c ∈ w.selected a.method,
        P (a.method :: closed) (d + 1) (.ofPick a.method (.follow c))) → P closed d a)
    (closed : List Method) (d : Nat) (a : Arrival) : P closed d a := by
  induction closed using closed_induction (w := w) generalizing d a with
  | step closed ih =>
    refine step closed d a fun hdesc c hc => ?_
    by_cases hkey : a.method ∈ w.graph.outgoing.keys
    · exact ih a.method hdesc.2.1 hkey (d + 1) _
    · rw [selected, offers_eq_nil hkey] at hc
      exact absurd hc List.not_mem_nil

/-- The depth at which a line stands. -/
def shownDepth (l : Trace.Line × Method) : Nat := l.1.depth

theorem block_of_shows {w : Walk} {a : Arrival} (h : w.Shows a) (closed : List Method) (d : Nat) :
    w.block closed d a = w.lineAt d a ::
      if w.Descends closed d a then w.linesBelow (a.method :: closed) a.method d else [] := by
  rw [block, if_pos h]
  rfl

theorem block_of_not_shows {w : Walk} {a : Arrival} (h : ¬ w.Shows a) (closed : List Method)
    (d : Nat) : w.block closed d a = [] := by
  rw [block_of_not_descends fun hdesc => h hdesc.1.shows, if_neg h]

section

variable {w : Walk} (hscope : w.policy.scope = .path)

include hscope

/-- A block begins with the line of its arrival, and its other lines are deeper. -/
theorem row_block (closed : List Method) (d : Nat) (a : Arrival) :
    Report.Row shownDepth d (w.block closed d a) := by
  induction closed, d, a using block_induction (w := w) with
  | step closed d a ih =>
    by_cases hshows : w.Shows a
    · have hown : shownDepth (w.lineAt d a) = d := rfl
      rw [block_of_shows hshows]
      apply Report.Row.cons hown
      split
      · next hdesc =>
        intro l hl
        rw [linesBelow_eq_flatMap hscope] at hl
        exact Nat.le_of_succ_le ((Report.Row.flatMap (ih hdesc)).le l hl)
      · simp
    · rw [block_of_not_shows hshows]
      exact .nil

theorem row_linesBelow (closed : List Method) (m : Method) (d : Nat) :
    Report.Row shownDepth (d + 1) (w.linesBelow closed m d) := by
  rw [linesBelow_eq_flatMap hscope]
  exact Report.Row.flatMap fun c _ => row_block hscope closed (d + 1) _

theorem lt_depth_of_mem_linesBelow {closed : List Method} {m : Method} {d : Nat}
    {l : Trace.Line × Method} (hl : l ∈ w.linesBelow closed m d) : d < shownDepth l :=
  (row_linesBelow hscope closed m d).le l hl

theorem lt_depth_below (closed : List Method) (d : Nat) (a : Arrival) :
    ∀ l ∈ if w.Descends closed d a then w.linesBelow (a.method :: closed) a.method d else [],
      shownDepth (w.lineAt d a) < shownDepth l := by
  intro l hl
  split at hl
  · exact lt_depth_of_mem_linesBelow hscope hl
  · exact absurd hl List.not_mem_nil

end

/-- To those who look at lines through `view`, `w` shows no line that `v` does not show: where both
arrive the line of `w` is one of `v`, which goes on below if `w` does, and the calls of `w` that `v`
may not select have nothing to see. -/
structure Narrows (w v : Walk) (view : Trace.Line × Method → Option (Trace.Line × Method))
    (Common : Arrival → Prop) [DecidablePred Common] : Prop where
  sublist_own : ∀ a d, Common a →
    ((if w.Shows a then [w.lineAt d a] else []).filterMap view).Sublist
      ((if v.Shows a then [v.lineAt d a] else []).filterMap view)
  descends : ∀ closed d a, Common a → w.Descends closed d a → v.Descends closed d a
  sublist_selected : ∀ m,
    ((w.selected m).filter fun c => Common (.ofCall c)).Sublist (v.selected m)
  view_block_eq_nil : ∀ closed d m, ∀ c ∈ w.selected m, ¬ Common (.ofCall c) →
    (w.block closed d (.ofCall c)).filterMap view = []

theorem flatMap_filter_of_eq_nil {α β : Type} {p : α → Prop} [DecidablePred p] {f : α → List β}
    {l : List α} (h : ∀ x ∈ l, ¬ p x → f x = []) : (l.filter p).flatMap f = l.flatMap f := by
  induction l with
  | nil => rfl
  | cons x l ih =>
    obtain ⟨hx, hl⟩ := List.forall_mem_cons.mp h
    by_cases hp : p x
    · simp [hp, ih hl]
    · simp [hp, hx hp, ih hl]

/-- At an arrival of both walks, what is seen of the block of `w` is part of what is seen of that of
`v`. -/
theorem Narrows.block_sublist {w v : Walk} {Common : Arrival → Prop} [DecidablePred Common]
    {view : Trace.Line × Method → Option (Trace.Line × Method)} (h : w.Narrows v view Common)
    (hw : w.Indexed) (hv : v.Indexed) (hwscope : w.policy.scope = .path)
    (hvscope : v.policy.scope = .path) (closed : List Method) (d : Nat) (a : Arrival)
    (ha : Common a) :
    ((w.block closed d a).filterMap view).Sublist ((v.block closed d a).filterMap view) := by
  -- both walks close the same methods on the way down, so one induction serves for both
  induction closed, d, a using block_induction (w := w) with
  | step closed d a ih =>
    rw [block, block, List.filterMap_append, List.filterMap_append]
    apply (h.sublist_own a d ha).append
    by_cases hdesc : w.Descends closed d a
    · rw [if_pos hdesc, if_pos (h.descends closed d a ha hdesc),
        linesBelow_eq_flatMap_ofCall hwscope hw, linesBelow_eq_flatMap_ofCall hvscope hv,
        List.filterMap_flatMap, List.filterMap_flatMap,
        ← flatMap_filter_of_eq_nil (h.view_block_eq_nil (a.method :: closed) (d + 1) a.method)]
      -- the blocks of the calls in common get smaller, and there are fewer of them
      have hcalls : ∀ c ∈ (w.selected a.method).filter fun c => Common (.ofCall c),
          ((w.block (a.method :: closed) (d + 1) (.ofCall c)).filterMap view).Sublist
            ((v.block (a.method :: closed) (d + 1) (.ofCall c)).filterMap view) := by
        intro c hc
        obtain ⟨hc, hcommon⟩ := List.mem_filter.mp hc
        have hbelow := ih hdesc c hc
        rw [ofPick_follow_of_selected hw hc] at hbelow
        exact hbelow (of_decide_eq_true hcommon)
      exact (List.Sublist.flatMap_right _ hcalls).trans
        ((h.sublist_selected a.method).flatMap _)
    · rw [if_neg hdesc]
      exact List.nil_sublist _

end CallTrace.Walk
