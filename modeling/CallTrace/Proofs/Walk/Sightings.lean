import CallTrace.Proofs.Report.Nesting
import CallTrace.Proofs.Walk.Loop

/-!
# Sightings

When a walk shows a line, the topmost frame is that of the method whose calls it follows. A
sighting keeps, beside the line, for which line that frame was opened. The numbers of these lines
are kept along the walk, one for each frame on the stack.
-/

namespace CallTrace.Walk

/-- What a walk shows, and the state in which it shows it. -/
structure Sighting where
  line : Trace.Line
  method : Method
  /-- The number of the line for which the topmost frame was opened. -/
  parent : Option Nat
  /-- The method of the topmost frame. -/
  caller : Option Method
  closed : List Method
  /-- A frame is opened for this line. -/
  expanded : Bool
deriving DecidableEq

def Sighting.shown (v : Sighting) : Trace.Line × Method := (v.line, v.method)

def Sighting.depth (v : Sighting) : Nat := v.line.depth

/-- What a walk shows from `s` to `t`, the frames of `s` opened for the lines `openers`. -/
def seen (openers : List Nat) (s t : State) (es : List Event) : List Sighting :=
  (es.filterMap Event.shown?).map fun l =>
    ⟨l.1, l.2, openers.head?, s.stack.head?.map Frame.method, s.expanded,
      s.stack.length < t.stack.length⟩

/-- The lines for which the frames of `t` were opened, if `n` lines were shown before `s`. -/
def openersAfter (openers : List Nat) (s t : State) (n : Nat) : List Nat :=
  if s.stack.length < t.stack.length then n :: openers
  else openers.drop (s.stack.length - t.stack.length)

section

variable {w : Walk} {entry : Method} {s t : State} {es : List Event} {ms : List (Method × Nat)}

end

/-- The line `j` is that of the frame `f`, and the last one that is no deeper than `f`. -/
structure OpenedFor (past : List Sighting) (f : Frame) (j : Nat) : Prop where
  sighted : ∃ u, past[j]? = some u ∧ u.expanded = true ∧ u.method = f.method ∧ u.depth = f.depth
  last : Report.nearest (f.depth + 1) (past.map Sighting.depth) = some j

/-- Each frame was opened for its line, and no frame is as deep as one above it. -/
structure Traced (past : List Sighting) (s : State) (openers : List Nat) : Prop where
  descending : s.stack.Pairwise fun f g => g.depth < f.depth
  opened : List.Forall₂ (OpenedFor past) s.stack openers

/-- The parent of the line is the line of the method that it is called from. -/
def Sighting.HangsIn (vs : List Sighting) (v : Sighting) : Prop :=
  ∃ j u, v.parent = some j ∧ vs[j]? = some u ∧ u.expanded = true ∧ v.caller = some u.method ∧
    v.depth = u.depth + 1

/-- A line is expanded unless it is that of a sink, of a closed method or at the depth bound. -/
def Sighting.Judged (w : Walk) (v : Sighting) : Prop :=
  v.expanded = true ↔ v.line.isSink = false ∧ w.Admits v.closed v.method v.depth

theorem OpenedFor.concat {past : List Sighting} {f : Frame} {j : Nat} {v : Sighting}
    (h : OpenedFor past f j) (hv : f.depth < v.depth) : OpenedFor (past ++ [v]) f j := by
  obtain ⟨u, hu, hline⟩ := h.sighted
  refine ⟨⟨u, ?_, hline⟩, ?_⟩
  · rw [List.getElem?_append_left (List.getElem?_eq_some_iff.mp hu).1, hu]
  · rw [List.map_append, List.map_singleton, Report.nearest_concat_of_le (Nat.succ_le_of_lt hv)]
    exact h.last

theorem openedFor_concat (past : List Sighting) {f : Frame} {v : Sighting}
    (hexp : v.expanded = true) (hm : v.method = f.method) (hd : v.depth = f.depth) :
    OpenedFor (past ++ [v]) f past.length := by
  refine ⟨⟨v, List.getElem?_concat_length, hexp, hm, hd⟩, ?_⟩
  rw [List.map_append, List.map_singleton,
    Report.nearest_concat_of_lt (Nat.lt_succ_of_le (Nat.le_of_eq hd)), List.length_map]

/-- A step that opens a frame shows the line of its method. -/
theorem seen_of_opens {w : Walk} {m : Method} {d : Nat} {p : Pick}
    (h : (w.glance m d p).opens = true) (openers : List Nat) (ps : List Pick) (fs : List Frame)
    (closed : List Method) (f : Frame) (opened : List Method) :
    seen openers ⟨⟨m, d, p :: ps⟩ :: fs, closed⟩ ⟨f :: ⟨m, d, ps⟩ :: fs, opened⟩
        (w.glance m d p).events =
      [⟨(w.lineAt (d + 1) (.ofPick m p)).1, p.call.callee, openers.head?, some m, closed,
        true⟩] := by
  obtain ⟨hlead, hpasses⟩ := (opens_glance_ofPick w m d p).mp h
  rw [seen, shown_glance_ofPick, if_pos ⟨hlead, hpasses.shows⟩]
  simp [lineAt, Arrival.ofPick]

/-- A step that shows something shows one line, below the topmost frame. -/
theorem seen_of_move {w : Walk} {s t : State} {es : List Event} (h : w.Moves s es t)
    (openers : List Nat) :
    seen openers s t es = [] ∨ ∃ f fs v, s.stack = f :: fs ∧ seen openers s t es = [v] ∧
      v.parent = openers.head? ∧ v.caller = some f.method ∧ v.depth = f.depth + 1 ∧ v.Judged w := by
  cases h with
  | pop m d fs closed => exact .inl rfl
  | pass m d p ps fs closed hpass =>
    rw [seen, List.filterMap_append, shown_refusal_if, List.append_nil, shown_glance_ofPick]
    by_cases h : Leads p ∧ w.Shows (.ofPick m p)
    · rw [if_pos h]
      refine .inr ⟨_, _, _, rfl, rfl, rfl, rfl, rfl, ?_⟩
      constructor
      · intro hexp
        exact absurd (of_decide_eq_true hexp) (Nat.lt_irrefl _)
      · -- a method that is shown and no sink lets the turn open, so it was not admitted
        rintro ⟨hsink, hadm⟩
        have hopens := (opens_glance_ofPick w m d p).mpr
          ⟨h.1, (isSink_lineAt_eq_false_iff h.2 _).mp hsink⟩
        exact absurd hadm (hpass hopens)
    · rw [if_neg h]
      exact .inl rfl
  | descend m d p ps fs closed hopens hadm =>
    refine .inr ⟨_, _, _, rfl, seen_of_opens hopens .., rfl, rfl, rfl, ?_⟩
    have hpasses := ((opens_glance_ofPick w m d p).mp hopens).2
    exact ⟨fun _ => ⟨(isSink_lineAt_eq_false_iff hpasses.shows _).mpr hpasses, hadm⟩, fun _ => rfl⟩

theorem forall₂_openedFor_concat {past : List Sighting} {fs : List Frame} {js : List Nat}
    {v : Sighting} (h : List.Forall₂ (OpenedFor past) fs js) (hv : ∀ f ∈ fs, f.depth < v.depth) :
    List.Forall₂ (OpenedFor (past ++ [v])) fs js := by
  induction h with
  | nil => exact .nil
  | cons hf _ ih =>
    obtain ⟨hlt, hv⟩ := List.forall_mem_cons.mp hv
    exact .cons (hf.concat hlt) (ih hv)

/-- What a step shows is deeper than all frames. -/
theorem Traced.opened_seen {w : Walk} {past : List Sighting} {s t : State} {es : List Event}
    {openers : List Nat} (h : Traced past s openers) (hm : w.Moves s es t) :
    List.Forall₂ (OpenedFor (past ++ seen openers s t es)) s.stack openers := by
  rcases seen_of_move hm openers with hseen | ⟨f, fs, v, hstack, hseen, -, -, hdepth, -⟩
  · rw [hseen, List.append_nil]
    exact h.opened
  · rw [hseen]
    apply forall₂_openedFor_concat h.opened
    have hdescending := h.descending
    rw [hstack] at hdescending ⊢
    intro g hg
    rw [hdepth]
    rcases List.mem_cons.mp hg with rfl | hg
    · exact Nat.lt_succ_self _
    · exact Nat.lt_succ_of_lt ((List.pairwise_cons.mp hdescending).1 g hg)

theorem Traced.move {w : Walk} {past : List Sighting} {s t : State} {es : List Event}
    {openers : List Nat} (h : Traced past s openers) (hm : w.Moves s es t) :
    Traced (past ++ seen openers s t es) t (openersAfter openers s t past.length) := by
  have hopened := h.opened_seen hm
  have hdescending := h.descending
  cases hm with
  | pop m d fs closed =>
    cases hopened with
    | cons _ hfs =>
      refine ⟨(List.pairwise_cons.mp hdescending).2, ?_⟩
      simpa [openersAfter, Nat.not_lt.mpr (Nat.le_succ fs.length)] using hfs
  | pass m d p ps fs closed hpass =>
    refine ⟨List.pairwise_cons.mpr (List.pairwise_cons.mp hdescending), ?_⟩
    cases hopened with
    | cons hf hfs => simpa [openersAfter] using ⟨⟨hf.sighted, hf.last⟩, hfs⟩
  | descend m d p ps fs closed hopens hadm =>
    obtain ⟨habove, hrest⟩ := List.pairwise_cons.mp hdescending
    refine ⟨List.pairwise_cons.mpr ⟨?_, List.pairwise_cons.mpr ⟨habove, hrest⟩⟩, ?_⟩
    · intro g hg
      rcases List.mem_cons.mp hg with rfl | hg
      · exact Nat.lt_succ_self d
      · exact Nat.lt_succ_of_lt (habove g hg)
    · cases hopened with
      | cons hf hfs =>
        rw [openersAfter, if_pos (by simp)]
        -- the frames below keep their lines, and the new one has the line just shown
        refine .cons ?_ (.cons ⟨hf.sighted, hf.last⟩ hfs)
        rw [seen_of_opens hopens]
        exact openedFor_concat past rfl rfl rfl

theorem Sighting.HangsIn.append {vs : List Sighting} {v : Sighting} (h : v.HangsIn vs)
    (us : List Sighting) : v.HangsIn (vs ++ us) := by
  obtain ⟨j, u, hparent, hu, hline⟩ := h
  refine ⟨j, u, hparent, ?_, hline⟩
  rw [List.getElem?_append_left (List.getElem?_eq_some_iff.mp hu).1, hu]

section

variable {w : Walk} {entry : Method} {s t : State} {es : List Event} {ms : List (Method × Nat)}
  {past : List Sighting} {openers : List Nat}

end

section

variable (w : Walk) (entry : Method) (depth : Nat) (line : Option Int)

end

end CallTrace.Walk
