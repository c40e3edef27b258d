import CallTrace.Proofs.Alias.Groups
import CallTrace.Proofs.Walk.RunUnfolding

/-!
# Arrivals

A walk arrives at a method by a call, or at its entry from nowhere. Where it arrives decides
whether the method passes the filters, whether it is shown, and in which line.
-/

namespace CallTrace.Walk

structure Arrival where
  method : Method
  line : Int
  callerClass : Option String

namespace Arrival

def entry (m : Method) (line : Option Int) : Arrival := ⟨m, line.getD unknownLine, none⟩

def ofCall (c : Call) : Arrival := ⟨c.callee, c.lineNumber, some c.caller.owner⟩

/-- Where a pick of `m` leads. -/
def ofPick (m : Method) (p : Pick) : Arrival := ⟨p.call.callee, p.call.lineNumber, some m.owner⟩

theorem ofPick_eq_ofCall {m : Method} {p : Pick} (hc : p.call.caller = m) :
    ofPick m p = ofCall p.call := by
  subst hc
  rfl

end Arrival

/-- The class name under which the method is shown. -/
def nameAt (w : Walk) (a : Arrival) : String := w.className a.method a.line a.callerClass

/-- A name depends on the groups alone. -/
theorem nameAt_congr {w v : Walk} (h : w.groupName = v.groupName) (a : Arrival) :
    w.nameAt a = v.nameAt a := by
  rw [nameAt, nameAt]
  cases a.callerClass with
  | none => rfl
  | some callerClass => rw [className, className, h]

/-- A callee is shown with its whole group if its class is in the group, and otherwise under its
class alone. -/
theorem nameAt_ofCall {w : Walk} {c : Call} (hdisplay : w.grouping.display = Grouping.joined)
    (hplain : ∀ n ∈ w.policy.aliases.group (.ofCall c), Trace.Plain n) :
    w.nameAt (.ofCall c) =
      if c.callee.owner ∈ w.policy.aliases.group (.ofCall c) then
        Grouping.joined (w.policy.aliases.group (.ofCall c))
      else c.callee.owner := by
  have hmem := Grouping.mem_candidates_joined hplain c.callee.owner_ne
  simp only [nameAt, Arrival.ofCall, className, groupName, hdisplay]
  exact ite_congr (propext hmem) (fun _ => rfl) fun _ => rfl

def verdictAt (w : Walk) (a : Arrival) : Verdict := w.verdict a.method (w.nameAt a)

/-- Only the filters and the sinks have a say in a verdict. -/
theorem verdict_congr {w v : Walk} (hclasses : w.policy.classes = v.policy.classes)
    (hsinks : w.policy.sinks = v.policy.sinks) (m : Method) (className : String) :
    w.verdict m className = v.verdict m className := by
  simp only [verdict, Policy.IsSink, Policy.sinkMethods, hclasses, hsinks]
  rfl

theorem verdictAt_congr {w v : Walk} (hgroups : w.groupName = v.groupName)
    (hclasses : w.policy.classes = v.policy.classes) (hsinks : w.policy.sinks = v.policy.sinks)
    (a : Arrival) : w.verdictAt a = v.verdictAt a := by
  rw [verdictAt, verdictAt, nameAt_congr hgroups, verdict_congr hclasses hsinks]

/-- Neither the name of the method nor its class is filtered out. -/
def Passes (w : Walk) (a : Arrival) : Prop :=
  a.method.name ∉ w.policy.cutMethods ∧ w.verdictAt a = .walked

instance (w : Walk) (a : Arrival) : Decidable (w.Passes a) := inferInstanceAs (Decidable (_ ∧ _))

/-- The method is shown, be it only as a sink. -/
def Shows (w : Walk) (a : Arrival) : Prop :=
  a.method.name ∉ w.policy.cutMethods ∧ w.verdictAt a ≠ .hidden

instance (w : Walk) (a : Arrival) : Decidable (w.Shows a) := inferInstanceAs (Decidable (_ ∧ _))

theorem Passes.shows {w : Walk} {a : Arrival} (h : w.Passes a) : w.Shows a :=
  ⟨h.1, by rw [h.2]; exact Verdict.noConfusion⟩

theorem verdict_eq_walked_iff {w : Walk} {m : Method} {className : String} :
    w.verdict m className = .walked ↔
      ∀ n ∈ Trace.candidates className, ¬ w.policy.classes.Hides n := by
  rw [verdict]
  constructor
  · intro h
    split at h
    · next hnone => simpa using List.find?_eq_none.mp hnone
    · split at h <;> cases h
  · intro h
    have hnone : (Trace.candidates className).find?
        (fun c => decide (w.policy.classes.Hides c)) = none :=
      List.find?_eq_none.mpr (by simpa using h)
    rw [hnone]

theorem verdictAt_eq_walked_iff {w : Walk} {a : Arrival} :
    w.verdictAt a = .walked ↔
      ∀ n ∈ Trace.candidates (w.nameAt a), ¬ w.policy.classes.Hides n :=
  verdict_eq_walked_iff

/-- A method is shown under its own class or under a name of which its class is a candidate. -/
theorem nameAt_eq_owner_or_mem (w : Walk) (a : Arrival) :
    w.nameAt a = a.method.owner ∨ a.method.owner ∈ Trace.candidates (w.nameAt a) := by
  rw [nameAt]
  cases a.callerClass with
  | none => exact .inl rfl
  | some callerClass =>
    rw [className]
    split
    · next hmerged => exact .inr hmerged
    · exact .inl rfl

/-- Under whichever name a method is shown, its own class is one of the candidates. -/
theorem owner_mem_candidates (w : Walk) {a : Arrival} (h : Trace.Plain a.method.owner) :
    a.method.owner ∈ Trace.candidates (w.nameAt a) := by
  rcases w.nameAt_eq_owner_or_mem a with hname | hmem
  · rw [hname, Trace.candidates_of_plain h]
    exact List.mem_singleton.mpr rfl
  · exact hmem

theorem Passes.not_hides {w : Walk} {a : Arrival} (h : w.Passes a)
    (hplain : Trace.Plain a.method.owner) : ¬ w.policy.classes.Hides a.method.owner :=
  verdictAt_eq_walked_iff.mp h.2 _ (w.owner_mem_candidates hplain)

/-- What passes under the name of a group passes under its own as well. -/
theorem Passes.entry {w : Walk} {a : Arrival} (h : w.Passes a) (line : Option Int) :
    w.Passes (.entry a.method line) := by
  refine ⟨h.1, ?_⟩
  rcases w.nameAt_eq_owner_or_mem a with hname | hmem
  · have hwalked : w.verdict a.method (w.nameAt a) = .walked := h.2
    rw [hname] at hwalked
    exact hwalked
  · have hown : Trace.candidates (w.nameAt (.entry a.method line)) = [a.method.owner] :=
      Trace.candidates_of_plain (Trace.plain_of_mem_candidates hmem)
    rw [verdictAt_eq_walked_iff, hown, List.forall_mem_singleton]
    exact verdictAt_eq_walked_iff.mp h.2 _ hmem

/-- The line of an arrival at depth `d`, with the method shown. -/
def lineAt (w : Walk) (d : Nat) (a : Arrival) : Trace.Line × Method :=
  (shownLine a.method (w.nameAt a) d a.line (w.verdictAt a = .sink), a.method)

/-- A line depends on the groups, the filters and the sinks alone. -/
theorem lineAt_congr {w v : Walk} (hgroups : w.groupName = v.groupName)
    (hclasses : w.policy.classes = v.policy.classes) (hsinks : w.policy.sinks = v.policy.sinks)
    (d : Nat) (a : Arrival) : w.lineAt d a = v.lineAt d a := by
  rw [lineAt, lineAt, nameAt_congr hgroups, verdictAt_congr hgroups hclasses hsinks]

theorem className_lineAt (w : Walk) (d : Nat) (a : Arrival) :
    (w.lineAt d a).1.className = w.nameAt a :=
  rfl

theorem candidates_lineAt (w : Walk) (d : Nat) (a : Arrival) :
    (w.lineAt d a).1.candidates = Trace.candidates (w.nameAt a) :=
  rfl

theorem isSink_lineAt_eq_false_iff {w : Walk} {a : Arrival} (h : w.Shows a) (d : Nat) :
    (w.lineAt d a).1.isSink = false ↔ w.Passes a := by
  have hsink : (w.lineAt d a).1.isSink = false ↔ w.verdictAt a ≠ .sink := decide_eq_false_iff_not
  rw [hsink, Passes, and_iff_right h.1]
  have hshown := h.2
  cases hverdict : w.verdictAt a with
  | walked => simp
  | sink => simp
  | hidden => exact absurd hverdict hshown

/-- What is seen of a line by those who leave the sinks out. -/
def walkedLine? (l : Trace.Line × Method) : Option (Trace.Line × Method) :=
  Option.guard (fun l => !l.1.isSink) l

theorem filterMap_walkedLine? (ls : List (Trace.Line × Method)) :
    ls.filterMap walkedLine? = ls.filter fun l => !l.1.isSink :=
  congrFun List.filterMap_eq_filter ls

theorem filterMap_walkedLine?_own (w : Walk) (d : Nat) (a : Arrival) :
    (if w.Shows a then [w.lineAt d a] else []).filterMap walkedLine? =
      if w.Passes a then [w.lineAt d a] else [] := by
  by_cases hshows : w.Shows a
  · have hsink := isSink_lineAt_eq_false_iff hshows d
    by_cases hpass : w.Passes a
    · simp [hshows, hpass, walkedLine?, Option.guard, hsink.mpr hpass]
    · have hmarked : (w.lineAt d a).1.isSink = true := by simpa using mt hsink.mp hpass
      simp [hshows, hpass, walkedLine?, Option.guard, hmarked]
  · have hpass : ¬ w.Passes a := fun h => hshows h.shows
    simp [hshows, hpass]

/-- The visit that an arrival leads to. -/
def visitAt (w : Walk) (d : Nat) (a : Arrival) : Visit :=
  w.visit a.method d a.line a.callerClass

theorem visitAt_of_cut {w : Walk} {a : Arrival} (h : a.method.name ∈ w.policy.cutMethods) (d : Nat) :
    w.visitAt d a = ⟨[], false⟩ :=
  if_pos h

theorem visitAt_of_not_cut {w : Walk} {a : Arrival} (h : a.method.name ∉ w.policy.cutMethods)
    (d : Nat) :
    w.visitAt d a = ⟨w.fallback a.method a.line a.callerClass ++
        (if w.verdictAt a = .hidden then [] else [.shown (w.lineAt d a).1 a.method]),
      decide (w.verdictAt a = .walked)⟩ := by
  have hverdict : w.verdict a.method (w.className a.method a.line a.callerClass) = w.verdictAt a :=
    rfl
  rw [visitAt, visit, if_neg h, lineAt]
  dsimp only
  rw [hverdict]
  cases w.verdictAt a with
  | walked => rfl
  | sink => rfl
  | hidden => simp

theorem opens_visitAt (w : Walk) (d : Nat) (a : Arrival) :
    (w.visitAt d a).opens = true ↔ w.Passes a := by
  by_cases h : a.method.name ∈ w.policy.cutMethods
  · simp [visitAt_of_cut h, Passes, h]
  · simp [visitAt_of_not_cut h, Passes, h]

theorem shown_fallback (w : Walk) (m : Method) (line : Int) (callerClass : Option String) :
    (w.fallback m line callerClass).filterMap Event.shown? = [] := by
  cases callerClass with
  | none => rfl
  | some cls =>
    unfold fallback
    dsimp only
    split <;> rfl

theorem shown_visitAt (w : Walk) (d : Nat) (a : Arrival) :
    (w.visitAt d a).events.filterMap Event.shown? = if w.Shows a then [w.lineAt d a] else [] := by
  by_cases h : a.method.name ∈ w.policy.cutMethods
  · simp [visitAt_of_cut h, Shows, h]
  · by_cases hv : w.verdictAt a = .hidden
    · simp [visitAt_of_not_cut h, Shows, h, hv, shown_fallback]
    · simp [visitAt_of_not_cut h, Shows, h, hv, shown_fallback, Event.shown?, lineAt]

theorem shown_refusal (w : Walk) (closed : List Method) (m : Method) (d : Nat) :
    (w.refusal closed m d).filterMap Event.shown? = [] := by
  rw [refusal]
  split <;> rfl

theorem shown_refusal_if (w : Walk) (closed : List Method) (m : Method) (d : Nat) (opens : Bool) :
    (if opens then w.refusal closed m d else []).filterMap Event.shown? = [] := by
  cases opens with
  | false => rfl
  | true => exact shown_refusal w closed m d

theorem shown_opening (w : Walk) (entry : Method) (depth : Nat) (line : Option Int) :
    (w.opening entry depth line).1.filterMap Event.shown? =
      if w.Shows (.entry entry line) then [w.lineAt depth (.entry entry line)] else [] := by
  have hvisit := shown_visitAt w depth (.entry entry line)
  rw [opening_eq, List.filterMap_append, List.filterMap_append, shown_refusal_if, List.append_nil]
  exact hvisit

theorem expands_iff {w : Walk} {entry : Method} {depth : Nat} {line : Option Int} :
    w.Expands entry depth line ↔ w.Passes (.entry entry line) ∧ w.Admits [] entry depth :=
  and_congr_left' (opens_visitAt w depth (.entry entry line))

/-- The pick sends the walk to another method. -/
def Leads : Pick → Prop
  | .merge _ => False
  | .follow c => ¬ c.IsSelfCall

instance : DecidablePred Leads
  | .merge _ => inferInstanceAs (Decidable False)
  | .follow c => inferInstanceAs (Decidable (¬ c.IsSelfCall))

theorem eq_follow_of_leads {p : Pick} (h : Leads p) : p = .follow p.call := by
  cases p with
  | merge c => exact h.elim
  | follow c => rfl

section

variable {w : Walk} {m : Method} {p : Pick}

theorem glance_eq_visitAt (h : Leads p) (m : Method) (d : Nat) :
    w.glance m d p = w.visitAt (d + 1) (.ofPick m p) := by
  cases p with
  | merge c => exact h.elim
  | follow c => exact if_neg h

theorem glance_of_leads (hc : p.call.caller = m) (h : Leads p) (d : Nat) :
    w.glance m d p = w.visitAt (d + 1) (.ofCall p.call) := by
  rw [glance_eq_visitAt h, Arrival.ofPick_eq_ofCall hc]

theorem glance_of_not_leads (h : ¬ Leads p) (m : Method) (d : Nat) :
    (w.glance m d p).opens = false ∧ (w.glance m d p).events.filterMap Event.shown? = [] := by
  cases p with
  | merge c => exact ⟨rfl, rfl⟩
  | follow c =>
    rw [glance, if_pos (Decidable.not_not.mp h)]
    exact ⟨rfl, rfl⟩

theorem opens_glance_ofPick (w : Walk) (m : Method) (d : Nat) (p : Pick) :
    (w.glance m d p).opens = true ↔ Leads p ∧ w.Passes (.ofPick m p) := by
  by_cases h : Leads p
  · rw [glance_eq_visitAt h, opens_visitAt]
    exact (and_iff_right h).symm
  · simp [glance_of_not_leads h, h]

theorem shown_glance_ofPick (w : Walk) (m : Method) (d : Nat) (p : Pick) :
    (w.glance m d p).events.filterMap Event.shown? =
      if Leads p ∧ w.Shows (.ofPick m p) then [w.lineAt (d + 1) (.ofPick m p)] else [] := by
  by_cases h : Leads p
  · simp [glance_eq_visitAt h, shown_visitAt, h]
  · simp [glance_of_not_leads h, h]

theorem filterMap_walkedLine?_glance (w : Walk) (m : Method) (d : Nat) (p : Pick) :
    ((w.glance m d p).events.filterMap Event.shown?).filterMap walkedLine? =
      if (w.glance m d p).opens = true then [w.lineAt (d + 1) (.ofPick m p)] else [] := by
  by_cases h : Leads p
  · rw [glance_eq_visitAt h, shown_visitAt, filterMap_walkedLine?_own]
    simp only [opens_visitAt]
  · simp [glance_of_not_leads h]

theorem opens_glance (hc : p.call.caller = m) (d : Nat) :
    (w.glance m d p).opens = true ↔ Leads p ∧ w.Passes (.ofCall p.call) := by
  rw [opens_glance_ofPick, Arrival.ofPick_eq_ofCall hc]

theorem shown_glance (hc : p.call.caller = m) (d : Nat) :
    (w.glance m d p).events.filterMap Event.shown? =
      if Leads p ∧ w.Shows (.ofCall p.call) then [w.lineAt (d + 1) (.ofCall p.call)] else [] := by
  rw [shown_glance_ofPick, Arrival.ofPick_eq_ofCall hc]

end

end CallTrace.Walk
