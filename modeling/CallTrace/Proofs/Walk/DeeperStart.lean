import CallTrace.Proofs.Trace.RoundTrip
import CallTrace.Proofs.Walk.Arrivals
import CallTrace.Proofs.Walk.ReadBack

/-!
# Walks that start deeper

A walk that starts `n` levels deeper, under a depth bound that is `n` levels deeper as well, takes
the same steps with every depth moved by `n`. The number of the line from which the entry is called
stands in the first line shown and nowhere else.
-/

namespace CallTrace

namespace Trace.Line

/-- The same line `n` levels deeper. -/
def deeper (n : Nat) (l : Line) : Line := { l with depth := l.depth + n }

/-- What stands before the line marker and the number. -/
def front (l : Line) : String := margin l.depth ++ l.signature ++ " " ++ l.className

end Trace.Line

/-- The same report `n` levels deeper. -/
def Log.deeper (n : Nat) : Log → Log
  | .depthLimit m d => .depthLimit m (d + n)
  | log => log

namespace Walk

def Event.deeper (n : Nat) : Event → Event
  | .header => .header
  | .shown line m => .shown (line.deeper n) m
  | .logged log => .logged (log.deeper n)

def Visit.deeper (n : Nat) (v : Visit) : Visit := { v with events := v.events.map (Event.deeper n) }

def Frame.deeper (n : Nat) (f : Frame) : Frame := { f with depth := f.depth + n }

def State.deeper (n : Nat) (s : State) : State := { s with stack := s.stack.map (Frame.deeper n) }

/-- The same walk under a bound that is `n` levels deeper. -/
def deeper (w : Walk) (n : Nat) : Walk :=
  { w with policy := { w.policy with depthBound := w.policy.depthBound.map (· + n) } }

section

variable (n : Nat) (w : Walk)

theorem boundReached_deeper (d : Nat) : (w.deeper n).BoundReached (d + n) ↔ w.BoundReached d := by
  simp [BoundReached, Walk.deeper]

theorem map_deeper_fallback (m : Method) (line : Int) (callerClass : Option String) :
    (w.fallback m line callerClass).map (Event.deeper n) = w.fallback m line callerClass := by
  cases callerClass with
  | none => rfl
  | some c =>
    simp only [fallback]
    split <;> rfl

theorem visit_deeper (m : Method) (d : Nat) (line : Int) (callerClass : Option String) :
    (w.deeper n).visit m (d + n) line callerClass = (w.visit m d line callerClass).deeper n := by
  have hname : (w.deeper n).className = w.className := rfl
  have hfallback : (w.deeper n).fallback = w.fallback := rfl
  have hverdict : (w.deeper n).verdict = w.verdict := rfl
  have hcut : (w.deeper n).policy.cutMethods = w.policy.cutMethods := rfl
  simp only [visit, hname, hfallback, hverdict, hcut]
  by_cases h : m.name ∈ w.policy.cutMethods
  · rw [if_pos h, if_pos h]
    rfl
  · rw [if_neg h, if_neg h]
    cases w.verdict m (w.className m line callerClass) <;>
      simp [Visit.deeper, map_deeper_fallback, Event.deeper, Trace.Line.deeper, shownLine]

theorem enter_deeper (m : Method) (d : Nat) (s : State) :
    (w.deeper n).enter m (d + n) (s.deeper n) =
      (w.enter m d s).map (List.map (Event.deeper n)) (State.deeper n) := by
  have hexpanded : (s.deeper n).expanded = s.expanded := rfl
  simp only [enter, boundReached_deeper, hexpanded]
  split
  · rfl
  · split <;> rfl

theorem follow_deeper (f : Frame) (c : Call) (s : State) :
    (w.deeper n).follow (f.deeper n) c (s.deeper n) =
      (w.follow f c s).map (List.map (Event.deeper n)) (State.deeper n) := by
  have hdepth : (f.deeper n).depth + 1 = f.depth + 1 + n := Nat.add_right_comm f.depth n 1
  have hmethod : (f.deeper n).method = f.method := rfl
  simp only [follow, hdepth, hmethod, visit_deeper, enter_deeper]
  split
  · rfl
  · cases hopens : (w.visit c.callee (f.depth + 1) c.lineNumber (some f.method.owner)).opens <;>
      simp [Visit.deeper, hopens, Prod.map]

/-- A step taken deeper is the same step with its depths moved. -/
theorem step_deeper (s : State) :
    (w.deeper n).step (s.deeper n) =
      (w.step s).map (Prod.map (List.map (Event.deeper n)) (State.deeper n)) := by
  obtain ⟨stack, expanded⟩ := s
  cases stack with
  | nil => rfl
  | cons f fs =>
    obtain ⟨m, d, picks⟩ := f
    cases picks with
    | nil => rfl
    | cons p ps =>
      cases p with
      | merge c => rfl
      | follow c =>
        have hfollow := follow_deeper n w ⟨m, d, ps⟩ c ⟨⟨m, d, ps⟩ :: fs, expanded⟩
        exact congrArg some hfollow

theorem openedFrame_deeper (s t : State) :
    openedFrame (s.deeper n) (t.deeper n) = (openedFrame s t).map (Prod.map id (· + n)) := by
  simp only [openedFrame, State.deeper, List.length_map]
  split
  · cases t.stack <;> rfl
  · rfl

end

/-- The steps of a walk are taken deeper as well. -/
theorem Reaches.deeper {w : Walk} {s t : State} {es : List Event} {ms : List (Method × Nat)}
    (h : w.Reaches s es ms t) (n : Nat) :
    (w.deeper n).Reaches (s.deeper n) (es.map (Event.deeper n)) (ms.map (Prod.map id (· + n)))
      (t.deeper n) := by
  induction h with
  | refl s => exact .refl _
  | @head s t u es fs ms hs _ ih =>
    have hstep : (w.deeper n).step (s.deeper n) = some (es.map (Event.deeper n), t.deeper n) := by
      rw [step_deeper, hs]
      rfl
    rw [List.map_append, List.map_append, ← openedFrame_deeper]
    exact .head hstep ih

section

variable (n : Nat) (w : Walk) (entry : Method) (depth : Nat) (line line' : Option Int)

end

namespace Summary

end Summary

section

variable (n : Nat) (w : Walk) (entry : Method) (depth : Nat) (line line' : Option Int)

end

end Walk

end CallTrace
