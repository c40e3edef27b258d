import CallTrace.Failure
import CallTrace.Walk.Checks
import CallTrace.Walk.Summary
import CallTrace.Walk.Termination

/-!
# Runs

A run walks from an entry until the stack is empty or the writer refuses a write. Its events are
all that it shows to the outside. A checked run breaks off in addition at the first rule that a
call site, a line or the summary breaks, and at the first line or site that cannot be printed.
-/

namespace CallTrace.Walk

/-- Steps until the stack is empty. The journal is the error of a run whose writer was full. -/
def steps (w : Walk) (entry : Method) (s : State) (h : w.Inv entry s) (j : Journal) :
    Except Journal Journal :=
  match hs : w.step s with
  | none => .ok j
  | some (es, t) =>
    match j.addAll es with
    | .ok j => w.steps entry t (h.step hs) j
    | .error j => .error j
termination_by weight w.indexedCalls.length (w.targets entry).length s.stack
decreasing_by exact weight_step_lt h hs

/-- What a run does before its first step. -/
def opening (w : Walk) (entry : Method) (depth : Nat) (line : Option Int) : List Event × State :=
  let v := w.visit entry depth (line.getD unknownLine) none
  let first := [.logged (.started entry w.graph.calls.length), .header] ++ v.events
  if v.opens then
    let (es, s) := w.enter entry depth .start
    (first ++ es, s)
  else (first, .start)

theorem inv_opening (w : Walk) (entry : Method) (depth : Nat) (line : Option Int) :
    w.Inv entry (w.opening entry depth line).2 := by
  unfold opening
  dsimp only
  split
  · exact (Inv.start w entry).enter List.mem_cons_self
  · exact Inv.start w entry

/-- The journal of a run up to its last step. -/
def journal (w : Walk) (room : Option Nat) (entry : Method) (depth : Nat) (line : Option Int) :
    Except Journal Journal :=
  match (Journal.start room).addAll (w.opening entry depth line).1 with
  | .ok j => w.steps entry _ (w.inv_opening entry depth line) j
  | .error j => .error j

structure Run where
  events : List Event
  /-- The writer took every write. -/
  completed : Bool
deriving DecidableEq

namespace Run

def shown (r : Run) : List (Trace.Line × Method) := r.events.filterMap Event.shown?

def lines (r : Run) : List Trace.Line := r.shown.map Prod.fst

def logs (r : Run) : List Log := r.events.filterMap Event.log?

/-- What the writer took. -/
def written (r : Run) : List String := r.events.filterMap Event.written?

def text (r : Run) : String := "".intercalate r.written

def summary (r : Run) : Summary := .ofShown r.shown

/-- A run that broke off has no summary. -/
def outcome (r : Run) : Except Failure Summary :=
  if r.completed then .ok r.summary else .error .writerFull

end Run

def finished (entry : Method) (s : Summary) : Event :=
  .logged (.finished entry s.lines s.sinks.length)

/-- Walks from `entry`. A run that breaks off does not report that it finished. -/
def run (w : Walk) (room : Option Nat) (entry : Method) (depth : Nat) (line : Option Int) : Run :=
  match w.journal room entry depth line with
  | .ok j =>
    let summary := Summary.ofShown (j.events.filterMap Event.shown?)
    ⟨j.events ++ [finished entry summary], true⟩
  | .error j => ⟨j.events, false⟩

def checkedOpening (w : Walk) (entry : Method) (depth : Nat) (line : Option Int) :
    Recording State := do
  recordAll [.logged (.started entry w.graph.calls.length), .header]
  if ← w.checkedVisit entry depth (line.getD unknownLine) none then
    let (es, s) := w.enter entry depth .start
    recordAll es
    return s
  else return .start

theorem checkedOpening_eq (w : Walk) (entry : Method) (depth : Nat) (line : Option Int) :
    w.checkedOpening entry depth line =
      recordThen (w.opening entry depth line).1 (w.opening entry depth line).2 := by
  have hnowhere : ∀ c ∈ (none : Option String), c ≠ "" := by
    rintro c ⟨⟩
  rw [checkedOpening, checkedVisit_eq w entry depth (line.getD unknownLine) hnowhere, opening,
    recordThen_bind]
  dsimp only
  cases hopens : (w.visit entry depth (line.getD unknownLine) none).opens with
  | true =>
    rw [if_pos rfl, if_pos rfl, List.append_assoc, recordThen_append, recordThen_append]
    rfl
  | false =>
    rw [if_neg Bool.false_ne_true, if_neg Bool.false_ne_true, recordThen_append]
    rfl

theorem state_of_checkedOpening {w : Walk} {entry : Method} {depth : Nat} {line : Option Int}
    {s : State} {j k : Journal} (h : w.checkedOpening entry depth line j = .ok s k) :
    (w.opening entry depth line).2 = s := by
  rw [checkedOpening_eq] at h
  exact answer_of_recordThen h

/-- Steps until the stack is empty or the recording breaks off. -/
def checkedSteps (w : Walk) (entry : Method) (s : State) (h : w.Inv entry s) : Recording Unit :=
  fun j =>
    match hs : w.checkedStep s j with
    | .error f k => .error f k
    | .ok none k => .ok () k
    | .ok (some t) k =>
      have hstep : ∃ es, w.step s = some (es, t) := exists_step_of_checkedStep hs
      have ht : w.Inv entry t := hstep.elim fun _ hes => h.step hes
      w.checkedSteps entry t ht k
termination_by weight w.indexedCalls.length (w.targets entry).length s.stack
decreasing_by
  obtain ⟨_, hes⟩ := hstep
  exact weight_step_lt h hes

def checkedWalk (w : Walk) (entry : Method) (depth : Nat) (line : Option Int) : Recording Unit :=
  fun j =>
    match hs : w.checkedOpening entry depth line j with
    | .error f k => .error f k
    | .ok s k => w.checkedSteps entry s
        (state_of_checkedOpening hs ▸ w.inv_opening entry depth line) k

/-- Checks the summary of what has been shown and reports the end of the run. -/
def conclude (entry : Method) : Recording Unit := do
  let s := Summary.ofShown ((← get).events.filterMap Event.shown?)
  let summary ← Recording.check (Summary.make s.lines s.sinks s.deepest)
  record (finished entry summary)

/-- A run with a depth that has not been checked yet; a negative one is refused before anything is
written. -/
def recording (w : Walk) (entry : Method) (depth : Int) (line : Option Int) : Recording Unit := do
  let _ ← Recording.check (require (0 ≤ depth) (.tooSmall .depth 0 depth))
  w.checkedWalk entry depth.toNat line
  conclude entry

/-- A run that broke off though its writer was not full: what it had done until then. -/
structure Stopped where
  run : Run
  failure : Failure
deriving DecidableEq

def checkedRun (w : Walk) (room : Option Nat) (entry : Method) (depth : Int) (line : Option Int) :
    Except Stopped Run :=
  match w.recording entry depth line (.start room) with
  | .ok _ j => .ok ⟨j.events, true⟩
  | .error .writerFull j => .ok ⟨j.events, false⟩
  | .error f j => .error ⟨⟨j.events, false⟩, f⟩

/-- Walks into a file, which can be made only in a folder that exists. -/
def save (w : Walk) (folderExists : Bool) (entry : Method) : Except Stopped Run :=
  if folderExists then w.checkedRun none entry 0 none else .error ⟨⟨[], false⟩, .noFolder⟩

end CallTrace.Walk
