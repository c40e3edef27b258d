import CallTrace.Log
import CallTrace.Trace.Line

/-!
# Events of a walk

A walk writes the header and one line for each method that it shows, and it reports what it
decides. The journal holds the events in the order in which they came; it is full when the writer
takes no further write.
-/

namespace CallTrace.Walk

inductive Event
  | header
  | shown (line : Trace.Line) (method : Method)
  | logged (log : Log)
deriving DecidableEq

namespace Event

/-- What an event writes. -/
def written? : Event → Option String
  | .header => some (Trace.header ++ "\n")
  | .shown line _ => some (line.text ++ "\n")
  | .logged _ => none

def isWrite : Event → Bool
  | .logged _ => false
  | _ => true

def shown? : Event → Option (Trace.Line × Method)
  | .shown line method => some (line, method)
  | _ => none

def log? : Event → Option Log
  | .logged log => some log
  | _ => none

/-- Makes the texts of an event: the line shown, or the call site that a report writes out. -/
def print : Event → Except Text.Unprintable Unit
  | .header => return ()
  | .shown line _ => do
    let _ ← line.print
    return ()
  | .logged log => do
    let _ ← log.site?.mapM CallSite.print
    return ()

/-- The line shown can be printed, and so can the number of the site in a report. -/
def Printable : Event → Prop
  | .header => True
  | .shown line _ => line.Printable
  | .logged log => ∀ s ∈ log.site?, Text.Readable s.line

instance : (e : Event) → Decidable e.Printable
  | .header => .isTrue trivial
  | .shown line _ => inferInstanceAs (Decidable line.Printable)
  | .logged log => inferInstanceAs (Decidable (∀ s ∈ log.site?, Text.Readable s.line))

theorem print_eq_ok_iff {e : Event} : e.print = .ok () ↔ e.Printable := by
  cases e with
  | header => exact iff_of_true rfl trivial
  | shown line method =>
    simp [print, Printable, bind_eq_ok_iff, Trace.Line.print_eq_ok_iff, pure, Except.pure]
  | logged log =>
    cases hsite : log.site? with
    | none => simp [print, Printable, hsite, pure, Except.pure, bind, Except.bind]
    | some s =>
      simp [print, Printable, hsite, bind_eq_ok_iff, CallSite.print_eq_ok_iff, pure, Except.pure]

theorem printable_of_no_site {log : Log} (h : log.site? = none) : Printable (.logged log) := by
  intro s hs
  rw [h] at hs
  cases hs

theorem isSome_written? (e : Event) : e.written?.isSome = e.isWrite := by
  cases e <;> rfl

end Event

/-- The events so far, the last one first, and how many writes the writer still takes; `none`
stands for a writer without a limit. -/
structure Journal where
  past : List Event
  room : Option Nat

namespace Journal

def start (room : Option Nat) : Journal := ⟨[], room⟩

def events (j : Journal) : List Event := j.past.reverse

def push (j : Journal) (e : Event) : Journal := { j with past := e :: j.past }

/-- Adds an event; the journal is handed back as an error if the writer refuses the write. -/
def add (j : Journal) (e : Event) : Except Journal Journal :=
  if e.isWrite then
    match j.room with
    | none => .ok (j.push e)
    | some 0 => .error j
    | some (n + 1) => .ok { j.push e with room := some n }
  else .ok (j.push e)

def addAll (j : Journal) : List Event → Except Journal Journal
  | [] => .ok j
  | e :: es =>
    match j.add e with
    | .ok k => k.addAll es
    | .error k => .error k

theorem add_of_unlimited (past : List Event) (e : Event) :
    (⟨past, none⟩ : Journal).add e = .ok ⟨e :: past, none⟩ := by
  by_cases h : e.isWrite = true <;> simp [add, h, push]

theorem addAll_of_unlimited (past : List Event) (es : List Event) :
    (⟨past, none⟩ : Journal).addAll es = .ok ⟨es.reverse ++ past, none⟩ := by
  induction es generalizing past with
  | nil => rfl
  | cons e es ih => simp [addAll, add_of_unlimited, ih]

end Journal

end CallTrace.Walk
