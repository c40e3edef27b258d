import CallTrace.Text.Integer
import CallTrace.Text.Lines
import CallTrace.Text.Split
import CallTrace.Trace.Line

/-!
# Reading traces

A trace is its header line and then one line for each method shown; empty lines are skipped. The
first line that is malformed is blamed, with the first check that it fails.
-/

namespace CallTrace.Trace

/-- The line that is blamed, counted from one, and why. -/
structure Error where
  lineNo : Nat
  line : String
  reason : String
deriving DecidableEq

namespace Error

def make (lineNo : Int) (line reason : String) : Checked Error := do
  let _ ← require (1 ≤ lineNo) (.tooSmall .lineNo 1 lineNo)
  let _ ← require (reason ≠ "") .noReason
  return ⟨lineNo.toNat, line, reason⟩

def message (e : Error) : String :=
  "Malformed trace line " ++ toString e.lineNo ++ " (" ++ Text.quote e.line ++ "): " ++ e.reason

end Error

inductive Fault
  | header
  | oddIndent (spaces : Nat)
  | noMarker
  | notInteger (text : String)
  | notTwoWords
deriving DecidableEq

def Fault.reason : Fault → String
  | .header => "expected header " ++ Text.quote Trace.header
  | .oddIndent spaces => "odd indentation of " ++ toString spaces ++ " spaces"
  | .noMarker => "missing 'linenumber='"
  | .notInteger text => "non-integer line " ++ Text.quote text
  | .notTwoWords => "expected '<signature> <class>'"

def Fault.at (f : Fault) (lineNo : Nat) (line : List Char) : Error :=
  ⟨lineNo, String.ofList line, f.reason⟩

/-- A word of a line, which goes up to a space. -/
def IsToken (s : List Char) : Prop := s ≠ [] ∧ ' ' ∉ s

/-- The two words between the margin and the marker. -/
def words? (s : List Char) : Option (List Char × List Char) :=
  match s.splitOn ' ' with
  | [signature, className] =>
    if signature = [] ∨ className = [] then none else some (signature, className)
  | _ => none

theorem splitOn_space_eq_pair_iff {s a b : List Char} :
    s.splitOn ' ' = [a, b] ↔ s = a ++ ' ' :: b ∧ ' ' ∉ a ∧ ' ' ∉ b := by
  constructor
  · intro h
    have hjoin : [' '].intercalate [a, b] = s := by rw [← h, List.intercalate_splitOn]
    have hpieces (l : List Char) (hl : l ∈ [a, b]) : ' ' ∉ l :=
      Text.not_mem_of_mem_splitOn (h ▸ hl)
    refine ⟨?_, hpieces a (by simp), hpieces b (by simp)⟩
    simpa [List.intercalate] using hjoin.symm
  · rintro ⟨rfl, ha, hb⟩
    rw [List.splitOn_append_cons_self, List.splitOn_eq_singleton ha, List.splitOn_eq_singleton hb]
    rfl

theorem words?_eq_some_iff {s a b : List Char} :
    words? s = some (a, b) ↔ s = a ++ ' ' :: b ∧ IsToken a ∧ IsToken b := by
  have hsplit := splitOn_space_eq_pair_iff (s := s) (a := a) (b := b)
  unfold words?
  constructor
  · intro h
    split at h
    · next x y hxy =>
      simp only [Option.ite_none_left_eq_some, not_or, Option.some.injEq, Prod.mk.injEq] at h
      obtain ⟨⟨hx, hy⟩, rfl, rfl⟩ := h
      obtain ⟨heq, hsx, hsy⟩ := hsplit.mp hxy
      exact ⟨heq, ⟨hx, hsx⟩, ⟨hy, hsy⟩⟩
    · cases h
  · rintro ⟨heq, ha, hb⟩
    simp [hsplit.mpr ⟨heq, ha.2, hb.2⟩, ha.1, hb.1]

/-- The line at a depth, from what follows its margin. -/
def readBody (hidden : List String) (depth : Nat) (s : List Char) : Except Fault Line :=
  match Text.splitLast? lineMarker.toList s with
  | none => .error .noMarker
  | some (front, number) =>
    match Text.integer? number with
    | none => .error (.notInteger (String.ofList number))
    | some lineNumber =>
      match words? front with
      | none => .error .notTwoWords
      | some (signature, className) =>
        .ok {
          signature := String.ofList signature
          className := String.ofList className
          depth
          lineNumber
          isSink := showsHidden hidden (String.ofList className) }

/-- Reads one line; `hidden` tells which of the lines are sinks. -/
def readLine (hidden : List String) (s : List Char) : Except Fault Line :=
  let spaces := (s.takeWhile (· = ' ')).length
  if spaces % 2 = 0 then readBody hidden (spaces / 2) (s.drop spaces)
  else .error (.oddIndent spaces)

/-- Reads the lines after the header, the first of which has number `lineNo`. -/
def readLines (hidden : List String) : Nat → List (List Char) → Except Error (List Line)
  | _, [] => .ok []
  | lineNo, s :: ss =>
    if s = [] then readLines hidden (lineNo + 1) ss
    else
      match readLine hidden s with
      | .error f => .error (f.at lineNo s)
      | .ok l => (readLines hidden (lineNo + 1) ss).map (l :: ·)

def read (text : String) (hidden : List String) : Except Error (List Line) :=
  match Text.lines text.toList with
  | [] => .error (Fault.header.at 1 [])
  | s :: ss =>
    if s = header.toList then readLines hidden 2 ss else .error (Fault.header.at 1 s)

end CallTrace.Trace
