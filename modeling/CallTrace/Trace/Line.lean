import CallTrace.Call
import CallTrace.ClassFilter
import CallTrace.Text.Lines
import CallTrace.Text.Print

/-!
# Trace lines

A line of a trace shows a method at a depth: its signature, the classes that may answer and the
line of the call.
-/

namespace CallTrace.Trace

def header : String := "Call tree"

def indent : String := "  "

def classSeparator : Char := ':'

def lineMarker : String := " linenumber="

structure Line where
  signature : String
  className : String
  depth : Nat
  lineNumber : Int := unknownLine
  isSink : Bool := false
deriving DecidableEq

/-- The class names that a displayed name is made of. -/
def candidates (className : String) : List String :=
  (className.toList.splitOn classSeparator).map String.ofList

namespace Line

def check (l : Line) : Checked Line := do
  let _ ← require (l.signature ≠ "") (.isEmpty .signature)
  let _ ← require (l.className ≠ "") (.isEmpty .className)
  return l

theorem check_eq_ok_iff {l : Line} : l.check = .ok l ↔ l.signature ≠ "" ∧ l.className ≠ "" := by
  simp [check, require_bind_eq_ok_iff, pure, Except.pure]

/-- A line with a depth that has not been checked yet. -/
def make (signature className : String) (depth lineNumber : Int) (isSink : Bool) :
    Checked Line := do
  let line ← check ⟨signature, className, depth.toNat, lineNumber, isSink⟩
  let _ ← require (0 ≤ depth) (.tooSmall .depth 0 depth)
  return line

theorem make_of {signature className : String} (hs : signature ≠ "") (hc : className ≠ "")
    (depth : Nat) (lineNumber : Int) (isSink : Bool) :
    make signature className depth lineNumber isSink =
      .ok ⟨signature, className, depth, lineNumber, isSink⟩ := by
  unfold make check
  rw [require_of hs, require_of hc, require_of (Int.natCast_nonneg depth)]
  rfl

def margin (depth : Nat) : String := String.ofList (List.replicate depth indent.toList).flatten

def text (l : Line) : String :=
  margin l.depth ++ l.signature ++ " " ++ l.className ++ lineMarker ++ toString l.lineNumber

/-- Makes the text of a line. The margin comes first, so it is blamed first. -/
def print (l : Line) : Except Text.Unprintable String := do
  let margin ← Text.printCopies indent l.depth
  let number ← Text.printInteger l.lineNumber
  return margin ++ l.signature ++ " " ++ l.className ++ lineMarker ++ number

/-- The margin of the line is not too long, and its number does not have too many digits. -/
def Printable (l : Line) : Prop :=
  l.depth * indent.length ≤ Text.maxLength ∧ Text.Readable l.lineNumber

instance (l : Line) : Decidable l.Printable := inferInstanceAs (Decidable (_ ∧ _))

theorem print_eq_ok_iff {l : Line} {t : String} : l.print = .ok t ↔ l.Printable ∧ t = l.text := by
  have hindent : 0 < indent.length := by decide
  simp only [print, Printable, bind_eq_ok_iff, Text.printCopies_eq_ok_iff hindent,
    Text.printInteger_eq_ok_iff, pure, Except.pure, Except.ok.injEq]
  constructor
  · rintro ⟨_, ⟨hlength, rfl⟩, _, ⟨hreadable, rfl⟩, rfl⟩
    exact ⟨⟨hlength, hreadable⟩, rfl⟩
  · rintro ⟨⟨hlength, hreadable⟩, rfl⟩
    exact ⟨_, ⟨hlength, rfl⟩, _, ⟨hreadable, rfl⟩, rfl⟩

theorem print_of_too_deep {l : Line} (h : Text.maxLength < l.depth) :
    l.print = .error .tooManyCopies := by
  rw [print, Text.printCopies_of_lt h]
  rfl

theorem print_of_not_readable {l : Line} (hdepth : l.depth * indent.length ≤ Text.maxLength)
    (h : ¬ Text.Readable l.lineNumber) : l.print = .error .tooManyDigits := by
  have hindent : 0 < indent.length := by decide
  rw [print, (Text.printCopies_eq_ok_iff hindent).mpr ⟨hdepth, rfl⟩,
    Text.printInteger_of_not_readable h]
  rfl

def candidates (l : Line) : List String := Trace.candidates l.className

end Line

/-- A line that is printed for a hidden class can only be a sink. -/
def showsHidden (hidden : List String) (className : String) : Bool :=
  (candidates className).any fun c => decide (CoveredBy hidden c)

theorem showsHidden_eq_true_iff {hidden : List String} {className : String} :
    showsHidden hidden className = true ↔ ∃ c ∈ candidates className, CoveredBy hidden c := by
  simp [showsHidden]

/-- The text of a whole trace. -/
def render (ls : List Line) : String := Text.unlines (header :: ls.map Line.text)

end CallTrace.Trace
