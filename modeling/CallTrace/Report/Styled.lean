import CallTrace.Text.Blank
import CallTrace.Text.Wrap

/-!
# Styled text

Text in which each character has a style. When it is written out, a run of characters of one
style stands between the control sequences that switch the style on and off.
-/

namespace CallTrace.Report

inductive Style
  | plain
  | bold
  | dim
  | cyan
  | number
  | rule
  | alert
deriving DecidableEq

/-- The code of the control sequence that switches a style on. -/
def Style.code? : Style → Option String
  | .plain => none
  | .bold => some "1"
  | .dim => some "2"
  | .cyan => some "36"
  | .number => some "1;36"
  | .rule => some "92"
  | .alert => some "1;31"

abbrev Styled := List (Char × Style)

def styled (style : Style) (s : String) : Styled := s.toList.map (·, style)

namespace Styled

/-- The runs of characters of one style. -/
def runs (s : Styled) : List Styled := s.splitBy fun a b => a.2 = b.2

def escape : String := "\x1b["

def writeRun (r : Styled) : String :=
  let text := String.ofList (r.map Prod.fst)
  match (r.head?.map Prod.snd).bind Style.code? with
  | none => text
  | some code => escape ++ code ++ "m" ++ text ++ escape ++ "0m"

def write (s : Styled) : String := "".intercalate (s.runs.map writeRun)

def wrap (width : Nat) (s : Styled) : List Styled :=
  Text.Wrap.wrap (fun c => Text.isBlank c.1) width s

end Styled

end CallTrace.Report
