import CallTrace.Report.Forest
import CallTrace.Report.Listing
import CallTrace.Report.Styled

/-!
# Outlines

An outline draws a trace as a tree in colours, no wider than a given width.
-/

namespace CallTrace.Report

structure OutlineSettings where
  width : Nat := 120
  showLines : Bool := true
  markSinks : Bool := true
  hidden : List String := []
  width_ge : 20 ≤ width := by decide

/-- Settings with a width that has not been checked yet. -/
def OutlineSettings.make (width : Int) (showLines markSinks : Bool) (hidden : List String) :
    Checked OutlineSettings := do
  let ⟨h⟩ ← require (20 ≤ width) (.tooSmall .width 20 width)
  return ⟨width.toNat, showLines, markSinks, hidden, by omega⟩

def outlineTitle : String := "CALL TREE"

/-- The title in the middle of a rule. -/
def titleLine (width : Nat) : Styled :=
  let side := (width - outlineTitle.length) / 2
  styled .rule ("".pushn '─' (side - 1) ++ " ") ++ styled .bold outlineTitle ++
    styled .rule (" " ++ "".pushn '─' (width - (outlineTitle.length + 1) - side))

def countsLine (ls : List Trace.Line) : Styled :=
  styled .bold "Nodes:" ++ styled .plain " " ++ styled .number (toString ls.length) ++
    styled .plain "  " ++ styled .bold "Sinks:" ++ styled .plain " " ++
    styled .number (toString (sinkCount ls))

def label (o : OutlineSettings) (l : Trace.Line) : Styled :=
  styled .bold l.signature ++ styled .plain " " ++ styled .cyan l.className ++
    (if o.showLines ∧ l.lineNumber ≠ unknownLine then
      styled .dim (" line " ++ toString l.lineNumber) else []) ++
    (if o.markSinks ∧ l.isSink then styled .alert " SINK" else [])

/-- What stands before the first line of a label and before its further lines. -/
def guides (isLast : Bool) : String × String :=
  if isLast then ("└── ", "    ") else ("├── ", "│   ")

/-- The lines of one label below its ancestors' guides; none if they leave no room. -/
def labelLines (o : OutlineSettings) (above : String) (isLast : Bool) (l : Trace.Line) :
    List String :=
  let (first, further) := guides isLast
  let used := above.length + first.length
  if o.width ≤ used then []
  else
    match Styled.wrap (o.width - used) (label o l) with
    | [] => []
    | s :: ss => (above ++ first ++ s.write) :: ss.map fun s => above ++ further ++ s.write

def forestLines (o : OutlineSettings) (above : String) : Forest Trace.Line → List String
  | .nil => []
  | .cons l below after =>
    labelLines o above after.isNil l ++ forestLines o (above ++ (guides after.isNil).2) below ++
      forestLines o above after

def outlineHead (o : OutlineSettings) (ls : List Trace.Line) : List String :=
  ["", (titleLine o.width).write, ""] ++ (Styled.wrap o.width (countsLine ls)).map Styled.write ++
    ["", (styled .bold Trace.header).write]

def outline (o : OutlineSettings) (ls : List Trace.Line) : String :=
  Text.unlines (outlineHead o ls ++ forestLines o "" (Forest.nest Trace.Line.depth ls))

def outlineTrace (o : OutlineSettings) (trace : String) : Except Trace.Error String :=
  (Trace.read trace o.hidden).map (outline o)

end CallTrace.Report
