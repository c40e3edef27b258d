import CallTrace.Grouping
import CallTrace.Policy
import CallTrace.Walk.Event

/-!
# Visits

What a walk does when it comes to a method: whether the method is shown, under which class name,
and whether its own calls are followed.
-/

namespace CallTrace

structure Walk where
  graph : CallGraph
  policy : Policy := .empty
  grouping : Grouping := .byAlias

namespace Walk

/-- The calls that leave a method, as the grouping picks them. -/
def offers (w : Walk) (m : Method) : List Pick :=
  w.grouping.picks w.policy.classes w.policy.aliases (w.graph.callsFrom m)

/-- The name of the group of a call site, empty if there is none. -/
def groupName (w : Walk) (s : CallSite) : String := w.grouping.display (w.policy.aliases.group s)

/-- The site at which a class calls `m`; the entry of a walk is called from nowhere. -/
def siteFrom (callerClass : String) (m : Method) (line : Int) : CallSite :=
  ⟨callerClass, m.name, line⟩

/-- A group is shown only if its name has the method's own class in it. -/
def className (w : Walk) (m : Method) (line : Int) : Option String → String
  | none => m.owner
  | some callerClass =>
    let merged := w.groupName (siteFrom callerClass m line)
    if m.owner ∈ Trace.candidates merged then merged else m.owner

theorem className_ne (w : Walk) (m : Method) (line : Int) (callerClass : Option String) :
    w.className m line callerClass ≠ "" := by
  cases callerClass with
  | none => exact m.owner_ne
  | some callerClass =>
    rw [className]
    split
    · next hmem =>
      intro hempty
      have hnone : Trace.candidates "" = [""] := by decide
      rw [hempty, hnone, List.mem_singleton] at hmem
      exact m.owner_ne hmem
    · exact m.owner_ne

/-- A group name that lacks the method's own class is reported. -/
def fallback (w : Walk) (m : Method) (line : Int) : Option String → List Event
  | none => []
  | some callerClass =>
    let merged := w.groupName (siteFrom callerClass m line)
    if m.owner ∈ Trace.candidates merged ∨ merged = "" then []
    else [.logged (.aliasFallback (siteFrom callerClass m line) merged m.owner)]

inductive Verdict
  | walked
  | sink
  | hidden
deriving DecidableEq

/-- The first hidden class among the candidates decides. -/
def verdict (w : Walk) (m : Method) (className : String) : Verdict :=
  match (Trace.candidates className).find? fun c => decide (w.policy.classes.Hides c) with
  | none => .walked
  | some c => if w.policy.IsSink c m.name then .sink else .hidden

structure Visit where
  events : List Event
  /-- The calls that leave the method are to be followed. -/
  opens : Bool

def shownLine (m : Method) (className : String) (depth : Nat) (line : Int) (isSink : Bool) :
    Trace.Line :=
  ⟨m.signature, className, depth, line, isSink⟩

def visit (w : Walk) (m : Method) (depth : Nat) (line : Int) (callerClass : Option String) :
    Visit :=
  if m.name ∈ w.policy.cutMethods then ⟨[], false⟩
  else
    let name := w.className m line callerClass
    let before := w.fallback m line callerClass
    match w.verdict m name with
    | .walked => ⟨before ++ [.shown (shownLine m name depth line false) m], true⟩
    | .sink => ⟨before ++ [.shown (shownLine m name depth line true) m], false⟩
    | .hidden => ⟨before, false⟩

end Walk

end CallTrace
