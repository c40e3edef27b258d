import CallTrace.Method

/-!
# Calls

A call leads from a place in one method to a method that it may reach. A polymorphic place has
one call for each method that may answer.
-/

namespace CallTrace

/-- Written where a call has no line. -/
def unknownLine : Int := -1

structure Call where
  caller : Method
  callee : Method
  line : Option Nat := none
  line_pos : ∀ n ∈ line, 0 < n := by decide

namespace Call

theorem ext_iff {c d : Call} :
    c = d ↔ c.caller = d.caller ∧ c.callee = d.callee ∧ c.line = d.line := by
  cases c
  cases d
  simp

instance : DecidableEq Call := fun _ _ => decidable_of_iff' _ ext_iff

/-- Lines are counted from one, so any other number says that the line is not known. -/
def make (caller callee : Method) (line : Option Int) : Call where
  caller
  callee
  line := (line.map Int.toNat).filter (0 < ·)
  line_pos := by simp

def lineNumber (c : Call) : Int :=
  match c.line with
  | some n => n
  | none => unknownLine

def IsSelfCall (c : Call) : Prop := c.caller = c.callee

instance (c : Call) : Decidable c.IsSelfCall := inferInstanceAs (Decidable (c.caller = c.callee))

def text (c : Call) : String :=
  c.caller.qualifiedName ++ " → " ++ c.callee.qualifiedName ++ ":" ++ toString c.lineNumber

theorem lineNumber_make_of_pos {caller callee : Method} {n : Int} (h : 0 < n) :
    (make caller callee (some n)).lineNumber = n := by
  have : 0 < n.toNat := by omega
  simp [make, lineNumber, Option.filter, this]
  omega

theorem lineNumber_make_of_nonpos {caller callee : Method} {n : Int} (h : n ≤ 0) :
    (make caller callee (some n)).lineNumber = unknownLine := by
  have : ¬ 0 < n.toNat := by omega
  simp [make, lineNumber, Option.filter, this]

end Call

end CallTrace
