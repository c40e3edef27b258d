import CallTrace.ClassDecl
import CallTrace.Call
import CallTrace.Log

/-!
# Method records

What is kept of a method for other reports, with its traits on demand.
-/

namespace CallTrace

structure MethodTraits where
  owner : String
  hasBody : Bool
  isPublic : Bool
  isStatic : Bool
  exceptions : List String := []
deriving DecidableEq

def MethodTraits.ofMethod (m : Method) : MethodTraits where
  owner := m.owner
  hasBody := m.hasBody
  isPublic := m.isPublic
  isStatic := m.isStatic
  exceptions := m.exceptions

structure MethodRecord where
  name : String
  source : String
  line : Int
  returnType : String
  parameters : List String := []
  traits : Option MethodTraits := none
deriving DecidableEq

namespace MethodRecord

def arity (r : MethodRecord) : Nat := r.parameters.length

/-- A line is counted from one, or not known. -/
def IsLine (n : Int) : Prop := 1 ≤ n ∨ n = unknownLine

instance (n : Int) : Decidable (IsLine n) := inferInstanceAs (Decidable (_ ∨ _))

def check (r : MethodRecord) : Checked MethodRecord := do
  let _ ← require (r.name ≠ "") (.isEmpty .functionName)
  let _ ← require (IsLine r.line) (.recordLine r.line)
  return r

def ofMethod (m : Method) (extended : Bool) : MethodRecord where
  name := m.qualifiedName
  source := m.owner
  line :=
    match m.sourceLine with
    | some n => n
    | none => unknownLine
  returnType := m.returnType
  parameters := m.parameters
  traits := if extended then some (.ofMethod m) else none

/-- The records of the constructors of a class, which are the methods of one name. -/
def ofConstructors (c : ClassDecl) (constructorName : String) : List MethodRecord × Log :=
  let records := (c.named constructorName).map (ofMethod · true)
  (records, .constructorsAdded c.name records.length)

/-- One record for each sink, repetitions included. -/
def ofSinks (sinks : List Method) (extended : Bool) : List MethodRecord × Log :=
  let records := sinks.map (ofMethod · extended)
  (records, .sinksAdded records.length)

end MethodRecord

end CallTrace
