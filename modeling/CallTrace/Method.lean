import CallTrace.Violation

/-!
# Methods

A method is a value: two methods with equal fields are the same method. `MethodDraft` holds
fields that have not been checked yet.
-/

namespace CallTrace

structure Method where
  name : String
  owner : String
  returnType : String := "void"
  parameters : List String := []
  sourceLine : Option Nat := none
  isPublic : Bool := true
  isStatic : Bool := false
  isAbstract : Bool := false
  exceptions : List String := []
  name_ne : name ≠ "" := by decide
  owner_ne : owner ≠ "" := by decide
  returnType_ne : returnType ≠ "" := by decide
  sourceLine_pos : ∀ n ∈ sourceLine, 0 < n := by decide
deriving DecidableEq

structure MethodDraft where
  name : String
  owner : String
  returnType : String := "void"
  parameters : List String := []
  sourceLine : Option Int := none
  isPublic : Bool := true
  isStatic : Bool := false
  isAbstract : Bool := false
  exceptions : List String := []

namespace Method

/-- The short form that a trace shows. -/
def signature (m : Method) : String := m.name ++ "(" ++ ",".intercalate m.parameters ++ ")"

def typedSignature (m : Method) : String := m.returnType ++ " " ++ m.signature

/-- The form that names the method among all classes. -/
def qualifiedName (m : Method) : String := "[" ++ m.owner ++ "]." ++ m.signature

def hasBody (m : Method) : Bool := !m.isAbstract

theorem signature_ne (m : Method) : m.signature ≠ "" := by
  intro h
  have := congrArg String.length h
  simp [signature] at this

end Method

namespace MethodDraft

def checkLine (line : Option Int) : Checked { l : Option Nat // ∀ n ∈ l, 0 < n } :=
  match line with
  | none => .ok ⟨none, by simp⟩
  | some n =>
    if h : 1 ≤ n then .ok ⟨some n.toNat, by simp; omega⟩
    else .error (.tooSmall .sourceLine 1 n)

/-- The method with these fields; the first rule that they break is the one reported. -/
def toMethod (d : MethodDraft) : Checked Method := do
  let ⟨name_ne⟩ ← require (d.name ≠ "") (.isEmpty .name)
  let ⟨owner_ne⟩ ← require (d.owner ≠ "") (.isEmpty .declaringClass)
  let ⟨returnType_ne⟩ ← require (d.returnType ≠ "") (.isEmpty .returnType)
  let ⟨sourceLine, sourceLine_pos⟩ ← checkLine d.sourceLine
  return {
    name := d.name, owner := d.owner, returnType := d.returnType, parameters := d.parameters,
    sourceLine, isPublic := d.isPublic, isStatic := d.isStatic, isAbstract := d.isAbstract,
    exceptions := d.exceptions, name_ne, owner_ne, returnType_ne, sourceLine_pos }

end MethodDraft

end CallTrace
