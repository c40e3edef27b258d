import CallTrace.Text.Quote

/-!
# Violations

A value that breaks a rule of its type is refused with the rule it breaks. The wording of all
rules is here.
-/

namespace CallTrace

/-- What a rule speaks about. -/
inductive Subject
  | name | declaringClass | returnType | sourceLine
  | callerClass | methodName
  | signature | className | depth
  | functionName
  | constructorName | maxDepth
  | linesWritten
  | width
  | lineNo
  | field | reason
deriving DecidableEq

def Subject.label : Subject → String
  | .name => "name"
  | .declaringClass => "declaring_class"
  | .returnType => "return_type"
  | .sourceLine => "source_line"
  | .callerClass => "caller_class"
  | .methodName => "method_name"
  | .signature => "signature"
  | .className => "class_name"
  | .depth => "depth"
  | .functionName => "function_name"
  | .constructorName => "constructor_name"
  | .maxDepth => "max_depth"
  | .linesWritten => "lines_written"
  | .width => "width"
  | .lineNo => "line_no"
  | .field => "field"
  | .reason => "reason"

inductive Violation
  | isEmpty (subject : Subject)
  | tooSmall (subject : Subject) (least : Nat) (value : Int)
  | recordLine (value : Int)
  | foreignMethods (className : String) (signatures : List String)
  | indexMismatch (calls outgoing incoming : Nat)
  | moreSinksThanLines
  | noReason
deriving DecidableEq

def Violation.message : Violation → String
  | .isEmpty subject => subject.label ++ " must not be empty"
  | .tooSmall subject least value =>
    subject.label ++ " must be >= " ++ toString least ++ ", got " ++ toString value
  | .recordLine value => "line_number must be >= 1 or -1, got " ++ toString value
  | .foreignMethods className signatures =>
    "methods not declared by " ++ className ++ ": " ++ Text.quoteAll signatures
  | .indexMismatch calls outgoing incoming =>
    "index mismatch: " ++ toString calls ++ " edges, " ++ toString outgoing ++ " outgoing, " ++
      toString incoming ++ " incoming"
  | .moreSinksThanLines => "reached_sinks cannot exceed lines_written"
  | .noReason => "reason must be non-empty string"

abbrev Checked (α : Type _) := Except Violation α

/-- Refuses unless `p` holds, and hands its proof on. -/
def require (p : Prop) [Decidable p] (v : Violation) : Checked (PLift p) :=
  if h : p then .ok ⟨h⟩ else .error v

theorem require_of {p : Prop} [Decidable p] {v : Violation} (h : p) : require p v = .ok ⟨h⟩ :=
  dif_pos h

theorem require_of_not {p : Prop} [Decidable p] {v : Violation} (h : ¬ p) :
    require p v = .error v :=
  dif_neg h

theorem require_bind_eq_ok_iff {α : Type _} {p : Prop} [Decidable p] {v : Violation}
    {next : PLift p → Checked α} {a : α} :
    (require p v >>= next) = .ok a ↔ ∃ h : p, next ⟨h⟩ = .ok a := by
  by_cases h : p
  · rw [require_of h]
    exact ⟨fun hnext => ⟨h, hnext⟩, fun ⟨_, hnext⟩ => hnext⟩
  · rw [require_of_not h]
    exact iff_of_false (fun heq => nomatch heq) fun ⟨hp, _⟩ => h hp

end CallTrace
