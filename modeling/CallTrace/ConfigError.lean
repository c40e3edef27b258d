import CallTrace.Violation

/-!
# Configuration errors

A configuration error names the field that cannot be understood and says why.
-/

namespace CallTrace

structure ConfigError where
  field : String
  reason : String
deriving DecidableEq

namespace ConfigError

def make (field reason : String) : Checked ConfigError := do
  let _ ← require (field ≠ "") (.isEmpty .field)
  let _ ← require (reason ≠ "") (.isEmpty .reason)
  return ⟨field, reason⟩

def message (e : ConfigError) : String :=
  "Invalid configuration '" ++ e.field ++ "': " ++ e.reason

end ConfigError

end CallTrace
