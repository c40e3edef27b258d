import CallTrace.ConfigError
import CallTrace.Trace.Reader

/-!
# Failures

Everything that can stop the library from giving an answer.
-/

namespace CallTrace

inductive Failure
  | invalid (v : Violation)
  | config (e : ConfigError)
  | trace (e : Trace.Error)
  | unprintable (e : Text.Unprintable)
  | writerFull
  | noFolder
deriving DecidableEq

def Failure.message : Failure → String
  | .invalid v => v.message
  | .config e => e.message
  | .trace e => e.message
  | .unprintable e => e.message
  | .writerFull => "disk full"
  | .noFolder => "no such folder"

end CallTrace
