import CallTrace.CallSite
import CallTrace.Method

/-!
# Log entries

What the library reports about its decisions, each with its level, its name and its context.
-/

namespace CallTrace

inductive Log
  | started (entry : Method) (calls : Nat)
  | finished (entry : Method) (lines sinks : Nat)
  | aliasFallback (site : CallSite) (merged owner : String)
  | depthLimit (method : Method) (depth : Nat)
  | callMerged (site : CallSite) (target : Method)
  | groupsCollected (sites groups : Nat)
  | keyIgnored (key reason : String)
  | constructorsAdded (className : String) (count : Nat)
  | sinksAdded (count : Nat)
deriving DecidableEq

inductive Log.Value
  | text (s : String)
  | count (n : Nat)

namespace Log

def level : Log → String
  | .started .. | .finished .. => "info"
  | _ => "debug"

def event : Log → String
  | .started .. => "call_tree_started"
  | .finished .. => "call_tree_finished"
  | .aliasFallback .. => "alias_fallback"
  | .depthLimit .. => "depth_limit_reached"
  | .callMerged .. => "alias_edge_merged"
  | .groupsCollected .. => "alias_groups_collected"
  | .keyIgnored .. => "alias_key_ignored"
  | .constructorsAdded .. => "constructors_added"
  | .sinksAdded .. => "sink_methods_added"

def context : Log → List (String × Value)
  | .started entry calls => [("entry", .text entry.qualifiedName), ("edges", .count calls)]
  | .finished entry lines sinks =>
    [("entry", .text entry.qualifiedName), ("lines", .count lines), ("sinks", .count sinks)]
  | .aliasFallback site merged owner =>
    [("call_site", .text site.text), ("merged", .text merged),
      ("declaring_class", .text owner)]
  | .depthLimit method depth => [("method", .text method.qualifiedName), ("depth", .count depth)]
  | .callMerged site target =>
    [("call_site", .text site.text), ("target", .text target.qualifiedName)]
  | .groupsCollected sites groups => [("call_sites", .count sites), ("groups", .count groups)]
  | .keyIgnored key reason => [("key", .text key), ("reason", .text reason)]
  | .constructorsAdded className count =>
    [("class_name", .text className), ("count", .count count)]
  | .sinksAdded count => [("count", .count count)]

/-- The call site that an entry writes out. -/
def site? : Log → Option CallSite
  | .aliasFallback site _ _ => some site
  | .callMerged site _ => some site
  | _ => none

end Log

end CallTrace
