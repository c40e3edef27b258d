import CallTrace.CallGraph

/-!
# Recorders

A recorder takes calls one after another and hands out graphs of the calls so far. A graph that was
handed out is a value of its own, which later calls do not reach.
-/

namespace CallTrace

structure Recorder where
  graph : CallGraph := .empty
  /-- The graphs handed out so far, in order. -/
  snapshots : List CallGraph := []

namespace Recorder

inductive Request
  | add (c : Call)
  | call (caller callee : Method) (line : Option Int)
  | freeze
deriving DecidableEq

/-- The call that a request records. -/
def Request.call? : Request → Option Call
  | .add c => some c
  | .call caller callee line => some (.make caller callee line)
  | .freeze => none

def record (r : Recorder) (c : Call) : Recorder := { r with graph := r.graph.record c }

/-- Hands out the graph, which is checked first. -/
def freeze (r : Recorder) : Checked Recorder := do
  let g ← r.graph.check
  return { r with snapshots := r.snapshots ++ [g] }

def step (r : Recorder) : Request → Checked Recorder
  | .add c => return r.record c
  | .call caller callee line => return r.record (.make caller callee line)
  | .freeze => r.freeze

/-- A recorder that starts with no call. -/
def run (qs : List Request) : Checked Recorder := qs.foldlM step {}

end Recorder

end CallTrace
