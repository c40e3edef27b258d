import CallTrace.Call
import CallTrace.Table

/-!
# Call graphs

A call graph holds its calls in the order in which they were recorded, and two indexes: the calls
that leave a method and the calls that enter it, in the same order.
-/

namespace CallTrace

structure CallGraph where
  calls : List Call
  outgoing : Table Method (List Call)
  incoming : Table Method (List Call)

namespace CallGraph

def empty : CallGraph := ⟨[], .empty, .empty⟩

def indexed (index : Table Method (List Call)) : Nat := index.values.flatten.length

/-- Each index has to hold as many calls as there are. -/
def check (g : CallGraph) : Checked CallGraph := do
  let _ ← require (indexed g.outgoing = g.calls.length ∧ indexed g.incoming = g.calls.length)
    (.indexMismatch g.calls.length (indexed g.outgoing) (indexed g.incoming))
  return g

def callsFrom (g : CallGraph) (m : Method) : List Call := (g.outgoing.get? m).getD []

def callsTo (g : CallGraph) (m : Method) : List Call := (g.incoming.get? m).getD []

/-- Every method at an end of a call, once. -/
def methods (g : CallGraph) : List Method :=
  g.outgoing.keys ++ g.incoming.keys.filter (· ∉ g.outgoing.keys)

def appendCall (c : Call) (cs : Option (List Call)) : List Call := cs.getD [] ++ [c]

def record (g : CallGraph) (c : Call) : CallGraph where
  calls := g.calls ++ [c]
  outgoing := g.outgoing.alter c.caller (appendCall c)
  incoming := g.incoming.alter c.callee (appendCall c)

def ofCalls (cs : List Call) : CallGraph := cs.foldl record empty

end CallGraph

end CallTrace
