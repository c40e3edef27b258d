import CallTrace.Failure
import CallTrace.MethodRecord
import CallTrace.Policy.Checks
import CallTrace.Recorder
import CallTrace.Report.Outline
import CallTrace.Version
import CallTrace.Walk.Run
import CallTrace.Proofs.Walk.Recursion
import CallTrace.Proofs.Graph.Index
import CallTrace.Proofs.Walk.Arrivals
import CallTrace.Proofs.Walk.Paths
import CallTrace.Proofs.Alias.Picks
import CallTrace.Proofs.Walk.Expansions
import CallTrace.Proofs.Walk.Merging
import CallTrace.Proofs.Walk.PathLines
import CallTrace.Proofs.Walk.HiddenClasses
import CallTrace.Proofs.Walk.LostGroups
import CallTrace.Proofs.Walk.Loop
import CallTrace.Proofs.Trace.RoundTrip
import CallTrace.Trace.Checks
import CallTrace.Proofs.Walk.ReadBack
import CallTrace.Proofs.Walk.Coverage
import CallTrace.Proofs.Walk.CallLines
import CallTrace.Proofs.Walk.DepthCut
import CallTrace.Proofs.Walk.RunEvents
import CallTrace.Proofs.Walk.WriteFailure
import CallTrace.Proofs.Walk.GroupNames
import CallTrace.Proofs.Walk.OpaqueMethods
import CallTrace.Proofs.Walk.Blocks
import CallTrace.Proofs.Walk.Pruning
import CallTrace.Proofs.Walk.Validity
import CallTrace.Proofs.Report.Listing
import CallTrace.Proofs.Walk.CallerOrder
import CallTrace.Proofs.Report.Nesting
import CallTrace.Proofs.Walk.Sightings
import CallTrace.Proofs.Report.CallTree
import CallTrace.Proofs.Alias.Positions
import CallTrace.Proofs.Walk.HidingMore
import CallTrace.Proofs.Alias.SiteTargets
import CallTrace.Proofs.Report.Rows
import CallTrace.Proofs.Walk.DepthBound
import CallTrace.Proofs.Walk.CutMethods
import CallTrace.Proofs.Walk.Subtrees
import CallTrace.Proofs.Walk.IdleAliases
import CallTrace.Proofs.Config.SiteText
import CallTrace.Proofs.Config.Entries
import CallTrace.Proofs.Graph.Recorder
import CallTrace.Proofs.Report.Hanging
import CallTrace.Proofs.Walk.DeeperStart
