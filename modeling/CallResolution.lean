import CallResolution.Handle
import CallResolution.Modifiers
import CallResolution.Invocation
import CallResolution.Program.Declaration
import CallResolution.Program.Basic
import CallResolution.Program.Load
import CallResolution.Search.Unvisited
import CallResolution.Search.Climb
import CallResolution.Search.Closure
import CallResolution.Program.Inheritance
import CallResolution.Program.Access
import CallResolution.Digraph.Basic
import CallResolution.Search.Breadth
import CallResolution.Search.Paths
import CallResolution.Digraph.View
import CallResolution.Hierarchy.Policy
import CallResolution.Hierarchy.Basic
import CallResolution.Dispatch
import CallResolution.Binary64
import CallResolution.Dot
import CallResolution.Event
import CallResolution.CallGraph.Basic
import CallResolution.CallGraph.Build
import CallResolution.CallGraph.Query
import CallResolution.CallGraph.Stats
import CallResolution.CallGraph.Drawing
import CallResolution.Proofs.Distinct
import CallResolution.Proofs.Walk
import CallResolution.Proofs.PlainWalk
import CallResolution.Proofs.Asking
import CallResolution.Proofs.History
import CallResolution.Proofs.Closures
import CallResolution.Proofs.DispatchTotal
import CallResolution.Proofs.Adjacency
import CallResolution.Proofs.Merging
import CallResolution.Proofs.Recorded
import CallResolution.Proofs.CallSites
import CallResolution.Proofs.Building
import CallResolution.Proofs.Figures
import CallResolution.Proofs.Stability
import CallResolution.Proofs.Scheduling
import CallResolution.Proofs.Lookup
import CallResolution.Proofs.VirtualDispatch
import CallResolution.Proofs.Justification
import CallResolution.Proofs.Layers
import CallResolution.Proofs.Traversal
import CallResolution.Proofs.CallChains
import CallResolution.Proofs.Editing
import CallResolution.Proofs.Ancestry
import CallResolution.Proofs.PathListing
import CallResolution.Proofs.Sources
import CallResolution.Proofs.Integrity
import CallResolution.Proofs.Mirrors
import CallResolution.Proofs.MirroredDispatch
import CallResolution.Proofs.Reordering
import CallResolution.Proofs.MirroredAnswers
import CallResolution.Proofs.Deferral
import CallResolution.Proofs.RegistrationOrder
import CallResolution.Proofs.Distances
import CallResolution.Proofs.Implementers
import CallResolution.Proofs.ReceiverOrder
import CallResolution.Proofs.AbstractDispatch
import CallResolution.Proofs.Accounting
import CallResolution.Proofs.ChainDepths
import CallResolution.Proofs.InheritedDispatch
import CallResolution.Proofs.Widening
import CallResolution.Proofs.PublicPrograms
import CallResolution.Proofs.DotText
import CallResolution.Proofs.Drawings
import CallResolution.Proofs.Refusals
import CallResolution.Proofs.SubClassOrder
import CallResolution.Proofs.Labels
