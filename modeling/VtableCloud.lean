import VtableCloud.Main
import VtableCloud.Proofs.Arrangement.Intervals
import VtableCloud.Proofs.Arrangement.Turns
import VtableCloud.Proofs.CommandLine.Arguments
import VtableCloud.Proofs.CommandLine.LogFlags
import VtableCloud.Proofs.Hierarchy.Graphviz
import VtableCloud.Proofs.Hierarchy.Preorder
import VtableCloud.Proofs.Hierarchy.SlotLookups
import VtableCloud.Proofs.Hierarchy.TopologicalOrder
import VtableCloud.Proofs.Layout.Acceptance
import VtableCloud.Proofs.Layout.ExactRuns
import VtableCloud.Proofs.Layout.Inheritance
import VtableCloud.Proofs.Layout.Recorded
import VtableCloud.Proofs.Layout.Tightest
import VtableCloud.Proofs.Layouts.Bytes
import VtableCloud.Proofs.Layouts.Callable
import VtableCloud.Proofs.Layouts.CloneNames
import VtableCloud.Proofs.Layouts.Dispatch
import VtableCloud.Proofs.Layouts.Emitted
import VtableCloud.Proofs.Layouts.Functions
import VtableCloud.Proofs.Layouts.Independence
import VtableCloud.Proofs.Layouts.Undefined
import VtableCloud.Proofs.Range.Decomposition
import VtableCloud.Proofs.Record.Earliest
import VtableCloud.Proofs.Record.Json
