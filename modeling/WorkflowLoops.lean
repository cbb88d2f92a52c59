import WorkflowLoops.Analysis
import WorkflowLoops.Path.Order
import WorkflowLoops.Proofs.Declaration.Ports
import WorkflowLoops.Proofs.Graph.Construction
import WorkflowLoops.Proofs.Graph.Wiring
import WorkflowLoops.Proofs.Graph.Lookup
import WorkflowLoops.Proofs.Search.Trails
import WorkflowLoops.Proofs.Search.Listings
import WorkflowLoops.Proofs.Failure.Trails
import WorkflowLoops.Proofs.Failure.Routes
import WorkflowLoops.Proofs.Reset.Cycles
import WorkflowLoops.Proofs.Search.Shortcuts
import WorkflowLoops.Proofs.Failure.Consumers
import WorkflowLoops.Proofs.Driver.Walks
import WorkflowLoops.Proofs.Driver.Exploration
import WorkflowLoops.Proofs.Driver.Resolution
import WorkflowLoops.Proofs.Driver.Spots
import WorkflowLoops.Proofs.Search.States
import WorkflowLoops.Proofs.Search.Lengths
import WorkflowLoops.Proofs.Search.Pace
import WorkflowLoops.Proofs.Search.Leaves
import WorkflowLoops.Proofs.Search.Courses
import WorkflowLoops.Proofs.Search.Branches
import WorkflowLoops.Proofs.Search.Limits
import WorkflowLoops.Proofs.Driver.Agreement
import WorkflowLoops.Proofs.Declaration.Violations
import WorkflowLoops.Proofs.Walk.Levels
import WorkflowLoops.Proofs.Graph.Violations
import WorkflowLoops.Proofs.Graph.Image
import WorkflowLoops.Proofs.Graph.Renaming
import WorkflowLoops.Proofs.Search.Renaming
import WorkflowLoops.Proofs.Search.Reordering
import WorkflowLoops.Proofs.Driver.Directory
import WorkflowLoops.Proofs.Reset.Governance
import WorkflowLoops.Proofs.Driver.Extension
import WorkflowLoops.Proofs.Faults
import WorkflowLoops.Proofs.Driver.Entries
import WorkflowLoops.Proofs.Driver.Propagation
import WorkflowLoops.Proofs.Failure.Landings
import WorkflowLoops.Proofs.Failure.StopRules
import WorkflowLoops.Proofs.Reset.Rotation
import WorkflowLoops.Proofs.Failure.Suffixes
import WorkflowLoops.Proofs.Search.Termination
import WorkflowLoops.Proofs.Driver.Termination
import WorkflowLoops.Proofs.Interner.Keys
import WorkflowLoops.Proofs.Interner.Tables
import WorkflowLoops.Proofs.Drawing.Quoting
import WorkflowLoops.Proofs.Drawing.Reading
import WorkflowLoops.Proofs.Path.Changes
import WorkflowLoops.Proofs.Settings
import WorkflowLoops.Proofs.Search.Frames
