import ModelWorkspace.Document.Transfer
import ModelWorkspace.Token.Session
import ModelWorkspace.Workspace.Completion
import ModelWorkspace.Workspace.Worker
import ModelWorkspace.Workspace.Update
import ModelWorkspace.Proofs.Index.Coherence
import ModelWorkspace.Proofs.Index.Insert
import ModelWorkspace.Proofs.Package.Declared
import ModelWorkspace.Proofs.Link.Visibility
import ModelWorkspace.Proofs.Link.Locality
import ModelWorkspace.Proofs.Element.Walk
import ModelWorkspace.Proofs.Element.Steps
import ModelWorkspace.Proofs.Element.Lowering
import ModelWorkspace.Proofs.Index.Batch
import ModelWorkspace.Proofs.Workspace.Stages
import ModelWorkspace.Proofs.Workspace.Settled
import ModelWorkspace.Proofs.Workspace.Loading
import ModelWorkspace.Proofs.Workspace.Prepared
import ModelWorkspace.Proofs.Workspace.Indexing
import ModelWorkspace.Proofs.Workspace.Linking
import ModelWorkspace.Proofs.Workspace.Run
import ModelWorkspace.Proofs.Text.Location
import ModelWorkspace.Proofs.Workspace.Report
import ModelWorkspace.Proofs.Workspace.Pruning
import ModelWorkspace.Proofs.Workspace.Mirror
import ModelWorkspace.Proofs.Workspace.Faithful
import ModelWorkspace.Proofs.Index.Naming
import ModelWorkspace.Proofs.Workspace.History
import ModelWorkspace.Proofs.Tree.Lossless
import ModelWorkspace.Proofs.Token.Nesting
import ModelWorkspace.Proofs.Tree.Language
import ModelWorkspace.Proofs.Tree.Soundness
import ModelWorkspace.Proofs.Tree.Completeness
import ModelWorkspace.Proofs.Workspace.Deletion
import ModelWorkspace.Proofs.Name.Segments
import ModelWorkspace.Proofs.Index.Completeness
import ModelWorkspace.Proofs.Workspace.Texts
import ModelWorkspace.Proofs.Workspace.Completeness
import ModelWorkspace.Proofs.Name.Containment
import ModelWorkspace.Proofs.Index.Containment
import ModelWorkspace.Proofs.Link.Candidates
import ModelWorkspace.Proofs.Link.Labels
import ModelWorkspace.Proofs.Link.Anchors
import ModelWorkspace.Proofs.Workspace.Offers
import ModelWorkspace.Proofs.Workspace.Tracking
import ModelWorkspace.Proofs.Workspace.Progress
import ModelWorkspace.Proofs.Index.Operations
import ModelWorkspace.Proofs.Workspace.Isolation
import ModelWorkspace.Proofs.Workspace.Declarations
import ModelWorkspace.Proofs.Json.Reads
import ModelWorkspace.Proofs.Json.Containers
import ModelWorkspace.Proofs.Tree.Extent
import ModelWorkspace.Proofs.Element.Extent
import ModelWorkspace.Proofs.Document.Transfer
import ModelWorkspace.Proofs.Token.Columns
import ModelWorkspace.Proofs.Token.Places
import ModelWorkspace.Proofs.Tree.Signal
import ModelWorkspace.Proofs.Tree.Rules
import ModelWorkspace.Proofs.Tree.Blocks
import ModelWorkspace.Proofs.Token.Signs
import ModelWorkspace.Proofs.Token.Rows
import ModelWorkspace.Proofs.Token.BlankLines
import ModelWorkspace.Proofs.Token.FinalNewline
import ModelWorkspace.Proofs.Tree.Core
import ModelWorkspace.Proofs.Tree.Agreement
import ModelWorkspace.Proofs.Tree.Simulation
import ModelWorkspace.Proofs.Tree.LineKeys
import ModelWorkspace.Proofs.Tree.Recovery
import ModelWorkspace.Proofs.Tree.LostLines
import ModelWorkspace.Proofs.Element.Unplaced
import ModelWorkspace.Proofs.Document.Invariance
import ModelWorkspace.Proofs.Token.LineEnds
import ModelWorkspace.Proofs.Token.CarriageReturns
import ModelWorkspace.Proofs.Tree.Pruned
import ModelWorkspace.Proofs.Tree.Unclosed
import ModelWorkspace.Proofs.Document.Completion
import ModelWorkspace.Proofs.Element.Conformance
import ModelWorkspace.Proofs.Element.Spans
import ModelWorkspace.Proofs.Index.Trees
import ModelWorkspace.Proofs.Link.Widening
import ModelWorkspace.Proofs.Index.Members
import ModelWorkspace.Proofs.Link.Owners
import ModelWorkspace.Proofs.Text.Lines
import ModelWorkspace.Proofs.Tree.Shape
import ModelWorkspace.Proofs.Element.Scalars
import ModelWorkspace.Proofs.Element.Sites
import ModelWorkspace.Proofs.Element.Spacing
import ModelWorkspace.Proofs.Workspace.Navigation
import ModelWorkspace.Proofs.Workspace.OneFile
import ModelWorkspace.Proofs.Workspace.Admitted
import ModelWorkspace.Proofs.Workspace.Cancellation
import ModelWorkspace.Proofs.Workspace.OpenBuffers
import ModelWorkspace.Proofs.Index.Queries
import ModelWorkspace.Proofs.Workspace.AsRead
import ModelWorkspace.Proofs.Workspace.Repetition
import ModelWorkspace.Proofs.Workspace.OwnTargets
import ModelWorkspace.Proofs.Token.CutShort
import ModelWorkspace.Proofs.Token.DottedNames
import ModelWorkspace.Proofs.Tree.CutShort
import ModelWorkspace.Proofs.Element.CutShort
import ModelWorkspace.Proofs.Text.Slices
import ModelWorkspace.Proofs.Document.CutShort
import ModelWorkspace.Proofs.Workspace.Typing
import ModelWorkspace.Proofs.Index.Undoing
import ModelWorkspace.Proofs.Workspace.Reporting
import ModelWorkspace.Proofs.Name.Clashes
import ModelWorkspace.Proofs.Workspace.Overlaps
import ModelWorkspace.Proofs.Workspace.Batches
import ModelWorkspace.Proofs.Name.Search
import ModelWorkspace.Proofs.Name.Precedence
import ModelWorkspace.Proofs.Package.Closure
import ModelWorkspace.Proofs.Package.DepthFirst
import ModelWorkspace.Proofs.Package.Components
import ModelWorkspace.Proofs.Text.LocationTree
import ModelWorkspace.Proofs.Text.Positions
import ModelWorkspace.Proofs.Package.Ownership
import ModelWorkspace.Proofs.Package.Circles
import ModelWorkspace.Proofs.Workspace.Paths
import ModelWorkspace.Proofs.Workspace.Worker
import ModelWorkspace.Proofs.Workspace.Aliases
import ModelWorkspace.Proofs.Workspace.Spellings
