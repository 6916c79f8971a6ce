import PlistCodec.Archive.Call
import PlistCodec.Inspector.Workspace
import PlistCodec.Main
import PlistCodec.Proofs.Archive.Merging
import PlistCodec.Proofs.Archive.References
import PlistCodec.Proofs.Archive.Roots
import PlistCodec.Proofs.Opack.RoundTrip
import PlistCodec.Tlv8.Buffer
import PlistCodec.Proofs.Archive.DefaultRoot
import PlistCodec.Proofs.Archive.Embedding
import PlistCodec.Proofs.Archive.Flattening
import PlistCodec.Proofs.Archive.FlattensTo
import PlistCodec.Proofs.Archive.Instances
import PlistCodec.Proofs.Archive.Simulation
import PlistCodec.Proofs.Archive.Survival
import PlistCodec.Proofs.Archive.Meaning
import PlistCodec.Proofs.Opack.Grammar
import PlistCodec.Proofs.Opack.Recognition
import PlistCodec.Proofs.Opack.Reports
import PlistCodec.Proofs.Opack.Streaming
import PlistCodec.Proofs.Opack.Truncation
import PlistCodec.Proofs.Tree.Renaming
import PlistCodec.Proofs.Archive.Items
import PlistCodec.Proofs.Archive.Counter
import PlistCodec.Proofs.Archive.Providing
import PlistCodec.Proofs.Archive.Levels
import PlistCodec.Proofs.Archive.Fitting
import PlistCodec.Proofs.Archive.DepthLimit
import PlistCodec.Proofs.Binary64.Grid
import PlistCodec.Proofs.Binary64.Exact
import PlistCodec.Proofs.Date.ReferenceSeconds
import PlistCodec.Proofs.Opack.Writable
import PlistCodec.Proofs.Tlv8.Appending
import PlistCodec.Proofs.Archive.Paths
import PlistCodec.Proofs.Archive.Storing
import PlistCodec.Proofs.Archive.Steps
import PlistCodec.Proofs.Archive.Framing
import PlistCodec.Proofs.Archive.ClassPairs
import PlistCodec.Proofs.Archive.Reparsing
import PlistCodec.Proofs.Opack.Refusals
import PlistCodec.Proofs.Tree.Markers
import PlistCodec.Proofs.Archive.Leftovers
import PlistCodec.Proofs.Archive.MergeFailures
import PlistCodec.Proofs.Binary64.Short
import PlistCodec.Proofs.Opack.Minimal
import PlistCodec.Proofs.Archive.Properties
import PlistCodec.Proofs.Archive.Pruning
import PlistCodec.Proofs.Tlv8.Grouping
import PlistCodec.Proofs.Tlv8.Splitting
import PlistCodec.Proofs.Opack.Failures
import PlistCodec.Proofs.Opack.Size
import PlistCodec.Proofs.Opack.Frames
import PlistCodec.Proofs.Binary64.Nearest
import PlistCodec.Proofs.Date.SecondTrip
import PlistCodec.Proofs.Opack.Dates
import PlistCodec.Proofs.Opack.Interchange
import PlistCodec.Proofs.Tlv8.Capacity
import PlistCodec.Proofs.Archive.RootNames
import PlistCodec.Proofs.Except
import PlistCodec.Proofs.Json
import PlistCodec.Proofs.Inspector.Files
import PlistCodec.Proofs.Inspector.Workspace
import PlistCodec.Proofs.Inspector.Sessions
import PlistCodec.Proofs.Opack.Progress
import PlistCodec.Proofs.Date.Words
