import ChunkWatch.Main
import ChunkWatch.Proofs.Path.Order
import ChunkWatch.Proofs.Watch.Classify
import ChunkWatch.Proofs.Watch.Run
import ChunkWatch.Proofs.Watch.Delivery
import ChunkWatch.Proofs.Extract
import ChunkWatch.Proofs.Ignore.Cache
import ChunkWatch.Proofs.FileSystem.Entries
import ChunkWatch.Proofs.FileSystem.Resolve
import ChunkWatch.Proofs.FileSystem.Change
import ChunkWatch.Proofs.Walk
import ChunkWatch.Proofs.Watch.Removal
import ChunkWatch.Proofs.Watch.Handling
import ChunkWatch.Proofs.Watch.Closing
import ChunkWatch.Proofs.FileSystem.Above
import ChunkWatch.Proofs.Watch.Return
import ChunkWatch.Proofs.Classifier
import ChunkWatch.Proofs.Walk.Agreement
import ChunkWatch.Proofs.Syntax.Preorder
import ChunkWatch.Proofs.Query.Captures
import ChunkWatch.Proofs.Extract.Emission
import ChunkWatch.Proofs.Extract.Represented
import ChunkWatch.Proofs.Extract.Geometry
import ChunkWatch.Proofs.Watch.Cancelling
import ChunkWatch.Proofs.Ignore.Current
import ChunkWatch.Proofs.Walk.Tracking
import ChunkWatch.Proofs.Walk.Renewal
import ChunkWatch.Proofs.Watch.Memory
import ChunkWatch.Proofs.Watch.Arrival
import ChunkWatch.Proofs.Watch.Quiet
import ChunkWatch.Proofs.Watch.Leftover
import ChunkWatch.Proofs.Watch.Links
import ChunkWatch.Proofs.Watch.Ledger
import ChunkWatch.Proofs.Watch.Registration
import ChunkWatch.Proofs.Watch.Likeness
import ChunkWatch.Proofs.Watch.Relevance
import ChunkWatch.Proofs.Watch.Outside
import ChunkWatch.Proofs.Watch.Turns
import ChunkWatch.Proofs.Watch.Pace
import ChunkWatch.Proofs.Query.Waiting
import ChunkWatch.Proofs.Query.Ways
import ChunkWatch.Proofs.Query.Definitions
import ChunkWatch.Proofs.Query.Reading
import ChunkWatch.Proofs.Language.Builtin
import ChunkWatch.Proofs.Extract.Reached
import ChunkWatch.Proofs.Extract.Builtin
import ChunkWatch.Proofs.Extract.Folding
import ChunkWatch.Proofs.Extract.Locality
import ChunkWatch.Proofs.Text.Order
import ChunkWatch.Proofs.Language.Faults
import ChunkWatch.Proofs.Language.Registry
import ChunkWatch.Proofs.Walk.Restriction
import ChunkWatch.Proofs.Walk.Scanning
import ChunkWatch.Proofs.Watch.Scanning
import ChunkWatch.Proofs.Walk.Visiting
import ChunkWatch.Proofs.Watch.Source
import ChunkWatch.Proofs.Watch.Starting
import ChunkWatch.Proofs.Ignore.Precedence
import ChunkWatch.Proofs.Ignore.Kind
import ChunkWatch.Proofs.Watch.Vanishing
import ChunkWatch.Proofs.Text.LowerCase
import ChunkWatch.Proofs.Language.Extensions
import ChunkWatch.Proofs.Language.TakeOver
import ChunkWatch.Proofs.Glob.Accept
import ChunkWatch.Proofs.Glob.Shape
import ChunkWatch.Proofs.Language.Roles
import ChunkWatch.Proofs.SourceFile
import ChunkWatch.Proofs.Watch.Draining
import ChunkWatch.Proofs.Watch.Counting
import ChunkWatch.Proofs.Role
import ChunkWatch.Proofs.Text.Utf8
import ChunkWatch.Proofs.Config
import ChunkWatch.Proofs.FileSystem.Canonical
import ChunkWatch.Proofs.Path.Lexical
import ChunkWatch.Proofs.CommandLine
