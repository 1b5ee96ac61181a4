import FactGraph.Analyzer
import FactGraph.Builtin.Collector
import FactGraph.Builtin.Lines
import FactGraph.Builtin.Sniffer
import FactGraph.Command
import FactGraph.Command.Arguments
import FactGraph.Command.Display
import FactGraph.Commit
import FactGraph.Context
import FactGraph.Contract
import FactGraph.Decimal
import FactGraph.Diagnostic
import FactGraph.Edge
import FactGraph.Error
import FactGraph.FileSystem
import FactGraph.Findings
import FactGraph.Ledger
import FactGraph.Location
import FactGraph.Main
import FactGraph.Measure
import FactGraph.Node
import FactGraph.Path
import FactGraph.Plan
import FactGraph.Proofs.Commits
import FactGraph.Proofs.Plans
import FactGraph.Proofs.Relations
import FactGraph.Proofs.Sessions
import FactGraph.Proofs.Stores
import FactGraph.Proofs.Tables
import FactGraph.Relation
import FactGraph.Resource
import FactGraph.Resource.Archives
import FactGraph.Resource.Files
import FactGraph.Resource.Resolver
import FactGraph.Resource.Walk
import FactGraph.Roster
import FactGraph.Run
import FactGraph.Session
import FactGraph.Settings
import FactGraph.Settings.Text
import FactGraph.Shell
import FactGraph.Store
import FactGraph.Store.Query
import FactGraph.Store.Reading
import FactGraph.Store.Record
import FactGraph.Table
import FactGraph.Text.CodePage437
import FactGraph.Text.Percent
import FactGraph.Text.Split
import FactGraph.Text.Utf8
import FactGraph.Text.Whitespace
import FactGraph.Time
import FactGraph.Value
import FactGraph.Value.Text
import FactGraph.Workspace
import FactGraph.Yaml.Cursor
import FactGraph.Yaml.Node
import FactGraph.Yaml.Read
import FactGraph.Yaml.Scalar
import FactGraph.Yaml.Scan
import FactGraph.Zip.Archive
import FactGraph.Zip.Crc
import FactGraph.Zip.Inflate
import FactGraph.Proofs.Rosters
import FactGraph.Proofs.Passes
import FactGraph.Proofs.Runs
import FactGraph.Proofs.ExactlyOnce
import FactGraph.Proofs.Growth
import FactGraph.Proofs.LeastTags
import FactGraph.Proofs.ConvergenceBound
import FactGraph.Proofs.NoProgress
import FactGraph.Proofs.Failures
import FactGraph.Proofs.Interruptions
import FactGraph.Proofs.CrashConsistency
import FactGraph.Proofs.Legibility
import FactGraph.Proofs.Courses
import FactGraph.Proofs.Resumption
import FactGraph.Proofs.Sums
import FactGraph.Proofs.DoubleCounting
import FactGraph.Proofs.OrderIndependence
import FactGraph.Proofs.Additivity
import FactGraph.Proofs.LostMetrics
import FactGraph.Proofs.Reruns
import FactGraph.Proofs.FailureIsolation
import FactGraph.Proofs.Encodings
import FactGraph.Proofs.Locations
import FactGraph.Proofs.StoreIntegrity
import FactGraph.Proofs.Lookups
import FactGraph.Proofs.PackedTrees
import FactGraph.Proofs.StorageForms
import FactGraph.Proofs.InertAnalyzers
import FactGraph.Proofs.NestedArchives
import FactGraph.Proofs.ResourceTrees
import FactGraph.Proofs.ResourceFindings
import FactGraph.Proofs.ResourceStores
import FactGraph.Proofs.ResourceMetrics
import FactGraph.Proofs.LineTotals
import FactGraph.Proofs.Discovery
import FactGraph.Proofs.DroppedUpdates
import FactGraph.Proofs.LastWriter
import FactGraph.Proofs.CommittedEdges
import FactGraph.Proofs.Contributions
import FactGraph.Proofs.Dependencies
import FactGraph.Proofs.Condensations
import FactGraph.Proofs.LeastOrders
import FactGraph.Proofs.Circles
import FactGraph.Proofs.LongestChains
import FactGraph.Proofs.Batches
import FactGraph.Proofs.TagQueries
import FactGraph.Proofs.Counts
import FactGraph.Proofs.PropertyQueries
import FactGraph.Proofs.Deletions
import FactGraph.Proofs.RepeatedEdges
import FactGraph.Proofs.Navigation
import FactGraph.Proofs.Ancestors
import FactGraph.Proofs.Spellings
import FactGraph.Proofs.WrittenOrder
import FactGraph.Proofs.EscapedNames
import FactGraph.Proofs.WrittenLocations
import FactGraph.Proofs.Listings
import FactGraph.Proofs.TextSniffing
import FactGraph.Proofs.Presence
import FactGraph.Proofs.ListedMembers
import FactGraph.Proofs.Balances
