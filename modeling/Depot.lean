import Depot.Main
import Depot.Settings.Json
import Depot.Proofs.Planner.Course
import Depot.Proofs.Planner.Frame
import Depot.Proofs.Planner.Rollback
import Depot.Proofs.Planner.Registry
import Depot.Proofs.Planner.Session
import Depot.Proofs.Index.Search
import Depot.Proofs.Planner.Closure
import Depot.Proofs.Planner.Order
import Depot.Proofs.Planner.Conflict
import Depot.Proofs.Planner.Declared
import Depot.Proofs.Planner.Repeats
import Depot.Proofs.Planner.Depth
import Depot.Proofs.Planner.Symmetry
import Depot.Proofs.Planner.Recommended
import Depot.Proofs.Planner.Repeatable
import Depot.Proofs.Planner.Needed
import Depot.Proofs.Planner.Breakdown
import Depot.Proofs.Planner.Causes
import Depot.Proofs.Cache.Objects
import Depot.Proofs.Fetch.Isolation
import Depot.Proofs.Stock.Prefilter
import Depot.Proofs.Stock.Unmerged
import Depot.Proofs.Stock.AnyOrder
import Depot.Proofs.Stock.Failed
import Depot.Proofs.Stock.Refresh
import Depot.Proofs.Stock.Slots
import Depot.Proofs.Version.Order
import Depot.Proofs.Version.Segment
import Depot.Proofs.Version.Semantic
import Depot.Proofs.Version.Numbered
import Depot.Proofs.Version.Canonical
import Depot.Proofs.Version.SameOrder
import Depot.Proofs.Version.ReleaseNumber
import Depot.Proofs.Version.Spans
import Depot.Proofs.Directive.Lines
import Depot.Proofs.Build.Failed
import Depot.Proofs.Build.Artifacts
import Depot.Proofs.Build.Once
import Depot.Proofs.Build.Sizes
import Depot.Proofs.Build.Mirrors
import Depot.Proofs.Build.Staleness
import Depot.Proofs.Build.Static
import Depot.Proofs.Planner.Choice
import Depot.Proofs.Planner.Alternatives
import Depot.Proofs.Planner.OwnNames
import Depot.Proofs.Planner.Again
import Depot.Proofs.Planner.Tested
import Depot.Proofs.Planner.Tables
import Depot.Proofs.Index.Searches
import Depot.Proofs.Index.Earlier
import Depot.Proofs.Fetch.Selection
import Depot.Proofs.Index.Asked
import Depot.Proofs.Index.Merges
import Depot.Proofs.Fetch.Duplicates
import Depot.Proofs.Fetch.Lifecycle
import Depot.Proofs.Cache.Replace
import Depot.Proofs.Fetch.Archived
import Depot.Proofs.Progress.Reports
