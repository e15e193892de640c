import ScopedMarkup.Proofs.Accepted
import ScopedMarkup.Proofs.Backwards
import ScopedMarkup.Proofs.Bindings
import ScopedMarkup.Proofs.BraceCounting
import ScopedMarkup.Proofs.BraceGrammar
import ScopedMarkup.Proofs.ClosedSpreads
import ScopedMarkup.Proofs.Concatenation
import ScopedMarkup.Proofs.ExemptTags
import ScopedMarkup.Proofs.FlatSpreads
import ScopedMarkup.Proofs.Forwarded
import ScopedMarkup.Proofs.Gaps
import ScopedMarkup.Proofs.Instances
import ScopedMarkup.Proofs.JsonCalls
import ScopedMarkup.Proofs.JsonRecords
import ScopedMarkup.Proofs.JsonText
import ScopedMarkup.Proofs.Locality
import ScopedMarkup.Proofs.Passes
import ScopedMarkup.Proofs.Placement
import ScopedMarkup.Proofs.Ranges
import ScopedMarkup.Proofs.Reinvocation
import ScopedMarkup.Proofs.Removals
import ScopedMarkup.Proofs.RemovalSweep
import ScopedMarkup.Proofs.RemovedSpreads
import ScopedMarkup.Proofs.Resolutions
import ScopedMarkup.Proofs.Resolved
import ScopedMarkup.Proofs.Settled
import ScopedMarkup.Proofs.SinglePass
import ScopedMarkup.Proofs.Sources
import ScopedMarkup.Proofs.Spans
import ScopedMarkup.Proofs.Standing
import ScopedMarkup.Proofs.TagStart
import ScopedMarkup.Proofs.TornNames
import ScopedMarkup.Proofs.Utf8
import ScopedMarkup.Proofs.WholeSource
import ScopedMarkup.Proofs.Words
import ScopedMarkup.Proofs.Written
import ScopedMarkup.Service
import ScopedMarkup.Proofs.Backtracking
import ScopedMarkup.Proofs.OpeningSearch
import ScopedMarkup.Proofs.FlatTags
import ScopedMarkup.Proofs.Reopening
import ScopedMarkup.Proofs.ScannedOpenings
import ScopedMarkup.Proofs.Occurrences
import ScopedMarkup.Proofs.ShapeFlags
import ScopedMarkup.Proofs.Locations
import ScopedMarkup.Proofs.Reports
import ScopedMarkup.Proofs.JsonRoundTrip
