import Errata.Address
import Errata.Authoring.Slots
import Errata.Compile
import Errata.NameMap.Calls
import Errata.NameMap.Lemmas
import Errata.Proofs.Acceptance
import Errata.Proofs.Accounting
import Errata.Proofs.Applying
import Errata.Proofs.Expressing
import Errata.Proofs.Filing
import Errata.Proofs.Flattening
import Errata.Proofs.Grouping
import Errata.Proofs.Image
import Errata.Proofs.Inside
import Errata.Proofs.Locating
import Errata.Proofs.Lookup
import Errata.Proofs.Missing
import Errata.Proofs.Nesting
import Errata.Proofs.Noninterference
import Errata.Proofs.Preorder
import Errata.Proofs.Reassembling
import Errata.Proofs.Records
import Errata.Proofs.Redacting
import Errata.Proofs.Refining
import Errata.Proofs.Reporting
import Errata.Proofs.Resolving
import Errata.Proofs.Revising
import Errata.Proofs.Running
import Errata.Proofs.Settling
import Errata.Proofs.Sharing
import Errata.Proofs.Sizing
import Errata.Proofs.Unused
import Errata.Proofs.Walking
import Errata.Proofs.Widening
import Errata.Proofs.Wrapping
import Errata.Redaction
import Errata.Request
import Errata.Review
import Errata.Route
import Errata.Session
import Errata.Sheet.Listing
import Errata.Sheet.Search
import Errata.Sheet.Violations
import Errata.Sheet.WellFormed
