import RowGuard.Mapping.Document
import RowGuard.Session.Secure
import RowGuard.Store.Scripted
import RowGuard.Proofs.Decisions
import RowGuard.Proofs.Binders
import RowGuard.Proofs.Conditions
import RowGuard.Proofs.Conformity
import RowGuard.Proofs.Policies
import RowGuard.Proofs.Soundness
import RowGuard.Proofs.Assignments
import RowGuard.Proofs.Exactness
import RowGuard.Proofs.Transcription
import RowGuard.Proofs.LegalQueries
import RowGuard.Proofs.Actions
import RowGuard.Proofs.Checks
import RowGuard.Proofs.Sessions
import RowGuard.Proofs.Memories
import RowGuard.Proofs.Grants
import RowGuard.Proofs.TypeSoundness
import RowGuard.Proofs.Delays
import RowGuard.Proofs.Secrecy
import RowGuard.Proofs.Widening
import RowGuard.Proofs.StoreQueries
import RowGuard.Proofs.Captures
import RowGuard.Proofs.Reloads
import RowGuard.Proofs.Standalones
import RowGuard.Proofs.Regrouping
import RowGuard.Proofs.ExchangedValues
import RowGuard.Proofs.Introductions
import RowGuard.Proofs.Grafting
import RowGuard.Proofs.Coverage
import RowGuard.Proofs.BoundPositions
import RowGuard.Proofs.RowComparisons
import RowGuard.Proofs.Searches
import RowGuard.Proofs.Inheritance
import RowGuard.Proofs.Wildcards
import RowGuard.Proofs.Orders
import RowGuard.Proofs.Constructions
import RowGuard.Proofs.Calculations
import RowGuard.Proofs.Scoping
import RowGuard.Proofs.Quotations
import RowGuard.Proofs.Occurrences
import RowGuard.Proofs.Spans
