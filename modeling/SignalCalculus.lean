import SignalCalculus.Json.Reader
import SignalCalculus.Main
import SignalCalculus.Proofs.Desk.Books
import SignalCalculus.Proofs.Exchange.Schedules
import SignalCalculus.Proofs.Protocol.Interact
import SignalCalculus.Proofs.Stepped.Calls
import SignalCalculus.Proofs.Wire.Grammar
import SignalCalculus.Proofs.Wire.RoundTrip
import SignalCalculus.Proofs.Term.Grammar
import SignalCalculus.Proofs.Script.Words
import SignalCalculus.Proofs.Script.Spelling
import SignalCalculus.Proofs.Script.RoundTrip
import SignalCalculus.Proofs.Limit.Truncation
import SignalCalculus.Proofs.Limit.Queries
import SignalCalculus.Proofs.Normal.Neutral
import SignalCalculus.Proofs.Normal.Forms
import SignalCalculus.Proofs.Limit.Desk
import SignalCalculus.Proofs.Normal.Queries
import SignalCalculus.Proofs.Direct.Leaves
import SignalCalculus.Proofs.Session.Queries
import SignalCalculus.Proofs.Session.Printed
import SignalCalculus.Proofs.Machine.Turns
import SignalCalculus.Proofs.Machine.Contents
import SignalCalculus.Proofs.Machine.Reports
import SignalCalculus.Proofs.Normal.Closed
import SignalCalculus.Proofs.Machine.Families
import SignalCalculus.Proofs.Desk.Families
import SignalCalculus.Proofs.Limit.Counting
import SignalCalculus.Proofs.Limit.Course
import SignalCalculus.Proofs.Limit.Shared
import SignalCalculus.Proofs.Protocol.Sends
import SignalCalculus.Proofs.Protocol.Modem
import SignalCalculus.Proofs.Desk.Repeats
import SignalCalculus.Proofs.Limit.Halting
import SignalCalculus.Proofs.Direct.Closing
import SignalCalculus.Proofs.Protocol.Endings
import SignalCalculus.Proofs.Arithmetic.Adequacy
import SignalCalculus.Proofs.Protocol.Pictures
import SignalCalculus.Proofs.Protocol.Tagged
import SignalCalculus.Proofs.Stepped.Cancelled
import SignalCalculus.Proofs.Wire.Canonical
import SignalCalculus.Proofs.Book.Lookup
import SignalCalculus.Proofs.Book.Snapshot
import SignalCalculus.Proofs.Value.Pretty
import SignalCalculus.Proofs.Value.Spelling
import SignalCalculus.Proofs.Trace.Faithful
import SignalCalculus.Proofs.Trace.Canonical
import SignalCalculus.Proofs.Link.Address
import SignalCalculus.Proofs.Term.Doubled
import SignalCalculus.Proofs.Script.Layout
import SignalCalculus.Proofs.Value.Nested
