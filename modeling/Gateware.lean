import Gateware.Config.Reader
import Gateware.Design.Summary
import Gateware.Digest.Basic
import Gateware.Eval.Module
import Gateware.Value.Measure
import Gateware.Proofs.Design
import Gateware.Proofs.Domain.Apart
import Gateware.Proofs.Domain.Retry
import Gateware.Proofs.Domain.Usage
import Gateware.Proofs.Eval.Settle
import Gateware.Proofs.Lower.Meaning
import Gateware.Proofs.Eval.Alike
import Gateware.Proofs.Eval.Latch
import Gateware.Proofs.Eval.Consistent
import Gateware.Proofs.Domain.Drivers
import Gateware.Proofs.Eval.Concurrent
import Gateware.Proofs.Eval.Errors
import Gateware.Proofs.Made
import Gateware.Proofs.Sealed
import Gateware.Proofs.Trace
import Gateware.Proofs.Fixpoint
import Gateware.Proofs.Datum.Bytes
import Gateware.Proofs.Datum.Tree
import Gateware.Proofs.Lower.Shape
import Gateware.Proofs.Renumber
import Gateware.Proofs.Eval.Range
import Gateware.Proofs.Lower.Exact
import Gateware.Proofs.Eval.Field
import Gateware.Proofs.Eval.Operator
import Gateware.Proofs.Eval.Select
import Gateware.Proofs.Lower.Drives
import Gateware.Proofs.Eval.Remainder
import Gateware.Proofs.Eval.Composite
import Gateware.Proofs.Domain.Refused
import Gateware.Proofs.Control
import Gateware.Proofs.Dispatch
import Gateware.Proofs.Domain.Default
import Gateware.Proofs.Domain.Reclock
import Gateware.Proofs.Eval.Substitute
import Gateware.Proofs.Eval.Placement
import Gateware.Proofs.Eval.Nested
import Gateware.Proofs.Stale
import Gateware.Proofs.Lower.Count
import Gateware.Proofs.Constant
import Gateware.Proofs.Saturation
import Gateware.Proofs.Origin
