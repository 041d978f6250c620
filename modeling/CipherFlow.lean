import CipherFlow.Dataflow.Codec
import CipherFlow.Literal.Codec
import CipherFlow.Lowering.Session
import CipherFlow.Proofs.Lowering.Mirror
import CipherFlow.Proofs.Lowering.Renumbering
import CipherFlow.Proofs.Network.Traversal
import CipherFlow.Proofs.Semantics.Preservation
import CipherFlow.Routine.Listing
import CipherFlow.Proofs.Routine.Calls
import CipherFlow.Proofs.Routine.SingleAssignment
import CipherFlow.Proofs.Literal.WellFormed
import CipherFlow.Proofs.Lowering.Constants
import CipherFlow.Proofs.Literal.Separable
import CipherFlow.Proofs.Routine.Contents
import CipherFlow.Proofs.Routine.Listing
import CipherFlow.Proofs.Json.RoundTrip
import CipherFlow.Proofs.Lowering.Descriptors
import CipherFlow.Proofs.Dataflow.Codec
import CipherFlow.Proofs.Dataflow.Interchange
import CipherFlow.Proofs.Routine.Acceptance
import CipherFlow.Proofs.Lowering.Atomicity
import CipherFlow.Proofs.Lowering.Locality
import CipherFlow.Proofs.Lowering.Tables
import CipherFlow.Proofs.Lowering.TableSizes
import CipherFlow.Proofs.Literal.Grammar
import CipherFlow.Proofs.Routine.Returned
import CipherFlow.Proofs.Dataflow.Reencoding
import CipherFlow.Proofs.Literal.RowMajor
import CipherFlow.Proofs.Lowering.Sessions
import CipherFlow.Proofs.Text.Cursor
import CipherFlow.Proofs.Ty.Count
import CipherFlow.Proofs.Ty.Cursor
import CipherFlow.Proofs.Literal.Cursor
