import SimpleBinary.Message.Session
import SimpleBinary.Document.Schema
import SimpleBinary.Proofs.Message.RoundTrip
import SimpleBinary.Proofs.Message.Compatibility
import SimpleBinary.Proofs.Message.Amending
import SimpleBinary.Proofs.Schema.Derivation
import SimpleBinary.Proofs.Session.Refusal
import SimpleBinary.Proofs.Message.Consumption
import SimpleBinary.Proofs.Session.Truncation
import SimpleBinary.Proofs.Message.Canonical
import SimpleBinary.Proofs.Machine.Basic
import SimpleBinary.Proofs.Session.Progress
import SimpleBinary.Proofs.Machine.Access
import SimpleBinary.Proofs.Machine.Realization
import SimpleBinary.Proofs.Session.Bounds
import SimpleBinary.Proofs.Session.Calls
import SimpleBinary.Proofs.Alike
import SimpleBinary.Proofs.Block.Update
import SimpleBinary.Proofs.Block.Variants
import SimpleBinary.Proofs.Block.Lens
import SimpleBinary.Proofs.Session.Frame
import SimpleBinary.Proofs.Session.Locality
import SimpleBinary.Proofs.Session.Commutation
import SimpleBinary.Proofs.Session.Absence
import SimpleBinary.Proofs.Session.Restart
import SimpleBinary.Proofs.Schema.Draft
import SimpleBinary.Proofs.Schema.Rejection
import SimpleBinary.Proofs.Schema.Closers
import SimpleBinary.Proofs.Schema.Location
import SimpleBinary.Proofs.Session.Cursor
import SimpleBinary.Proofs.Session.Iteration
import SimpleBinary.Proofs.Message.Transfer
import SimpleBinary.Proofs.Message.HeaderRoundTrip
import SimpleBinary.Proofs.Schema.Descriptors
import SimpleBinary.Proofs.Block.Choices
import SimpleBinary.Proofs.Schema.Choices
import SimpleBinary.Proofs.Machine.Derivation
import SimpleBinary.Proofs.Schema.Totality
import SimpleBinary.Proofs.Schema.Matching
import SimpleBinary.Proofs.Schema.Extent
import SimpleBinary.Proofs.Schema.Naming
import SimpleBinary.Proofs.Block.Arrays
import SimpleBinary.Proofs.Machine.Codec
