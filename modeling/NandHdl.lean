import NandHdl.Main
import NandHdl.Proofs.Reading
import NandHdl.Proofs.Trace
import NandHdl.Simulation.Operation
import NandHdl.Proofs.WellFormed
import NandHdl.Proofs.Numbering
import NandHdl.Proofs.Capture
import NandHdl.Proofs.Parsing
import NandHdl.Proofs.Degrading
import NandHdl.Proofs.Zeroing
import NandHdl.Proofs.Reordering
import NandHdl.Proofs.Memory
import NandHdl.Proofs.Reset
import NandHdl.Proofs.Naming
import NandHdl.Proofs.Bounds
import NandHdl.Proofs.Domain
import NandHdl.Proofs.Edits
import NandHdl.Proofs.Foreseen
import NandHdl.Proofs.ResetTwice
import NandHdl.Proofs.Loops
import NandHdl.Proofs.PartialAssignment
import NandHdl.Proofs.EarlyFields
import NandHdl.Proofs.Equations
import NandHdl.Proofs.Inputs
import NandHdl.Proofs.Nesting
import NandHdl.Proofs.Recursion
import NandHdl.Proofs.InRange
import NandHdl.Proofs.WidthLimit
import NandHdl.Proofs.Comments
import NandHdl.Proofs.FlatScript
import NandHdl.Proofs.Chains
import NandHdl.Proofs.Scripts
import NandHdl.Proofs.Blame
import NandHdl.Proofs.Renames
