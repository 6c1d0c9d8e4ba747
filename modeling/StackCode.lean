import StackCode.Chunk.Listing
import StackCode.Directory
import StackCode.Proofs.Attribution
import StackCode.Proofs.Calls
import StackCode.Proofs.Carets
import StackCode.Proofs.Desugaring
import StackCode.Proofs.Exhaustion
import StackCode.Proofs.Generation
import StackCode.Proofs.Inference.Completeness
import StackCode.Proofs.IntegerTokens
import StackCode.Proofs.Integrity
import StackCode.Proofs.JumpLimits
import StackCode.Proofs.LineTables
import StackCode.Proofs.Locations
import StackCode.Proofs.Lookahead
import StackCode.Proofs.Mentions
import StackCode.Proofs.Munch
import StackCode.Proofs.Printing
import StackCode.Proofs.ReadBack
import StackCode.Proofs.RegisterNames
import StackCode.Proofs.Simulation
import StackCode.Proofs.Tiling
import StackCode.Proofs.Truncation
import StackCode.Proofs.Validity
import StackCode.Token.Debug
