import Hoist.Main
import Hoist.Proofs.ArgumentParts
import Hoist.Proofs.Arranging
import Hoist.Proofs.Composing
import Hoist.Proofs.Copying
import Hoist.Proofs.Emitting
import Hoist.Proofs.Enclosing
import Hoist.Proofs.Faults
import Hoist.Proofs.Fresh
import Hoist.Proofs.Halting
import Hoist.Proofs.Invocations
import Hoist.Proofs.Judging
import Hoist.Proofs.Lasting
import Hoist.Proofs.Layering
import Hoist.Proofs.Moving
import Hoist.Proofs.Parenthesizing
import Hoist.Proofs.Preserving
import Hoist.Proofs.Racing
import Hoist.Proofs.Receivers
import Hoist.Proofs.Relocating
import Hoist.Proofs.Reporting
import Hoist.Proofs.Rereading
import Hoist.Proofs.Respelling
import Hoist.Proofs.Rewiring
import Hoist.Proofs.Segmenting
import Hoist.Proofs.Sequencing
import Hoist.Proofs.Sessions
import Hoist.Proofs.Settling
import Hoist.Proofs.StatementData
import Hoist.Proofs.Traversing
