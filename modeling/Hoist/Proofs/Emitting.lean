import Hoist.Proofs.Decomposing
import Hoist.Proofs.Rereading
import Hoist.Proofs.Temporaries
import Mathlib

namespace Hoist

end Hoist
