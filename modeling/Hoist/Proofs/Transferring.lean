import Hoist.Proofs.Mirroring
import Hoist.Proofs.Working

namespace Hoist

namespace Relabeling

variable {p : String} {m : Relabeling p} {settings : Settings} {x b b' : Branch} {u u' : Supply}
  {s s' : Site} {z : List Frame} {calls : List Branch} {site : CallSite} {sites : List CallSite}

end Relabeling

end Hoist
