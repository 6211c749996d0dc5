import Hoist.NameChar
import Hoist.Workspace

namespace Hoist

/-- What is asked of a run. -/
structure Settings where
  /-- What the names of temporaries begin with. -/
  tempPrefix : String
  /-- The functions whose calls are exposed. None named stands for all. -/
  exposeCalls : List String
  /-- Whether exposed calls are moved into temporaries of their own. -/
  relocate : Bool

/-- What is done where nothing is asked for. -/
def Settings.standard : Settings := ⟨defaultTempPrefix, [], false⟩

/-- Whether calls of a function are exposed. -/
def Settings.exposes (s : Settings) (callee : String) : Bool :=
  s.exposeCalls.isEmpty || s.exposeCalls.contains callee

end Hoist
