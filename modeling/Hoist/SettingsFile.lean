import Hoist.Problem
import Hoist.Settings
import Hoist.TomlEntries

namespace Hoist

/-- Where settings are looked for. -/
def settingsFileName : String := "sprout.toml"

/-- Takes over one entry. Only the three keys of the settings are known. -/
def Settings.set? (s : Settings) : String × TomlValue → Option Settings
  | ("temp_name_prefix", .text value) => some { s with tempPrefix := value }
  | ("expose_calls", .texts values) => some { s with exposeCalls := values }
  | ("relocate", .flag value) => some { s with relocate := value }
  | _ => none

/-- The settings that a file asks for. What it does not name is as in the standard. -/
def Settings.ofText (file text : String) : Except Problem Settings :=
  match (tomlEntries text).bind fun entries => entries.foldlM Settings.set? .standard with
  | none => .error (.ofFile .malformedConfig file)
  | some settings =>
    if isNameLike settings.tempPrefix then .ok settings
    else .error (.ofFile (.badTempPrefix settings.tempPrefix) file)

end Hoist
