namespace Hoist

/-- What the program is for and how it is called. -/
def titleLines : List String :=
  ["------------------------------------",
    "sprout - exposes call sites as statements of their own",
    "Usage: <command> <paths...>"]

/-- The commands and the flags. -/
def usageLines : List String :=
  ["",
    "Commands:",
    "  decompose <paths>   - Writes <name>.decomposed.js next to each script",
    "  classify <paths>    - Reports how each call site classifies",
    "  help                - Shows this message",
    "",
    "Flags:",
    "  --config <file>   (default: ./sprout.toml when present)",
    "  --prefix <name>   (default: JSCompiler_temp_)",
    "  --relocate        Also hoist each exposed call into its own temporary",
    "  --check           Don't write any files",
    "  --json            Print the classify report as JSON",
    "  --hide-warnings",
    "  --hide-timers"]

end Hoist
