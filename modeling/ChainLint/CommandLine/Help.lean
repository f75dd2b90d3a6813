/-!
# ChainLint.CommandLine.Help

The help text.
-/

namespace ChainLint
namespace CommandLine

def help : List String :=
  ["Usage: pmc-lint [options] [path]",
    "",
    "Flags pandas code that breaks the method-chaining style",
    "",
    "Arguments:",
    "  path                 Path to check (directory or .py file) (default: \".\")",
    "",
    "Options:",
    "  -V, --version        output the version number",
    "  --select <prefix>    Enable rules whose id starts with prefix (repeatable)",
    "                       (default: [])",
    "  --ignore <prefix>    Disable rules whose id starts with prefix (repeatable)",
    "                       (default: [])",
    "  --exclude <pattern>  Glob pattern to skip (repeatable) (default: [])",
    "  --format <format>    Output format (grouped|compact|json) (default:",
    "                       \"grouped\")",
    "  --max-issues <n>     Show only first N issues (0 = all) (default: \"0\")",
    "  --list-rules         List the rules enabled by --select/--ignore",
    "  --disable-noqa       Report findings on lines marked # noqa",
    "  --config <path>      Config file (default: .pmc.yml in the checked directory)",
    "  -w, --watch          Watch mode, re-check on file changes",
    "  --verbose            Print debug output to stderr",
    "  -h, --help           display help for command"]

end CommandLine
end ChainLint
