set_option autoImplicit false

namespace Specializer.CommandLine

def programName : String := "jtemplate"

def versionText : String := "0.3.0"

def helpLines : List String :=
  ["usage: jtemplate [-h] [--ktype TYPE] [--vtype TYPE] [-o OUT] [--all]",
   "                 [--output-dir DIR] [--manifest FILE] [-j JOBS]",
   "                 [--dump-tokens] [--dump-tree] [--dump-ops] [--traceback]",
   "                 [--version]",
   "                 [source]",
   "",
   "Java template specializer",
   "",
   "positional arguments:",
   "  source                Template file (a directory is allowed with --all)",
   "",
   "options:",
   "  -h, --help            show this help message and exit",
   "  --ktype TYPE          Binding of KType: generic or a primitive (comma-",
   "                        separated list with --all)",
   "  --vtype TYPE          Binding of VType for two-slot templates (comma-",
   "                        separated list with --all)",
   "  -o OUT, --out OUT     Output file (default: stdout)",
   "  --all                 Generate every binding of the template(s) into",
   "                        --output-dir",
   "  --output-dir DIR      Output root for --all",
   "  --manifest FILE       Run the batch described by a templates.toml file",
   "  -j JOBS, --jobs JOBS  Number of parallel specialization jobs",
   "  --dump-tokens         Print the token stream",
   "  --dump-tree           Print the structural tree",
   "  --dump-ops            Print the rewrite operations",
   "  --traceback           Print full traceback on errors (for debugging)",
   "  --version             show program's version number and exit"]

def helpText : String := String.join (helpLines.map fun line => line ++ "\n")

end Specializer.CommandLine
