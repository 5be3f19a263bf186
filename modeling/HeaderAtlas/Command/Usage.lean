import HeaderAtlas.Command.Arguments
/-!
# What the command says about itself

The texts are fixed. They are laid out for a terminal of eighty columns, whatever the width of the one that shows
them.
-/

set_option autoImplicit false

namespace HeaderAtlas

namespace Command

def lines (ls : List String) : Text := ls.flatMap fun l => Text.ofString l ++ [CodePoint.ofChar '\n']

/-- The line of options, which stands above help and above every complaint about an argument. Options that may be
repeated look like any other here; the description says so. -/
def usage : Text := lines [
  "usage: incgraph [-h] [-s SCAN_DIR] [-I DIR] [--project-root PROJECT_ROOT]",
  "                [--root-dir DIR] [--whitelist WHITELIST]",
  "                [--blacklist BLACKLIST] [--cxx CXX] [--skip-dir SKIP_DIRS]",
  "                [-o OUTPUT_PATH] [-f OUTPUT_FORMAT] [--no-rdeps] [--compact]",
  "                [--indent INDENT] [--config CONFIG_FILE] [--dump-config]",
  "                [--debug] [--log-file LOG_FILE]",
  "                [SCAN_DIR]" ]

def description : Text := lines [
  "",
  "Build a JSON map of the #include dependencies of a C/C++ source tree.",
  "",
  "positional arguments:",
  "  SCAN_DIR              directory to scan (current directory by default)",
  "",
  "options:",
  "  -h, --help            show this help message and exit",
  "  -s SCAN_DIR, --scan-dir SCAN_DIR",
  "                        directory to scan, same as the positional argument",
  "  -I DIR, --include DIR",
  "                        directory to search included headers in, searched",
  "                        before the project root (repeatable)",
  "  --project-root PROJECT_ROOT",
  "                        project root directory (discovered from root markers",
  "                        by default)",
  "  --root-dir DIR        directory whose headers are tracked (repeatable,",
  "                        project root by default)",
  "  --whitelist WHITELIST",
  "                        comma-separated candidate file wildcards",
  "  --blacklist BLACKLIST",
  "                        comma-separated excluded file wildcards",
  "  --cxx CXX             comma-separated wildcards of files parsed as C++",
  "  --skip-dir SKIP_DIRS  comma-separated top-level directories to skip",
  "  -o OUTPUT_PATH, --output OUTPUT_PATH",
  "                        output file (stdout by default)",
  "  -f OUTPUT_FORMAT, --format OUTPUT_FORMAT",
  "                        output format, one of: json (json by default)",
  "  --no-rdeps            do not record reverse dependencies",
  "  --compact             write the document without whitespace",
  "  --indent INDENT       indentation unit for pretty output (a number of spaces",
  "                        or a literal string, tab by default)",
  "  --config CONFIG_FILE  JSON configuration file",
  "  --dump-config         print the effective configuration and exit",
  "  --debug               elevate logging verbosity to DEBUG",
  "  --log-file LOG_FILE   also write the log to this file" ]

def help : Text := usage ++ description

/-- A complaint about the command line. It goes to standard error with the options above it, so that no second call is
needed to see them. -/
def UsageError.text (e : UsageError) : Text :=
  usage ++ "incgraph: error: " ++ e.message ++ [CodePoint.ofChar '\n']

end Command

end HeaderAtlas
