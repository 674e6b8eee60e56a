import VtableCloud.Text.Style

/-!
# Help texts

The general usage, and what each command does.
-/

namespace VtableCloud

/-- The version that the program reports. -/
def versionNumber : String := "0.1.0"

namespace Help

/-- Lines of text, each with its line break. -/
def lines (ls : List String) : String := String.join (ls.map (· ++ "\n"))

def header (color : Bool) (text : String) : String := Style.yellow.inBold.paint color text

def command (color : Bool) (text : String) : String := Style.green.paint color text

def argument (color : Bool) (text : String) : String := Style.cyan.paint color text

def faint (color : Bool) (text : String) : String := Style.dimmed.paint color text

def usage (color : Bool) : String :=
  let header := header color
  let command := command color
  let argument := argument color
  let faint := faint color
  lines [
    Style.bold.paint color "vcloud" ++ " " ++ faint versionNumber ++
      " - vtable cloud layout for virtual call checks",
    "",
    header "Usage" ++ ": " ++ command "vcloud" ++ " " ++ argument "<command>" ++ " " ++
      argument "[args]",
    "",
    header "Commands:",
    "  " ++ command "layout" ++ " " ++ argument "<records>" ++
      "          Lay out every cloud and print the new tables",
    "  " ++ command "ranges" ++ " " ++ argument "<records>" ++
      "          Print valid-address ranges and the runtime range table",
    "  " ++ command "translate" ++ " " ++ argument "<records> <class> <order> <offset>" ++
      " Translate an old vtable index",
    "  " ++ command "dot" ++ " " ++ argument "<records> <root>" ++
      "      Render one cloud as a Graphviz graph",
    "  " ++ command "help" ++ "                    Show this help",
    "  " ++ command "version" ++ "                 Show version",
    "",
    header "Layout options:",
    "  " ++ argument "--interleave" ++
      "         Interleave sub-vtables instead of ordering them",
    "  " ++ argument "--word-width" ++ " " ++ argument "<n>" ++
      "    Bytes per vtable slot (default 8)",
    "  " ++ argument "--json" ++ "               Output as structured JSON",
    "",
    header "Logging:",
    "  " ++ argument "--log-level" ++ " " ++ argument "<level>" ++
      "   off, error, warn, info, debug or trace (env " ++ faint "VCLOUD_LOG_LEVEL" ++ ")",
    "  " ++ argument "--log-format" ++ " " ++ argument "<format>" ++
      "  text, json, or auto: json unless stderr is a terminal (env " ++
      faint "VCLOUD_LOG_FORMAT" ++ ")",
    "",
    "Records are read from a JSON file of the form " ++
      faint "\x7b \"classes\": [ ... ] \x7d" ++ "."]

/-- The usage line of one command. -/
def commandUsage (color : Bool) (name : String) (arguments : List String) : String :=
  Style.yellow.paint color "Usage" ++ ": " ++ command color "vcloud" ++ " " ++
    command color name ++ String.join (arguments.map fun a => " " ++ argument color a)

def layout (color : Bool) : String :=
  lines [
    header color "Layout",
    "",
    "Lay out every cloud of the hierarchy and print each new table slot by",
    "slot. Address points are marked. With --json the materialized tables",
    "and thunk clones are included.",
    "",
    commandUsage color "layout" ["<records>", "[--interleave] [--word-width <n>] [--json]"]]

def ranges (color : Bool) : String :=
  lines [
    header color "Ranges",
    "",
    "Print, for every sub-vtable, the addresses a vtable pointer may hold",
    "at a call through it, followed by the runtime range table.",
    "",
    commandUsage color "ranges"
      ["<records>", "[--precise] [--interleave] [--word-width <n>] [--json]"],
    "",
    header color "Options:",
    "  " ++ argument color "--precise" ++
      "  One range per run of descendants instead of a single range"]

def translate (color : Bool) : String :=
  lines [
    header color "Translate",
    "",
    "Map an index into a sub-vtable's original layout to the new layout.",
    "By default the offset counts from the address point and so does the",
    "result.",
    "",
    commandUsage color "translate"
      ["<records> <class> <order> <offset>",
        "[--absolute] [--interleave] [--word-width <n>] [--json]"],
    "",
    header color "Options:",
    "  " ++ argument color "--absolute" ++
      "  Offset counts from the sub-vtable start; result is a table position"]

def dot (color : Bool) : String :=
  lines [
    header color "Dot",
    "",
    "Render the cloud rooted at a class as a Graphviz digraph.",
    "",
    commandUsage color "dot" ["<records> <root>"]]

/-- The help on one command. Anything else gets the general usage. -/
def on (color : Bool) : String → String
  | "layout" => layout color
  | "ranges" => ranges color
  | "translate" => translate color
  | "dot" => dot color
  | _ => usage color

end Help

end VtableCloud
