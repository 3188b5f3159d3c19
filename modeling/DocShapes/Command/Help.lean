import DocShapes.Command.Arguments

/-! # Help

The texts about the program and its commands. In a list of options the names stand in one column
and what the options do in the next one.
-/

namespace DocShapes.Command

def programName : String := "doc-typereg"

def versionText : String := programName ++ " 0.1.0"

/-- The name of the value of an option. -/
def Switch.valueName (switch : Switch) : String :=
  match switch.arity with
  | .nothing => ""
  | .one => " <" ++ switch.long.toUpper ++ ">"
  | .many => " <" ++ switch.long.toUpper ++ ">..."

def Switch.purpose : Switch → String
  | .verbose => "log merge and resolution steps"
  | .help => "Print help"
  | .version => "Print version"
  | .config => "JSON settings file (aliases, comment_marker, custom_types)"
  | .input => "One or more documentation files. May be literal paths or quoted glob patterns"
  | .extension => "Files of `Name : spec` definitions, loaded as provisional types first"
  | .channel => "channel every input block is declared under [default: unscoped]"
  | .eager => "read a lone type name between blank lines as a declaration"
  | .out => "output .json file (stdout if omitted)"

def Switch.heading (switch : Switch) : String :=
  let short :=
    match switch.short? with
    | some c => "-" ++ String.singleton c ++ ", "
    | none => "    "
  short ++ "--" ++ switch.long ++ switch.valueName

/-- Rows of two columns. -/
def table (rows : List (String × String)) : List String :=
  let width := (rows.map fun row => row.1.length).foldl max 0
  rows.map fun (left, right) =>
    "  " ++ left ++ String.ofList (List.replicate (width - left.length + 2) ' ') ++ right

namespace Topic

def purpose : Topic → String
  | .program => "build a cross-referenced type catalog from `name : spec` documentation blocks"
  | .parse => "parse a single declaration (`type, qualifiers…`) and print its JSON form"
  | .catalog => "parse documentation files, merge declarations and print the catalog"
  | .help => "Print this message or the help of the given subcommand(s)"

def usage : Topic → String
  | .program => programName ++ " [OPTIONS] <COMMAND>"
  | .parse => programName ++ " parse [OPTIONS] <SPEC>"
  | .catalog => programName ++ " catalog [OPTIONS] --input <INPUT>..."
  | .help => programName ++ " help [COMMAND]..."

/-- The commands or words that a topic takes. -/
def words : Topic → List String
  | .program =>
      ["Commands:"] ++
        table [("parse", Topic.parse.purpose), ("catalog", Topic.catalog.purpose),
          ("help", Topic.help.purpose)] ++ [""]
  | .parse =>
      ["Arguments:"] ++
        table [("<SPEC>", "the declaration, e.g. \"list(int), optional\"")] ++ [""]
  | .catalog => []
  | .help => ["Arguments:"] ++ table [("[COMMAND]...", "Print help for the subcommand(s)")]

def options (topic : Topic) : List String :=
  match topic.switches with
  | [] => []
  | switches =>
      "Options:" :: table (switches.map fun switch => (switch.heading, switch.purpose))

def helpText (topic : Topic) : String :=
  "\n".intercalate
    ([topic.purpose, "", "Usage: " ++ topic.usage, ""] ++ topic.words ++ topic.options)

end Topic

end DocShapes.Command
