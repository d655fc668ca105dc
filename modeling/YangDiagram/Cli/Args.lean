-- Reading the words of a `tree` command line as flags: the schema file, the modules (one flag
-- each), the depth and the line length, the legend, the two prefix choices, verbosity and the
-- log level. The word `tree` may come first.
import YangDiagram.Cli.Flags

namespace YangDiagram.Cli

open YangDiagram.Json

/-- The flags of a command line, after the flags read so far. -/
def readArgs (inv : Invocation) : List String → Except String Invocation
  | [] => .ok inv
  | flag :: rest =>
    let valued (set : String → Invocation) : Except String Invocation :=
      match rest with
      | v :: more => readArgs (set v) more
      | [] => .error ("option '" ++ flag ++ "' argument missing")
    if flag = "-s" ∨ flag = "--schema" then valued fun v => { inv with schema := some (Text.ofString v) }
    else if flag = "-m" ∨ flag = "--module" then valued fun v => { inv with modules := inv.modules ++ [Text.ofString v] }
    else if flag = "--tree-depth" then valued fun v => { inv with treeDepth := some (Text.ofString v) }
    else if flag = "--tree-line-length" then valued fun v => { inv with treeLineLength := some (Text.ofString v) }
    else if flag = "--log-level" then valued fun v => { inv with logLevel := some (Text.ofString v) }
    else if flag = "--tree-help" then readArgs { inv with treeHelp := some (.bool true) } rest
    else if flag = "--tree-prefix-module" then
      readArgs { inv with treePrefixModule := some (.bool true) } rest
    else if flag = "--tree-prefix-main-module" then
      readArgs { inv with treePrefixMainModule := some (.bool true) } rest
    else if flag = "-v" ∨ flag = "--verbose" then readArgs { inv with verbose := some (.bool true) } rest
    else .error ("unknown option '" ++ flag ++ "'")

def Invocation.ofArgs (args : List String) : Except String Invocation :=
  match args with
  | "tree" :: rest => readArgs {} rest
  | _ => readArgs {} args

end YangDiagram.Cli
