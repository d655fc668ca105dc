-- The command line: `yangtree tree --schema <file> [flags]` prints the diagrams to standard
-- output, the log and the reports of missing modules to standard error, and ends with the
-- command's exit status; a failure is shown as a coloured report on standard error.
import YangDiagram.Cli.Args
import YangDiagram.Cli.Tree

open YangDiagram YangDiagram.Cli

/-- The absolute form of a path, against the working directory. -/
def absolutePath (path : String) : IO String := do
  if path.startsWith "/" then return path
  return (← IO.currentDir).toString ++ "/" ++ path

def readSchema (path : String) : IO SchemaFile := do
  try
    return .contents (Text.ofString (← IO.FS.readFile path))
  catch _ =>
    return .missing

/-- Shows a failure and gives its exit status. -/
def showFailure (r : Report.ErrorReport) : IO UInt32 := do
  IO.eprintln (Report.showReport .dev (some (.bool true)) none r).toString
  return r.code.exit.toUInt32

def main (args : List String) : IO UInt32 := do
  match Invocation.ofArgs args with
  | .error message =>
    IO.eprintln ("error: " ++ message)
    return 1
  | .ok inv =>
    match inv.level with
    | .error r => showFailure r
    | .ok level =>
      let path ← absolutePath (inv.schema.getD ⟨[]⟩).toString
      let file ← readSchema path
      match runTree inv (Log.Logger.atLevel level) (Text.ofString path) file with
      | .ok o =>
        IO.eprint o.log.toString
        IO.print o.stdout.toString
        IO.eprint o.stderr.toString
        return o.exit.toUInt32
      | .error (e, log) =>
        IO.eprint log.toString
        showFailure e.toReport
