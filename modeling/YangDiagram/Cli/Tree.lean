-- The tree command: check and log the options, read, parse and load the schema file, then draw
-- the named modules, or all of them, each line ending in a line feed. A missing module is shown
-- and skipped, and the first one's exit status ends the command.
import YangDiagram.Cli.Flags
import YangDiagram.Report.View
import YangDiagram.Schema.Load

namespace YangDiagram.Cli

open YangDiagram.Json YangDiagram.Diagram YangDiagram.Schema

/-- What reading the schema file gives: its text, or nothing when there is no such file. -/
inductive SchemaFile where
  | contents (text : Text)
  | missing

def missingFileMessage (path : Text) : Text :=
  "ENOENT: no such file or directory, open '" ++ path ++ "'"

/-- Why the tree command fails. -/
inductive CommandError where
  /-- A failure with its report. -/
  | report (r : Report.ErrorReport)
  /-- The schema file is not JSON; the detail is the JSON reader's. -/
  | invalidJson (path detail : Text)

def CommandError.toReport : CommandError → Report.ErrorReport
  | .report r => r
  | .invalidJson path detail =>
    { errorClass := .parse, code := .parse, message := "Invalid JSON in " ++ path ++ ": " ++ detail,
      context := some (.obj [("documentPath", .str path)]), cause := some detail }

def unreadable (path : Text) : Report.ErrorReport :=
  { errorClass := .parse, code := .parse, message := "Cannot read schema document " ++ path,
    context := some (.obj [("documentPath", .str path)]), cause := some (missingFileMessage path) }

/-- What a finished command wrote and its exit status. -/
structure Outcome where
  exit : Nat
  stdout : Text
  stderr : Text
  log : Text

/-- The loaded context of the schema file, or why there is none. -/
def loadFile (path : Text) : SchemaFile → Except CommandError Context
  | .missing => .error (.report (unreadable path))
  | .contents text =>
    match Value.read text with
    | .error e => .error (.invalidJson path (e.message text))
    | .ok doc => (Context.load doc).mapError fun e => .report e.report

/-- Runs the tree command on the flags, with a logger, the schema file's path and what reading
it gives; a failure comes with what was logged before it. -/
def runTree (inv : Invocation) (lg : Log.Logger) (path : Text) (file : SchemaFile) :
    Except (CommandError × Text) Outcome := do
  let fail (e : CommandError) (log : Text) : Except (CommandError × Text) Outcome :=
    .error (e, log)
  let written (line : Except Text Text) (before : Text) : Except (CommandError × Text) Text :=
    match line with
    | .ok t => .ok t
    | .error m => .error (.report (Report.unexpected m), before)
  if (inv.schema.getD ⟨[]⟩).isEmpty then
    fail (.report (Report.configError "--schema" "Missing required option --schema <file>")) ⟨[]⟩
  else
  match inv.treeOptions with
  | .error r => fail (.report r) ⟨[]⟩
  | .ok given =>
  match (Options.ofValue (.obj given)).check with
  | .error e => fail (.report e.failure.toReport) ⟨[]⟩
  | .ok s =>
  match inv.modules.mapM parseModuleSpec with
  | .error r => fail (.report r) ⟨[]⟩
  | .ok requested =>
  let log₁ ← written (lg.line .debug "effective options" (match s.options.toValue with
    | .obj ms => ms
    | _ => [])) ⟨[]⟩
  match loadFile path file with
  | .error e => fail e log₁
  | .ok ctx =>
  let log₂ ← written (lg.line .info ("loaded " ++ Text.ofNat ctx.modules.length ++ " module(s)")
    [("schema", .str path)]) log₁
  let sources := if requested.isEmpty then ctx.modules.map fun m => Source.ofText m.name m.revision
    else requested
  match renderTrees ctx sources s.options with
  | .error r => fail (.report r.toReport) (log₁ ++ log₂)
  | .ok d =>
    let log₃ ← written (d.log lg true) (log₁ ++ log₂)
    let missing := d.missing
    pure { exit := (missing.head?.map (·.code.exit)).getD 0,
           stdout := Text.join (d.lines.map (· ++ "\n")),
           stderr := Text.join (missing.map fun r =>
             Report.showReport .dev (some (.bool false)) none r ++ "\n"),
           log := log₁ ++ log₂ ++ log₃ }

end YangDiagram.Cli
