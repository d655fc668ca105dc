-- The flags of the tree command and how they become drawing options, module sources and a log
-- level. A count flag must be decimal digits once trimmed, a module is `name` or
-- `name@YYYY-MM-DD`, and a log level is read without regard to ASCII case.
import YangDiagram.Diagram.Render
import YangDiagram.Document.Grammar
import YangDiagram.Json.Read

namespace YangDiagram.Cli

open YangDiagram.Json YangDiagram.Diagram

/-- The flags of the tree command, as given. -/
structure Invocation where
  schema : Option Text := none
  modules : List Text := []
  treeDepth : Option Text := none
  treeLineLength : Option Text := none
  treeHelp : Option Value := none
  treePrefixModule : Option Value := none
  treePrefixMainModule : Option Value := none
  verbose : Option Value := none
  logLevel : Option Text := none
  deriving Inhabited

/-- The number a count flag gives. -/
def countFlag (flag : String) (value : Text) : Except Report.ErrorReport Float :=
  let trimmed := (Text.trim value).chars
  if !trimmed.isEmpty && trimmed.all Char.isDigit then
    .ok (Decimal.nearest false (digitsValue trimmed) 0)
  else
    .error (Report.configError flag
      ("Invalid " ++ flag ++ " value \"" ++ value ++ "\". Expected a non-negative integer."))

/-- The drawing options the flags give, only those given, in their fixed order. -/
def Invocation.treeOptions (inv : Invocation) : Except Report.ErrorReport Members := do
  let depth ← inv.treeDepth.mapM (countFlag "--tree-depth")
  let lineLength ← inv.treeLineLength.mapM (countFlag "--tree-line-length")
  pure (Report.facts [("depth", depth.map Value.num), ("lineLength", lineLength.map Value.num),
    ("help", inv.treeHelp), ("prefixModule", inv.treePrefixModule),
    ("prefixMainModule", inv.treePrefixMainModule)])

/-- The module a `--module` flag names. -/
def parseModuleSpec (spec : Text) : Except Report.ErrorReport Source :=
  let before := spec.units.takeWhile (· ≠ Text.unit '@')
  let name := Text.trim ⟨before⟩
  if name.isEmpty then
    .error (Report.configError "--module"
      ("Invalid --module value \"" ++ spec ++ "\". Expected name or name@revision."))
  else if before.length = spec.width then .ok (Source.ofText name none)
  else
    let revision := Text.trim (spec.drop (before.length + 1))
    if Document.Pattern.isRevision revision.chars then .ok (Source.ofText name (some revision))
    else .error (Report.configError "--module"
      ("Invalid revision \"" ++ revision ++ "\" in --module value \"" ++ spec ++
        "\". Expected YYYY-MM-DD.") [("module", .str name)])

def lowerAscii (t : Text) : Text :=
  ⟨t.units.map fun u => if 0x41 ≤ u.toNat && u.toNat ≤ 0x5A then u + 0x20 else u⟩

/-- The log level the flags ask for: `--log-level` when given, else debug with `--verbose`, else
warn. -/
def Invocation.level (inv : Invocation) : Except Report.ErrorReport Text :=
  match inv.logLevel with
  | some w =>
    let lower := lowerAscii w
    if Log.isLevel lower then .ok lower
    else .error (Report.configError "--log-level"
      ("Invalid --log-level value \"" ++ w ++ "\". Expected debug, info, warn, error or silent."))
  | none =>
    match inv.verbose with
    | some (.bool true) => .ok "debug"
    | _ => .ok "warn"

end YangDiagram.Cli
