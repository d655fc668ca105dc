-- Rendering: `renderModule` draws one module, and `renderTrees` the legend when asked for and
-- then each module of a list, every line cut to the line length. A missing module is reported
-- and the others are still drawn; the options are checked first.
import YangDiagram.Diagram.Walk
import YangDiagram.Diagram.Legend
import YangDiagram.Log.Logger

namespace YangDiagram.Diagram

open YangDiagram.Json YangDiagram.Schema

/-- A module to draw: a name and, when pinned, a revision, each as given. Only a text names a
module, and only a text revision pins one. -/
structure Source where
  name : Option Value
  revision : Option Value := none
  deriving Inhabited

def Source.ofText (name : Text) (revision : Option Text) : Source :=
  ⟨some (.str name), revision.map .str⟩

/-- The module a source names: the revision asked for, or the latest. -/
def Source.lookup (ctx : Context) (src : Source) : Option Module :=
  match src.name, src.revision with
  | some (.str n), none => ctx.findModule n none
  | some (.str n), some (.str r) => ctx.findModule n (some r)
  | _, _ => none

/-- The module a source names, or the report that it is not there (which fails when the name or
revision asked for has no text to show). -/
def Source.find (ctx : Context) (src : Source) : Except Report.Failure Module :=
  match src.lookup ctx with
  | some m => .ok m
  | none =>
    match Report.moduleNotFound src.name src.revision with
    | .ok r => .error (.report r)
    | .error m => .error (.typeError m)

def legendLines (s : Settings) : List Text := legend.map fun l => Text.clip s.width (Text.ofString l)

/-- The lines of one module's diagram, cut to the line length. -/
def diagramLines (ctx : Context) (tree : SchemaTree) (m : Module) (s : Settings) : List Text :=
  (moduleLines ctx tree m s).map fun l => Text.clip s.width l.text

/-- The lines of one module's diagram, after checking the options. -/
def renderModule (ctx : Context) (src : Source) (opts : Options) :
    Except Report.Failure (List Text) := do
  let s ← (opts.check).mapError OptionError.failure
  let m ← src.find ctx
  pure (diagramLines ctx ctx.schemaTree m s)

/-- What happened while drawing a list of modules. -/
inductive Event where
  /-- A module's diagram is drawn with the options. -/
  | drawing (m : Module) (opts : Options)
  /-- A source names no module. -/
  | missing (src : Source) (r : Report.ErrorReport)

/-- Lines drawn, with what happened along the way. -/
structure Drawn where
  lines : List Text
  events : List Event

/-- The legend when asked for, then the diagram of each source's module in order. A source that
names no module is noted and skipped; a failure to report it stops the drawing. -/
def renderTrees (ctx : Context) (sources : List Source) (opts : Options) :
    Except Report.Failure Drawn := do
  let s ← (opts.check).mapError OptionError.failure
  let tree := ctx.schemaTree
  let start : Drawn := ⟨if s.help then legendLines s else [], []⟩
  sources.foldlM (fun d src =>
    match src.find ctx with
    | .ok m => .ok ⟨d.lines ++ diagramLines ctx tree m s, d.events ++ [.drawing m opts]⟩
    | .error (.report r) => .ok ⟨d.lines, d.events ++ [.missing src r]⟩
    | .error (.typeError m) => .error (.typeError m)) start

/-- The reports of the sources that named no module. -/
def Drawn.missing (d : Drawn) : List Report.ErrorReport :=
  d.events.filterMap fun
    | .missing _ r => some r
    | _ => none

/-- The log of the events: a debug line per module drawn and, unless they are reported elsewhere,
a warn line per missing module; it fails with the first line the logger cannot write. -/
def Drawn.log (d : Drawn) (lg : Log.Logger) (reportedElsewhere : Bool) : Except Text Text :=
  (d.events.mapM fun (e : Event) => match e with
    | .drawing m opts =>
      lg.line .debug ("rendering module " ++ m.name)
        (Report.facts [("revision", m.revision.map Value.str), ("depth", some opts.depth),
          ("lineLength", some opts.lineLength)])
    | .missing src r =>
      if reportedElsewhere then .ok ⟨[]⟩
      else lg.line .warn r.message
        (Report.facts [("module", src.name), ("revision", src.revision)])).map Text.join

end YangDiagram.Diagram
