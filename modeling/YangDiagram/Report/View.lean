-- Showing a report on a terminal: a title `Error <code>: <message>`, then where it happened, a
-- hint and in development the cause, each wrapped to the terminal width.
import YangDiagram.Report.Basic
import YangDiagram.Json.Write
import YangDiagram.Json.Coerce
import YangDiagram.Text.Wrap

namespace YangDiagram.Report

open YangDiagram.Json

/-- Where the program runs: in development causes are shown and colours are on by default. -/
inductive Env where
  | dev
  | prod
  deriving DecidableEq, Inhabited

/-- A report prepared for a terminal. The colour setting is kept as given and counts when it is
true in the loose sense of `Value.truthy`. -/
structure View where
  title : Text
  code : Code
  location : Option Text
  workaround : Option Value
  cause : Option Text
  colors : Value
  terminalWidth : Value
  deriving Inhabited

def member? (ctx : Option Value) (k : Text) : Option Value :=
  match ctx with
  | some (.obj ms) => Members.find? ms k
  | _ => none

/-- Where a report says the failure happened. A null context has no members to read, and a fact
without a text cannot be shown; either fails. -/
def locationOf (ctx : Option Value) : Except Text (Option Text) :=
  let find := member? ctx
  let shown (label : Text) (v : Value) : Except Text (Option Text) :=
    v.toText.map fun t => some (label ++ t)
  match ctx with
  | some .null => .error (Value.nullMemberMessage "documentPath")
  | _ =>
    match find "documentPath", find "schemaPath", find "module", find "setting" with
    | some p, _, _, _ => shown "Location: " p
    | none, some p, _, _ => shown "Location: " p
    | none, none, some m, _ => do
      let name ← m.toText
      let pinned ← match find "revision" with
        | some r => r.toText.map fun t => ("@" : Text) ++ t
        | none => pure ⟨[]⟩
      pure (some ("Module: " ++ name ++ pinned))
    | none, none, none, some s => shown "Option: " s
    | none, none, none, none => .ok none

/-- The first of the suggestions: the first item of a list, the first code unit of a text, the
member "0" of an object. -/
def firstSuggestion : Option Value → Option Value
  | some (.arr (x :: _)) => some x
  | some (.str ⟨u :: _⟩) => some (.str (Text.ofUnit u))
  | some (.obj ms) => Members.find? ms "0"
  | _ => none

/-- The hint of a report: its first suggestion unless that is missing or null, else the
context's suggestion. -/
def hintOf (r : ErrorReport) : Option Value :=
  match firstSuggestion r.suggestions with
  | none | some .null => member? r.context "suggestion"
  | some v => some v

/-- A report prepared for a terminal of a width (80 when not given), with colours as asked for,
else in development; it fails when the context is null. -/
def View.ofReport (env : Env) (colors : Option Value) (width : Option Value) (r : ErrorReport) :
    Except Text View :=
  (locationOf r.context).map fun location =>
    { title := "Error " ++ r.code.text ++ ": " ++ r.message, code := r.code,
      location := location, workaround := hintOf r,
      cause := if env = .dev then r.cause else none,
      colors := colors.getD (.bool (env = .dev)), terminalWidth := match width with
        | none | some .null => .num 80
        | some w => w }

/-- The width lines are wrapped to: the terminal's, read as a number, when positive, else 80; a
width that cannot be read as a number fails. -/
def View.wrapWidth (v : View) : Except Text Nat :=
  v.terminalWidth.toNumber.map fun w =>
    if w > 0 then
      match wholePart? w with
      | some n => n.toNat
      | none => Nat.pow 2 64
    else 80

/-- The text of a view: the title, then each section wrapped, one line each. It fails when the
hint has no text. -/
def View.text (v : View) : Except Text Text := do
  let width ← v.wrapWidth
  let hint ← match v.workaround with
    | some w => w.toText.map fun t => [("Hint: " : Text) ++ t]
    | none => pure []
  let sections : List Text := v.location.toList ++ hint ++
    (v.cause.map fun c => ("Caused by: " : Text) ++ c).toList
  let title : Text := if v.colors.truthy then "\x1b[1m\x1b[31m" ++ v.title ++ "\x1b[0m" else v.title
  pure (Text.intercalate "\n" (title :: sections.flatMap (Text.wrap width)))

/-- The text a report shows on a terminal, or the message of its failure to show. -/
def showReport (env : Env) (colors : Option Value) (width : Option Value) (r : ErrorReport) : Text :=
  match View.ofReport env colors width r >>= View.text with
  | .ok t => t
  | .error m => m

def View.toValue (v : View) : Value :=
  .obj (([("title", .str v.title), ("code", .str v.code.text)] : Members) ++
    (v.location.map fun l => [(("location" : Text), Value.str l)]).getD [] ++
    (v.workaround.map fun w => [(("workaround" : Text), w)]).getD [] ++
    (v.cause.map fun c => [(("cause" : Text), Value.str c)]).getD [] ++
    ([("colors", v.colors), ("terminalWidth", v.terminalWidth)] : Members))

end YangDiagram.Report
