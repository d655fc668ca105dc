-- Error reports: the class of error, a stable code with its exit status, a message, a context of
-- named facts, the message of the cause, and suggestions.
import YangDiagram.Json.Write

namespace YangDiagram.Report

open YangDiagram.Json

/-- The classes of error. -/
inductive ErrorClass where
  | schema
  | notFound
  | config
  | parse
  | internal
  deriving DecidableEq, Inhabited

def ErrorClass.name : ErrorClass → String
  | .schema => "SchemaError"
  | .notFound => "NotFoundError"
  | .config => "ConfigError"
  | .parse => "ParseError"
  | .internal => "InternalError"

/-- The stable error codes. -/
inductive Code where
  | invalidDocument
  | unresolvedPrefix
  | moduleNotFound
  | targetNotFound
  | configuration
  | parse
  | internal
  deriving DecidableEq, Inhabited

def Code.text : Code → String
  | .invalidDocument => "E010"
  | .unresolvedPrefix => "E011"
  | .moduleNotFound => "E100"
  | .targetNotFound => "E101"
  | .configuration => "E300"
  | .parse => "E400"
  | .internal => "E500"

/-- The exit status of a code. -/
def Code.exit : Code → Nat
  | .invalidDocument => 20
  | .unresolvedPrefix => 21
  | .moduleNotFound => 10
  | .targetNotFound => 11
  | .configuration => 50
  | .parse => 60
  | .internal => 99

/-- What a failure was and where. The context and suggestions are kept as given: the context is
normally an object of named facts, and the first suggestion is the hint. -/
structure ErrorReport where
  errorClass : ErrorClass
  code : Code
  message : Text
  context : Option Value := none
  /-- The message of the underlying error, when there is one. -/
  cause : Option Text := none
  suggestions : Option Value := none
  deriving Inhabited

/-- The code of a class when nothing more is said. -/
def ErrorClass.code : ErrorClass → Code
  | .schema => .invalidDocument
  | .notFound => .moduleNotFound
  | .config => .configuration
  | .parse => .parse
  | .internal => .internal

/-- A context of named facts, each left out when it is not given. -/
def facts (ms : List (Text × Option Value)) : Members :=
  ms.filterMap fun (k, v) => v.map (k, ·)

/-- A module, or a module at a revision, that is not there; the message names the name and
revision by their texts, so it fails when one of them has none. -/
def moduleNotFound (name revision : Option Value) : Except Text ErrorReport := do
  let label ← Value.optionText name
  let pinned ← match revision with
    | some r => r.toText.map fun t => ("@" : Text) ++ t
    | none => pure ⟨[]⟩
  pure
    { errorClass := .notFound, code := .moduleNotFound,
      message := "Module not found: " ++ label ++ pinned,
      context := some (.obj (facts [("module", name), ("revision", revision)])) }

/-- A failure of no known class: its message, also the message of its cause, and "Unexpected
error" when the message is empty. -/
def unexpected (message : Text) : ErrorReport :=
  { errorClass := .internal, code := .internal,
    message := if message.isEmpty then "Unexpected error" else message, cause := some message }

/-- Why a step stops: a report of the program, or a value that cannot be used as it is asked to
be (a member read of null, the text of an object that has none), with its message. -/
inductive Failure where
  | report (r : ErrorReport)
  | typeError (message : Text)

/-- The report of a failure as a command shows it: a value that could not be used becomes an
unexpected failure. -/
def Failure.toReport : Failure → ErrorReport
  | .report r => r
  | .typeError m => unexpected m

def Failure.ofText {α : Type} : Except Text α → Except Failure α
  | .ok a => .ok a
  | .error m => .error (.typeError m)

def configError (setting message : Text) (more : Members := []) : ErrorReport :=
  { errorClass := .config, code := .configuration, message,
    context := some (.obj (("setting", .str setting) :: more)) }

/-- The report as the program writes it down: name, message, code, severity, the context when
there is one, and the cause as a plain error. -/
def ErrorReport.serialize (r : ErrorReport) : Value :=
  .obj (([("name", .str r.errorClass.name), ("message", .str r.message),
    ("errorCode", .str r.code.text), ("severity", .str "error")] : Members) ++
    (r.context.map fun c => [(("context" : Text), c)]).getD [] ++
    (r.cause.map fun m => [(("cause" : Text), Value.obj [("name", .str "Error"), ("message", .str m)])]).getD [])

end YangDiagram.Report
