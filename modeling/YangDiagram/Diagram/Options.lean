-- Drawing options: depth, line length, legend and the two prefix choices. Depth and line length
-- must be whole numbers not below zero, depth checked first, and 0 stands for no bound, 10000; a
-- flag counts as set when its value is truthy.
import YangDiagram.Json.Write
import YangDiagram.Report.Basic

namespace YangDiagram.Diagram

open YangDiagram.Json

/-- The options as given, each defaulted when absent. -/
structure Options where
  depth : Value := .num 0
  lineLength : Value := .num 0
  help : Value := .bool false
  prefixModule : Value := .bool false
  prefixMainModule : Value := .bool false
  deriving Inhabited

namespace Options

/-- The options read from an object: known members as given, the rest defaulted. -/
def ofValue (v : Value) : Options :=
  let get (k : Text) (d : Value) : Value := (v.get? k).getD d
  { depth := get "depth" (.num 0), lineLength := get "lineLength" (.num 0),
    help := get "help" (.bool false), prefixModule := get "prefixModule" (.bool false),
    prefixMainModule := get "prefixMainModule" (.bool false) }

/-- The options given: the defaults when none are, and otherwise the known members of the value
as given, which fails for null, whose members cannot be read. -/
def read (given : Option Value) : Except Text Options :=
  match given with
  | none => .ok {}
  | some .null => .error (Value.nullMemberMessage "depth")
  | some v => .ok (ofValue v)

/-- The options as an object, in their fixed order. -/
def toValue (o : Options) : Value :=
  .obj [("depth", o.depth), ("lineLength", o.lineLength), ("help", o.help),
    ("prefixModule", o.prefixModule), ("prefixMainModule", o.prefixMainModule)]

end Options

/-- A count setting whose value is not a whole number at least zero. -/
structure OptionError where
  setting : Text
  value : Value

/-- The report of an option error; its message shows the value's text, so it fails when the
value has none. -/
def OptionError.report (e : OptionError) : Except Text Report.ErrorReport :=
  e.value.toText.map fun t =>
    Report.configError e.setting (e.setting ++ " must be a non-negative integer, got " ++ t)

/-- Why an option error stops a step: its report, or the failure to write it. -/
def OptionError.failure (e : OptionError) : Report.Failure :=
  match e.report with
  | .ok r => .report r
  | .error m => .typeError m

/-- The value that stands for no bound. -/
def unbounded : Float := 10000

/-- A count's value when it is a whole number not below zero. -/
def count? : Value → Option Float
  | .num x => if isWhole x && !(x < 0) then some x else none
  | _ => none

/-- A count with 0 read as no bound. -/
def effective (x : Float) : Float := if x == 0 then unbounded else x

def countNat (x : Float) : Nat := ((wholePart? x).getD 0).toNat

/-- Checked options: the options as given, the effective depth and line length. -/
structure Settings where
  options : Options
  depth : Float
  lineLength : Float
  deriving Inhabited

namespace Settings

/-- The levels drawn below each entry, counting the entry. -/
def budget (s : Settings) : Nat := countNat s.depth

/-- The UTF-16 code units kept of each line. -/
def width (s : Settings) : Nat := countNat s.lineLength

def help (s : Settings) : Bool := s.options.help.truthy

/-- Whether names show their module's name rather than its prefix. -/
def byModuleName (s : Settings) : Bool := s.options.prefixModule.truthy

/-- Whether the drawn module's own names are prefixed too. -/
def prefixOwn (s : Settings) : Bool := s.options.prefixMainModule.truthy

end Settings

/-- Checks the options: depth, then line length. -/
def Options.check (o : Options) : Except OptionError Settings :=
  match count? o.depth with
  | none => .error ⟨"depth", o.depth⟩
  | some d =>
    match count? o.lineLength with
    | none => .error ⟨"lineLength", o.lineLength⟩
    | some l => .ok ⟨o, effective d, effective l⟩

end YangDiagram.Diagram
