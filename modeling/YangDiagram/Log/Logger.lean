-- The logger: lines `[tag] level: message {metadata}` for the messages at or above its
-- threshold. Tag, threshold and message are read as the text of their values; the metadata is
-- the entries of a value, written as a compact JSON object.
import YangDiagram.Json.Write

namespace YangDiagram.Log

open YangDiagram.Json

/-- The levels of a message, and silent. -/
inductive Level where
  | debug
  | info
  | warn
  | error
  | silent
  deriving DecidableEq, Inhabited

namespace Level

def all : List Level := [.debug, .info, .warn, .error, .silent]

def word : Level → String
  | .debug => "debug"
  | .info => "info"
  | .warn => "warn"
  | .error => "error"
  | .silent => "silent"

def ofWord? (w : Text) : Option Level := all.find? fun l => Text.ofString l.word = w

/-- The rank of a level: debug lowest, silent highest. -/
def rank : Level → Nat
  | .debug => 0
  | .info => 1
  | .warn => 2
  | .error => 3
  | .silent => 4

end Level

def isLevel (w : Text) : Bool := (Level.ofWord? w).isSome

/-- A logger: the tag in front of its lines and its threshold, as given. -/
structure Logger where
  tag : Value := .str "yangtree"
  threshold : Value := .str "warn"
  deriving Inhabited

/-- A logger with a tag and a threshold as given, each defaulted when missing or null. -/
def Logger.ofGiven (tag threshold : Option Value) : Logger :=
  { tag := match tag with
      | none | some .null => .str "yangtree"
      | some v => v,
    threshold := match threshold with
      | none | some .null => .str "warn"
      | some v => v }

def Logger.atLevel (w : Text) : Logger := { threshold := .str w }

/-- Whether a logger writes a message of a level. The threshold is looked up by its text, so a
list holding one level's word counts as that level, and a threshold without a text fails. -/
def Logger.admits (lg : Logger) (at_ : Level) : Except Text Bool :=
  lg.threshold.toText.map fun t =>
    match Level.ofWord? t with
    | some l => l.rank ≤ at_.rank
    | none => true

def noEntriesMessage : Text := "Cannot convert undefined or null to object"

/-- The entries of a value, keyed by text; none for null. -/
def entries : Value → Option Members
  | .obj ms => some (propertyOrder ms)
  | .arr xs => some (xs.zipIdx.map fun (x, i) => (Text.ofNat i, x))
  | .str s => some (s.units.zipIdx.map fun (u, i) => (Text.ofNat i, .str (Text.ofUnit u)))
  | .null => none
  | _ => some []

/-- The metadata part of a line: a blank and the JSON object of the entries, nothing when there
are none or no metadata is given, or the error of a value that has no entries to take. -/
def metadataText : Option Value → Except Text Text
  | none => .ok ""
  | some v =>
    match entries v with
    | none => .error noEntriesMessage
    | some [] => .ok ""
    | some ms => .ok (" " ++ Text.ofString (Value.obj ms).write)

/-- The line a logger writes for a message, if any: the threshold first, then the tag, the
message and the metadata as text, in that order; the first that has no text fails the line. -/
def Logger.entry (lg : Logger) (at_ : Level) (message metadata : Option Value) :
    Except Text (Option Text) := do
  if !(← lg.admits at_) then return none
  let tag ← lg.tag.toText
  let text ← Value.optionText message
  let extra ← metadataText metadata
  return some ("[" ++ tag ++ "] " ++ at_.word ++ ": " ++ text ++ extra ++ "\n")

/-- The line a logger writes for a text message with an object of metadata, nothing when the
message is below the threshold. -/
def Logger.line (lg : Logger) (at_ : Level) (message : Text) (metadata : Members) :
    Except Text Text :=
  (lg.entry at_ (some (.str message)) (some (.obj metadata))).map (·.getD ⟨[]⟩)

end YangDiagram.Log
