-- The grammar of a schema document: a `Shape` names a kind of part and `Shape.rule` says what
-- such a part must be. Data nodes are told apart by their `kind` member, which picks their rule.
import YangDiagram.Text.Basic

namespace YangDiagram.Document

/-- The patterns that texts of a document must match, each over the whole text. -/
inductive Pattern where
  /-- A YANG identifier: a letter or underscore, then letters, digits, `_`, `.` and `-`. -/
  | identifier
  /-- A type name, with an optional prefix and colon in front. -/
  | typeName
  /-- A revision date, `YYYY-MM-DD` in digits. -/
  | revision
  /-- An absolute schema path: one or more `/` each followed by an optionally prefixed name. -/
  | target
  deriving DecidableEq

namespace Pattern

/-- The pattern as the document grammar writes it, for messages. -/
def source : Pattern → String
  | .identifier => "^[A-Za-z_][A-Za-z0-9_.-]*$"
  | .typeName => "^([A-Za-z_][A-Za-z0-9_.-]*:)?[A-Za-z_][A-Za-z0-9_.-]*$"
  | .revision => "^[0-9]\x7b4\x7d-[0-9]\x7b2\x7d-[0-9]\x7b2\x7d$"
  | .target => "^(/([A-Za-z_][A-Za-z0-9_.-]*:)?[A-Za-z_][A-Za-z0-9_.-]*)+$"

/-- A character that can start an identifier. -/
def identStart (c : Char) : Bool := ('A' ≤ c && c ≤ 'Z') || ('a' ≤ c && c ≤ 'z') || c = '_'

def identChar (c : Char) : Bool := identStart c || ('0' ≤ c && c ≤ '9') || c = '.' || c = '-'

def isIdentifier : List Char → Bool
  | [] => false
  | c :: cs => identStart c && cs.all identChar

/-- Whether characters spell a name with an optional prefix: `name` or `prefix:name`. -/
def isPrefixedName (cs : List Char) : Bool :=
  match cs.splitOn ':' with
  | [name] => isIdentifier name
  | [pre, name] => isIdentifier pre && isIdentifier name
  | _ => false

def isRevision (cs : List Char) : Bool :=
  match cs with
  | [a, b, c, d, '-', e, f, '-', g, h] => [a, b, c, d, e, f, g, h].all Char.isDigit
  | _ => false

/-- Whether characters spell an absolute schema path. -/
def isTarget (cs : List Char) : Bool :=
  match cs.splitOn '/' with
  | [] :: first :: rest => (first :: rest).all isPrefixedName
  | _ => false

/-- Whether a text matches the pattern. A lone surrogate half reads as U+FFFD, which no pattern
accepts, just as no pattern accepts the half. -/
def accepts (p : Pattern) (s : Text) : Bool :=
  match p with
  | .identifier => isIdentifier s.chars
  | .typeName => isPrefixedName s.chars
  | .revision => isRevision s.chars
  | .target => isTarget s.chars

end Pattern

/-- The named kinds of parts of a document. -/
inductive Shape where
  | document
  | module
  | importStatement
  | identifier
  | status
  | ifFeatures
  | revision
  | typeName
  | dataNode
  | caseOrDataNode
  | augmentNode
  | container
  | list
  | leaf
  | leafList
  | choice
  | case
  | anyNode
  | operation
  | action
  | notification
  | augment
  deriving DecidableEq

/-- What a part must be. -/
inductive Rule where
  /-- An object: the members it must have, the rules of the members it may have (in the order they
  are checked), whether other members are refused, and the member that picks a further rule by
  its text. -/
  | object (required : List String) (members : List (String × Rule)) (closed : Bool)
      (pick : Option (String × List (String × Shape)))
  /-- An array whose every item follows a rule. -/
  | array (items : Rule)
  /-- A text of at least `least` characters that matches a pattern, if one is given. -/
  | text (least : Nat) (pattern : Option Pattern)
  /-- A boolean. -/
  | flag
  /-- One of a few texts. -/
  | oneOf (words : List String)
  /-- Exactly one text. -/
  | exactly (word : String)
  /-- A part of a named kind. -/
  | shape (s : Shape)

namespace Rule

def many (s : Shape) : Rule := .array (.shape s)

def anyText : Rule := .text 0 none

/-- The members every statement of a data tree may have after its kind and name. -/
def common : List (String × Rule) :=
  [("status", .shape .status), ("config", .flag), ("ifFeatures", .shape .ifFeatures),
   ("description", anyText)]

/-- A closed object with a `kind` word, a name and further members. -/
def statement (kind : Rule) (required : List String) (rest : List (String × Rule)) : Rule :=
  .object required ([("kind", kind), ("name", .shape .identifier)] ++ rest) true none

/-- Data node kinds and the rules they pick. -/
def dataKinds : List (String × Shape) :=
  [("container", .container), ("list", .list), ("leaf", .leaf), ("leaf-list", .leafList),
   ("choice", .choice), ("anydata", .anyNode), ("anyxml", .anyNode)]

/-- An object told apart by its `kind`. -/
def byKind (kinds : List (String × Shape)) : Rule := .object ["kind"] [] false (some ("kind", kinds))

end Rule

open Rule in
/-- The rule of each kind of part. -/
def Shape.rule : Shape → Rule
  | .document =>
    .object ["modules"] [("$schema", anyText), ("modules", many .module)] true none
  | .module =>
    .object ["name", "prefix", "namespace"]
      [("name", .shape .identifier), ("prefix", .shape .identifier), ("namespace", .text 1 none),
       ("revision", .shape .revision), ("description", anyText),
       ("imports", many .importStatement), ("features", many .identifier),
       ("data", many .dataNode), ("rpcs", many .operation),
       ("notifications", many .notification), ("augments", many .augment)] true none
  | .importStatement =>
    .object ["module", "prefix"]
      [("module", .shape .identifier), ("prefix", .shape .identifier),
       ("revision", .shape .revision)] true none
  | .identifier => .text 0 (some .identifier)
  | .status => .oneOf ["current", "deprecated", "obsolete"]
  | .ifFeatures => .array (.text 1 none)
  | .revision => .text 0 (some .revision)
  | .typeName => .text 0 (some .typeName)
  | .dataNode => byKind dataKinds
  | .caseOrDataNode => byKind (("case", .case) :: dataKinds)
  | .augmentNode => byKind (("case", .case) :: ("action", .action) :: dataKinds)
  | .container =>
    statement (.exactly "container") ["kind", "name"]
      (common ++ [("presence", .flag), ("children", many .dataNode), ("actions", many .operation)])
  | .list =>
    statement (.exactly "list") ["kind", "name"]
      (common ++ [("key", many .identifier), ("children", many .dataNode),
        ("actions", many .operation)])
  | .leaf =>
    statement (.exactly "leaf") ["kind", "name", "type"]
      (common ++ [("type", .shape .typeName), ("path", .text 1 none), ("mandatory", .flag)])
  | .leafList =>
    statement (.exactly "leaf-list") ["kind", "name", "type"]
      (common ++ [("type", .shape .typeName), ("path", .text 1 none)])
  | .choice =>
    statement (.exactly "choice") ["kind", "name"]
      (common ++ [("mandatory", .flag), ("children", many .caseOrDataNode)])
  | .case =>
    statement (.exactly "case") ["kind", "name"]
      [("status", .shape .status), ("ifFeatures", .shape .ifFeatures), ("description", anyText),
       ("children", many .dataNode)]
  | .anyNode =>
    statement (.oneOf ["anydata", "anyxml"]) ["kind", "name"] (common ++ [("mandatory", .flag)])
  | .operation =>
    statement (.oneOf ["rpc", "action"]) ["name"]
      [("status", .shape .status), ("ifFeatures", .shape .ifFeatures), ("description", anyText),
       ("input", many .dataNode), ("output", many .dataNode)]
  | .action =>
    statement (.exactly "action") ["kind", "name"]
      [("status", .shape .status), ("ifFeatures", .shape .ifFeatures), ("description", anyText),
       ("input", many .dataNode), ("output", many .dataNode)]
  | .notification =>
    .object ["name"]
      [("name", .shape .identifier), ("status", .shape .status),
       ("ifFeatures", .shape .ifFeatures), ("description", anyText),
       ("children", many .dataNode)] true none
  | .augment =>
    .object ["target", "nodes"]
      [("target", .text 0 (some .target)), ("ifFeatures", .shape .ifFeatures),
       ("description", anyText), ("nodes", many .augmentNode)] true none

/-- No rule of a kind of part is itself only a reference to another kind. -/
def Rule.isReference : Rule → Bool
  | .shape _ => true
  | _ => false

theorem Shape.isReference_rule (s : Shape) : s.rule.isReference = false := by
  cases s <;> rfl

end YangDiagram.Document
