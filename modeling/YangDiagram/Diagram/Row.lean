-- The row of a node: connectors, status, `--`, flags, the label decorated by the node's kind, a
-- list's keys, and for leaves, leaf-lists, anydata and anyxml a type after the label padded to
-- the type column of their siblings.
import YangDiagram.Schema.Node
import YangDiagram.Text.Basic
import YangDiagram.Text.Blank
import YangDiagram.Diagram.Connectors
import YangDiagram.Diagram.Scopes
import YangDiagram.Diagram.Prefixes

namespace YangDiagram.Diagram

open YangDiagram.Schema

/-- Whether a row stands in plain data, or inside an input or output. -/
inductive Role where
  | plain
  | input
  | output
  deriving DecidableEq, Inhabited

/-- The role of a node under a parent of a role: an input or output sets its own. -/
def roleOf (n : Node) (inherited : Role) : Role :=
  match n.kind with
  | .input => .input
  | .output => .output
  | _ => inherited

/-- The keys of the nearest list above, and where that list stands. -/
structure KeyScope where
  listPath : List QName
  keys : List QName
  deriving Inhabited

/-- What is fixed for every row of one diagram: the drawn module and the prefixes shown. -/
structure Env where
  module : Module
  prefixes : List (Text × Text)

/-- Where a row stands: the connector flags of its ancestors, the depth budget it is drawn with,
the positions suppressed, its role, and the keys of the list it may belong to. -/
structure Place where
  connectors : List Bool
  budget : Nat
  suppressed : Scopes Nat
  role : Role
  keys : Option KeyScope
  deriving Inhabited

def statusGlyph : Status → String
  | .current => "+"
  | .deprecated => "x"
  | .obsolete => "o"

/-- The flags of a node in a role. -/
def flagsFor (n : Node) (role : Role) : Option Text :=
  match n.kind with
  | .rpc | .action => some "-x"
  | .notification => some "-n"
  | .case => none
  | .input => some "-w"
  | .output => some "ro"
  | _ =>
    match role with
    | .input => some "-w"
    | .output => some "ro"
    | .plain => some (if n.info.config = some true then "rw" else "ro")

/-- Whether a leaf is a key of its list: its name is one of the keys, and without the suppressed
choice and case levels its parent's path is the list's path. -/
def isListKey (n : Node) (scope : Option KeyScope) (suppressed : Scopes Nat) : Bool :=
  match n.kind, scope with
  | .leaf, some sc =>
    sc.keys.any (·.same n.qname) &&
      let parent := suppressed.dataPath id n.path.dropLast
      let list := suppressed.dataPath id sc.listPath
      parent.length = list.length && (parent.zip list).all fun (a, b) => a.same b
  | _, _ => false

def Node.mandatory : Node → Bool
  | .leaf _ _ m | .choice _ m _ | .anydata _ m | .anyxml _ m => m
  | _ => false

def labelOf (env : Env) (n : Node) (scope : Option KeyScope) (suppressed : Scopes Nat) : Text :=
  let name := shownName env.prefixes n.qname
  match n with
  | .choice _ m _ => "(" ++ name ++ ")" ++ (if m then "" else "?" : Text)
  | .case .. => ":(" ++ name ++ ")"
  | .container _ presence _ _ => if presence then name ++ "!" else name
  | .list .. | .leafList .. => name ++ "*"
  | .leaf _ _ m => if m || isListKey n scope suppressed then name else name ++ "?"
  | .anydata _ m | .anyxml _ m => if m then name else name ++ "?"
  | _ => name

def hasTypeColumn (n : Node) : Bool :=
  match n.kind with
  | .leaf | .leafList | .anydata | .anyxml => true
  | _ => false

/-- Whether a code unit can stand right before a prefix in a path. -/
def beforePrefix (u : UInt16) : Bool :=
  u = Text.unit '/' || u = Text.unit '[' || u = Text.unit '(' || u = Text.unit '=' || Text.isBlank u

/-- A path with `pre:` taken out wherever it starts the path or follows `/`, `[`, `(`, `=` or a
blank, reading from the left. -/
def dropPrefixAfter (pre : List UInt16) : List UInt16 → List UInt16
  | [] => []
  | c :: rest =>
    if beforePrefix c && pre.isPrefixOf rest then c :: dropPrefixAfter pre (rest.drop pre.length)
    else c :: dropPrefixAfter pre rest
termination_by cs => cs.length
decreasing_by
  · simp only [List.length_drop, List.length_cons]
    omega
  · exact Nat.lt_succ_self _

/-- A path without the prefix `p` on its names. -/
def dropPrefix (p : Text) (path : Text) : Text :=
  let pre := p.units ++ [Text.unit ':']
  let cs := path.units
  ⟨dropPrefixAfter pre (if pre.isPrefixOf cs then cs.drop pre.length else cs)⟩

/-- The target of a leafref as shown: without the drawn module's prefix, unless the module's
own names are shown with a prefix. -/
def leafrefTarget (env : Env) (path : Text) : Text :=
  if (lookupKey env.prefixes env.module.namespaceUri).isSome then path
  else dropPrefix env.module.prefixName path

/-- The text of a type: `-> target` for a leafref with a path, else the name with the prefix
shown for its namespace, or with the prefix it was written with when its module is unknown. -/
def typeText (env : Env) (t : TypeRef) : Text :=
  match t.path with
  | some path => if t.name = "leafref" then "-> " ++ leafrefTarget env path else qualified
  | none => qualified
where
  qualified : Text :=
    match t.namespaceUri with
    | some uri =>
      match lookupKey env.prefixes uri with
      | some p => p ++ ":" ++ t.name
      | none => t.name
    | none =>
      match t.prefixName with
      | some p => p ++ ":" ++ t.name
      | none => t.name

def typeOf (env : Env) : Node → Option Text
  | .leaf _ t _ | .leafList _ t => some (typeText env t)
  | .anydata .. => some "<anydata>"
  | .anyxml .. => some "<anyxml>"
  | _ => none

structure Row where
  connectors : List Bool
  status : Status
  flags : Option Text
  label : Text
  keys : List Text
  type : Option Text
  typeColumn : Nat
  ifFeatures : List Text
  deriving Inhabited

def Row.text (r : Row) : Text :=
  let flags : Text := (r.flags.map fun (f : Text) => f ++ " ").getD ""
  let keys : Text := if r.keys.isEmpty then "" else " [" ++ Text.intercalate " " r.keys ++ "]"
  let type : Text := match r.type with
    | some t => Text.blanks (r.typeColumn - r.label.width) ++ "   " ++ t
    | none => ""
  let features : Text :=
    if r.ifFeatures.isEmpty then "" else " \x7b" ++ Text.intercalate "," r.ifFeatures ++ "\x7d?"
  connectorText r.connectors ++ statusGlyph r.status ++ "--" ++ flags ++ r.label ++ keys ++ type ++
    features

/-- The row of a node at a place, with the type column of its siblings. -/
def rowOf (env : Env) (n : Node) (pl : Place) (typeColumn : Nat) : Row :=
  { connectors := pl.connectors, status := n.info.status, flags := flagsFor n pl.role,
    label := labelOf env n pl.keys pl.suppressed,
    keys := match n with
      | .list _ ks _ _ => ks.map (·.localName)
      | _ => [],
    type := typeOf env n, typeColumn, ifFeatures := n.info.ifFeatures }

end YangDiagram.Diagram
