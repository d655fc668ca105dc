-- Building the schema of a module statement: qualified names, paths, status, inherited
-- configuration and type references; a data node written under a choice stands in a case of its
-- own name.
import YangDiagram.Json.Value
import YangDiagram.Document.Check
import YangDiagram.Schema.Node

namespace YangDiagram.Schema

open YangDiagram.Json

/-- Why a document does not load. -/
inductive LoadError where
  /-- The document breaks its grammar. -/
  | invalid (failure : Document.Failure)
  /-- A prefix stands for no module. -/
  | unknownPrefix (prefixName module place : Text)
  /-- An augment target names no node. -/
  | targetNotFound (target module place : Text)
  /-- A node cannot be added to a target of this kind. -/
  | refused (added : Text) (target : Kind) (module place : Text)

/-- What a module statement knows while its nodes are built: its names, the prefixes it can
use, and the namespace of each module the document has (the first module of a name). -/
structure Scope where
  name : Text
  prefixName : Text
  namespaceUri : Text
  imports : List (Text × Text)
  namespaces : List (Text × Text)

namespace Scope

def qname (sc : Scope) (localName : Text) : QName := ⟨sc.name, sc.namespaceUri, localName⟩

def resolve (sc : Scope) (pre place : Text) : Except LoadError Text :=
  match lookupKey sc.imports pre with
  | some m => .ok m
  | none => .error (.unknownPrefix pre sc.name place)

/-- The reference of a type as written, with the path of a leafref. -/
def typeRef (sc : Scope) (written : Text) (path : Option Text) (place : Text) :
    Except LoadError TypeRef :=
  match written.splitOn (Text.unit ':') with
  | [name] => .ok { name, path }
  | pre :: rest => do
    let name := Text.intercalate ":" rest
    let m ← sc.resolve pre place
    if m = sc.name then pure { name }
    else match lookupKey sc.namespaces m with
      | some uri => pure { name, namespaceUri := some uri }
      | none => pure { name, prefixName := some pre }
  | [] => .ok { name := written, path }

end Scope

/-- Where a node is built: the path above it, its parent's configuration, and whether an augment
statement adds it. -/
structure Parent where
  path : List QName
  config : Option Bool
  augmenting : Bool

/-- The configuration of a node under a parent, given what the node says. -/
def inheritConfig (parent : Parent) (own : Option Bool) : Option Bool :=
  match parent.config with
  | none => none
  | some false => some false
  | some true => some (own.getD true)

def baseInfo (sc : Scope) (name : Text) (raw : Value) (parent : Parent) (config : Option Bool) :
    Info :=
  let q := sc.qname name
  { qname := q, path := parent.path ++ [q],
    status := ((raw.textAt? "status").map Status.ofWord).getD .current,
    config, ifFeatures := raw.textsAt "ifFeatures", augmenting := parent.augmenting }

def itemPlace (place k : Text) (i : Nat) : Text := place ++ "/" ++ k ++ "/" ++ Text.ofNat i

mutual

/-- A data node (container, list, leaf, leaf-list, choice, anydata or anyxml) from its statement. -/
def buildDataNode (sc : Scope) (raw : Value) (parent : Parent) (place : Text) :
    Except LoadError Node := do
  let config := inheritConfig parent (raw.flagAt? "config")
  let info := baseInfo sc ((raw.textAt? "name").getD "") raw parent config
  let self : Parent := ⟨info.path, config, parent.augmenting⟩
  let kind := (raw.textAt? "kind").getD ""
  if kind = "container" ∨ kind = "list" then
    let children ← (raw.itemsAt "children").attach.zipIdx.mapM fun (⟨c, _⟩, i) =>
      buildDataNode sc c self (itemPlace place "children" i)
    let actions ← (raw.itemsAt "actions").attach.zipIdx.mapM fun (⟨a, _⟩, i) =>
      buildOperation sc a true self (itemPlace place "actions" i)
    if kind = "container" then
      pure (.container info ((raw.flagAt? "presence").getD false) children actions)
    else
      pure (.list info ((raw.textsAt "key").map sc.qname) children actions)
  else if kind = "leaf" ∨ kind = "leaf-list" then
    let type ← sc.typeRef ((raw.textAt? "type").getD "") (raw.textAt? "path") (place ++ "/type")
    if kind = "leaf" then pure (.leaf info type ((raw.flagAt? "mandatory").getD false))
    else pure (.leafList info type)
  else if kind = "choice" then
    let cases ← (raw.itemsAt "children").attach.zipIdx.mapM fun (⟨c, _⟩, i) =>
      buildCase sc c self (itemPlace place "children" i)
    pure (.choice info ((raw.flagAt? "mandatory").getD false) cases)
  else if kind = "anyxml" then pure (.anyxml info ((raw.flagAt? "mandatory").getD false))
  else pure (.anydata info ((raw.flagAt? "mandatory").getD false))
termination_by (sizeOf raw, 0)
decreasing_by
  all_goals
    apply Prod.Lex.left
    exact Value.sizeOf_lt_of_mem_itemsAt (by assumption)

/-- A case from its statement under a choice; a data node written directly under the choice
stands in a case of its own name. -/
def buildCase (sc : Scope) (raw : Value) (parent : Parent) (place : Text) :
    Except LoadError Node := do
  let name := (raw.textAt? "name").getD ""
  if raw.textAt? "kind" = some (Text.ofString "case") then
    let info := baseInfo sc name raw parent parent.config
    let children ← (raw.itemsAt "children").attach.zipIdx.mapM fun (⟨c, _⟩, i) =>
      buildDataNode sc c ⟨info.path, parent.config, parent.augmenting⟩ (itemPlace place "children" i)
    pure (.case info children)
  else
    let info := baseInfo sc name (.obj []) parent parent.config
    let node ← buildDataNode sc raw ⟨info.path, parent.config, parent.augmenting⟩ place
    pure (.case info [node])
termination_by (sizeOf raw, 1)
decreasing_by
  · apply Prod.Lex.left
    exact Value.sizeOf_lt_of_mem_itemsAt (by assumption)
  · exact Prod.Lex.right _ (by omega)

def buildOperation (sc : Scope) (raw : Value) (isAction : Bool) (parent : Parent)
    (place : Text) : Except LoadError Node := do
  let info := baseInfo sc ((raw.textAt? "name").getD "") raw parent none
  let bodyInfo (which : Body) : Info :=
    let q := sc.qname which.word
    { qname := q, path := info.path ++ [q], status := .current, config := none,
      ifFeatures := [], augmenting := parent.augmenting }
  let inner (which : Body) : Parent := ⟨(bodyInfo which).path, none, parent.augmenting⟩
  let input ← (raw.itemsAt "input").attach.zipIdx.mapM fun (⟨c, _⟩, i) =>
    buildDataNode sc c (inner .input) (itemPlace place "input" i)
  let output ← (raw.itemsAt "output").attach.zipIdx.mapM fun (⟨c, _⟩, i) =>
    buildDataNode sc c (inner .output) (itemPlace place "output" i)
  let i := Node.input (bodyInfo .input) input
  let o := Node.output (bodyInfo .output) output
  pure (if isAction then .action info i o else .rpc info i o)
termination_by (sizeOf raw, 0)
decreasing_by
  all_goals
    apply Prod.Lex.left
    exact Value.sizeOf_lt_of_mem_itemsAt (by assumption)

end

def buildNotification (sc : Scope) (raw : Value) (place : Text) : Except LoadError Node := do
  let info := baseInfo sc ((raw.textAt? "name").getD "") raw ⟨[], none, false⟩ none
  let children ← (raw.itemsAt "children").zipIdx.mapM fun (c, i) =>
    buildDataNode sc c ⟨info.path, some false, false⟩ (itemPlace place "children" i)
  pure (.notification info children)

/-- The scope of a module statement: its own prefix stands for itself, then each import's prefix
for the imported module, a later import of a prefix replacing an earlier one in place. -/
def Scope.ofStatement (raw : Value) (namespaces : List (Text × Text)) : Scope :=
  let name := (raw.textAt? "name").getD ""
  let own := (raw.textAt? "prefix").getD ""
  let imports := (raw.itemsAt "imports").foldl
    (fun acc imp => putKey acc ((imp.textAt? "prefix").getD "") ((imp.textAt? "module").getD ""))
    [(own, name)]
  { name, prefixName := own, namespaceUri := (raw.textAt? "namespace").getD "", imports,
    namespaces }

/-- A module from its statement, the `index`-th of the document, before any augment. -/
def buildModule (raw : Value) (index : Nat) (namespaces : List (Text × Text)) :
    Except LoadError Module := do
  let sc := Scope.ofStatement raw namespaces
  let place : Text := "/modules/" ++ Text.ofNat index
  let dataNodes ← (raw.itemsAt "data").zipIdx.mapM fun (c, i) =>
    buildDataNode sc c ⟨[], some true, false⟩ (itemPlace place "data" i)
  let rpcs ← (raw.itemsAt "rpcs").zipIdx.mapM fun (c, i) =>
    buildOperation sc c false ⟨[], none, false⟩ (itemPlace place "rpcs" i)
  let notifications ← (raw.itemsAt "notifications").zipIdx.mapM fun (c, i) =>
    buildNotification sc c (itemPlace place "notifications" i)
  pure { name := sc.name, prefixName := sc.prefixName, namespaceUri := sc.namespaceUri,
         revision := raw.textAt? "revision", imports := sc.imports,
         features := raw.textsAt "features", dataNodes, rpcs, notifications, augments := [] }

end YangDiagram.Schema
