-- Augment groups: the nodes a module adds elsewhere, one group per target path in the order the
-- targets first appear under the root, drawn under `augment /p:a/p:b:` and in the role of the
-- operation body an augment of the module reaches into.
import YangDiagram.Schema.Tree
import YangDiagram.Diagram.Row

namespace YangDiagram.Diagram

open YangDiagram.Schema

/-- The nodes a module adds under one target path, and the role they are drawn in. -/
structure Group where
  target : List QName
  members : List SchemaTree
  role : Role

def bodyRole : Body → Role
  | .input => .input
  | .output => .output

/-- The augment groups of a module, from the entries of the schema tree's root that it added. -/
def groupsOf (root : SchemaTree) (m : Module) : List Group :=
  let roles : List (Text × Role) := m.augments.foldl (fun acc a =>
    match a.body with
    | some b => putKey acc (pathKey a.target) (bodyRole b)
    | none => acc) []
  let groups : List (Text × List QName × List (Text × SchemaTree)) :=
    root.childTrees.foldl (fun acc c =>
      if c.augmenting ∧ c.namespaceUri? = some m.namespaceUri then
        let target := c.path.dropLast
        let key := pathKey target
        match lookupKey acc key with
        | some (t, ms) => putKey acc key (t, putKey ms (pathKey c.path) c)
        | none => acc ++ [(key, target, [(pathKey c.path, c)])]
      else acc) []
  groups.map fun (key, target, ms) => ⟨target, ms.map (·.2), (lookupKey roles key).getD .plain⟩

def groupHeading (prefixes : List (Text × Text)) (target : List QName) : Text :=
  "augment " ++ Text.join (target.map fun q => ("/" : Text) ++ shownName prefixes q) ++ ":"

end YangDiagram.Diagram
