-- Name prefixes: each namespace shows the prefix of the first module that has it, or its name
-- when names show module names; the drawn module's own namespace shows none unless prefixed too.
import YangDiagram.Schema.Node

namespace YangDiagram.Diagram

open YangDiagram.Schema

/-- The prefix shown for each namespace, in the order the modules come. -/
def prefixMap (ctx : Context) (m : Module) (byModuleName prefixOwn : Bool) :
    List (Text × Text) :=
  ctx.modules.foldl (fun acc x =>
    if x.namespaceUri = m.namespaceUri ∧ ¬prefixOwn then acc
    else if (lookupKey acc x.namespaceUri).isSome then acc
    else acc ++ [(x.namespaceUri, if byModuleName then x.name else x.prefixName)]) []

/-- A name as shown: with the prefix of its namespace, when that has one. -/
def shownName (prefixes : List (Text × Text)) (q : QName) : Text :=
  match lookupKey prefixes q.namespaceUri with
  | some p => p ++ ":" ++ q.localName
  | none => q.localName

end YangDiagram.Diagram
