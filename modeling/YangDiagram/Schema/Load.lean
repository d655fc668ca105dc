-- Loading a document: check it against the grammar, build every module in order, then apply the
-- augment statements one by one, each seeing what the earlier ones added.
import YangDiagram.Schema.Augment
import YangDiagram.Report.Basic

namespace YangDiagram.Schema

open YangDiagram.Json

/-- The namespace of each module name of a document: that of the first module of the name. -/
def namespacesOf (raws : List Value) : List (Text × Text) :=
  raws.foldl (fun acc raw =>
    let name := (raw.textAt? "name").getD ""
    if (lookupKey acc name).isSome then acc
    else acc ++ [(name, (raw.textAt? "namespace").getD "")]) []

/-- Applies the augment statements of the `k`-th module statement in order. -/
def applyAugments (namespaces : List (Text × Text)) (acc : List Module × List (Nat × Applied))
    (raw : Value) (k : Nat) : Except LoadError (List Module × List (Nat × Applied)) :=
  let sc := Scope.ofStatement raw namespaces
  (raw.itemsAt "augments").zipIdx.foldlM (fun acc (aug, i) => do
    let (mods, ap) ← applyAugment sc acc.1 aug (itemPlace ("/modules/" ++ Text.ofNat k) "augments" i)
    pure (mods, acc.2 ++ [(k, ap)])) acc

/-- The augments of the `k`-th module, with their nodes as they stand in the final modules. -/
def augmentsOf (mods : List Module) (applied : List (Nat × Applied)) (k : Nat) :
    List Augmentation :=
  (applied.filter (·.1 = k)).map fun (_, ap) =>
    ⟨ap.targetText, ap.target.path, ap.target.body, ap.added.filterMap (nodeAt? mods)⟩

/-- The modules a JSON document describes, or why it does not load. -/
def Context.load (doc : Value) : Except LoadError Context := do
  if let some f := Document.check doc then throw (.invalid f)
  let raws := doc.itemsAt "modules"
  let namespaces := namespacesOf raws
  let built ← raws.zipIdx.mapM fun (raw, i) => buildModule raw i namespaces
  let (mods, applied) ← raws.zipIdx.foldlM
    (fun acc (raw, k) => applyAugments namespaces acc raw k) (built, [])
  pure ⟨mods.zipIdx.map fun (m, k) => { m with augments := augmentsOf mods applied k }⟩

def LoadError.report : LoadError → Report.ErrorReport
  | .invalid f =>
    { errorClass := .schema, code := .invalidDocument,
      message := "Invalid schema document: " ++ f.message,
      context := some (.obj [("documentPath", .str "")]) }
  | .unknownPrefix pre m place =>
    { errorClass := .schema, code := .unresolvedPrefix,
      message := "Unknown prefix \"" ++ pre ++ "\" in module " ++ m,
      context := some (.obj [("module", .str m), ("documentPath", .str place)]) }
  | .targetNotFound t m place =>
    { errorClass := .notFound, code := .targetNotFound,
      message := "Augment target not found: " ++ t,
      context := some (.obj [("module", .str m), ("documentPath", .str place)]) }
  | .refused added target m place =>
    { errorClass := .schema, code := .invalidDocument,
      message := "A " ++ added ++ " cannot augment a " ++ target.word,
      context := some (.obj [("module", .str m), ("documentPath", .str place)]) }

end YangDiagram.Schema
