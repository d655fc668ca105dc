-- What a statement builds: the few ways each builder succeeds, for data nodes, cases,
-- operations, notifications, modules and attachments, so that the invariants of the schema are
-- proved without opening the builders again.
import YangDiagram.Schema.Build
import YangDiagram.Schema.Augment
import YangDiagram.Schema.Load

namespace YangDiagram.Schema

open YangDiagram.Json

section Build

variable {sc : Scope} {raw : Value} {parent : Parent} {place : Text} {n : Node}

/-- A data node statement builds, by its kind, a container or list, a leaf or leaf-list, a
choice of cases, or an anyxml or anydata node, with its statement's information. -/
theorem buildDataNode_cases (h : buildDataNode sc raw parent place = .ok n) :
    let config := inheritConfig parent (raw.flagAt? "config")
    let info := baseInfo sc ((raw.textAt? "name").getD "") raw parent config
    let self : Parent := ⟨info.path, config, parent.augmenting⟩
    let mandatory := (raw.flagAt? "mandatory").getD false
    (∃ children actions,
      (raw.itemsAt "children").attach.zipIdx.mapM (fun (⟨c, _⟩, i) =>
        buildDataNode sc c self (itemPlace place "children" i)) = .ok children ∧
      (raw.itemsAt "actions").attach.zipIdx.mapM (fun (⟨a, _⟩, i) =>
        buildOperation sc a true self (itemPlace place "actions" i)) = .ok actions ∧
      (n = .container info ((raw.flagAt? "presence").getD false) children actions ∨
        n = .list info ((raw.textsAt "key").map sc.qname) children actions)) ∨
    (∃ type, sc.typeRef ((raw.textAt? "type").getD "") (raw.textAt? "path") (place ++ "/type") =
        .ok type ∧ (n = .leaf info type mandatory ∨ n = .leafList info type)) ∨
    (∃ cases, (raw.itemsAt "children").attach.zipIdx.mapM (fun (⟨c, _⟩, i) =>
        buildCase sc c self (itemPlace place "children" i)) = .ok cases ∧
      n = .choice info mandatory cases) ∨
    n = .anyxml info mandatory ∨ n = .anydata info mandatory := by
  intro config info self mandatory
  rw [buildDataNode] at h
  simp only [bind, Except.bind, pure, Except.pure] at h
  split at h
  · split at h
    · cases h
    · rename_i children hchildren
      split at h
      · cases h
      · rename_i actions hactions
        refine .inl ⟨children, actions, hchildren, hactions, ?_⟩
        split at h <;> cases h
        · exact .inl rfl
        · exact .inr rfl
  · split at h
    · split at h
      · cases h
      · rename_i type htype
        refine .inr (.inl ⟨type, htype, ?_⟩)
        split at h <;> cases h
        · exact .inl rfl
        · exact .inr rfl
    · split at h
      · split at h
        · cases h
        · rename_i cases hcases
          cases h
          exact .inr (.inr (.inl ⟨cases, hcases, rfl⟩))
      · split at h <;> cases h
        · exact .inr (.inr (.inr (.inl rfl)))
        · exact .inr (.inr (.inr (.inr rfl)))

/-- A statement under a choice builds a case: of the children it writes when its kind is `case`,
else of the one data node it writes itself, under a case of its own name. -/
theorem buildCase_cases (h : buildCase sc raw parent place = .ok n) :
    let name := (raw.textAt? "name").getD ""
    (raw.textAt? "kind" = some (Text.ofString "case") ∧ ∃ children,
      (raw.itemsAt "children").attach.zipIdx.mapM (fun (⟨c, _⟩, i) =>
        buildDataNode sc c
          ⟨(baseInfo sc name raw parent parent.config).path, parent.config, parent.augmenting⟩
          (itemPlace place "children" i)) = .ok children ∧
      n = .case (baseInfo sc name raw parent parent.config) children) ∨
    (raw.textAt? "kind" ≠ some (Text.ofString "case") ∧ ∃ node,
      buildDataNode sc raw
        ⟨(baseInfo sc name (.obj []) parent parent.config).path, parent.config,
          parent.augmenting⟩ place = .ok node ∧
      n = .case (baseInfo sc name (.obj []) parent parent.config) [node]) := by
  intro name
  rw [buildCase] at h
  simp only [bind, Except.bind, pure, Except.pure] at h
  split at h
  · rename_i hkind
    split at h
    · cases h
    · rename_i children hchildren
      cases h
      exact .inl ⟨hkind, children, hchildren, rfl⟩
  · rename_i hkind
    split at h
    · cases h
    · rename_i node hnode
      cases h
      exact .inr ⟨hkind, node, hnode, rfl⟩

/-- An operation statement builds an rpc, or an action, over an input and an output of the
data nodes built from the statements each writes, one name below the operation. -/
theorem buildOperation_cases {isAction : Bool}
    (h : buildOperation sc raw isAction parent place = .ok n) :
    let info := baseInfo sc ((raw.textAt? "name").getD "") raw parent none
    let bodyInfo (which : Body) : Info :=
      { qname := sc.qname which.word, path := info.path ++ [sc.qname which.word],
        status := .current, config := none, ifFeatures := [], augmenting := parent.augmenting }
    let inner (which : Body) : Parent := ⟨(bodyInfo which).path, none, parent.augmenting⟩
    ∃ input output,
      (raw.itemsAt "input").attach.zipIdx.mapM (fun (⟨c, _⟩, i) =>
        buildDataNode sc c (inner .input) (itemPlace place "input" i)) = .ok input ∧
      (raw.itemsAt "output").attach.zipIdx.mapM (fun (⟨c, _⟩, i) =>
        buildDataNode sc c (inner .output) (itemPlace place "output" i)) = .ok output ∧
      n = if isAction then .action info (.input (bodyInfo .input) input)
          (.output (bodyInfo .output) output)
        else .rpc info (.input (bodyInfo .input) input) (.output (bodyInfo .output) output) := by
  intro info bodyInfo inner
  rw [buildOperation] at h
  simp only [bind, Except.bind, pure, Except.pure] at h
  split at h
  · cases h
  · rename_i input hinput
    split at h
    · cases h
    · rename_i output houtput
      cases h
      exact ⟨input, output, hinput, houtput, rfl⟩

/-- A notification statement builds a notification over the data nodes built from the children
it writes, which are not configuration. -/
theorem buildNotification_cases (h : buildNotification sc raw place = .ok n) :
    let info := baseInfo sc ((raw.textAt? "name").getD "") raw ⟨[], none, false⟩ none
    ∃ children, (raw.itemsAt "children").zipIdx.mapM (fun (c, i) =>
        buildDataNode sc c ⟨info.path, some false, false⟩ (itemPlace place "children" i)) =
        .ok children ∧
      n = .notification info children := by
  intro info
  simp only [buildNotification, bind, Except.bind, pure, Except.pure] at h
  split at h
  · cases h
  · rename_i children hchildren
    cases h
    exact ⟨children, hchildren, rfl⟩

end Build

theorem buildDataNode_leaf (sc : Scope) (raw : Value) (parent : Parent) (place : Text)
    (h : (raw.textAt? "kind").getD "" = "leaf") :
    buildDataNode sc raw parent place =
      (sc.typeRef ((raw.textAt? "type").getD "") (raw.textAt? "path") (place ++ "/type")).map
        fun type => .leaf (baseInfo sc ((raw.textAt? "name").getD "") raw parent
          (inheritConfig parent (raw.flagAt? "config"))) type ((raw.flagAt? "mandatory").getD false) := by
  rw [buildDataNode]
  have hkind : (Text.ofString "leaf" = Text.ofString "container" ∨
      Text.ofString "leaf" = Text.ofString "list") = False := by
    simp only [eq_iff_iff, iff_false]
    decide
  simp only [h, hkind, if_false]
  cases sc.typeRef ((raw.textAt? "type").getD "") (raw.textAt? "path") (place ++ "/type") <;> rfl

/-- A module statement builds a module with the names of its scope, the top-level data nodes,
rpcs and notifications built from the statements it writes, and no augment yet. -/
theorem buildModule_cases {raw : Value} {index : Nat} {namespaces : List (Text × Text)}
    {m : Module} (h : buildModule raw index namespaces = .ok m) :
    let scope := Scope.ofStatement raw namespaces
    let place : Text := "/modules/" ++ Text.ofNat index
    ∃ dataNodes rpcs notifications,
      (raw.itemsAt "data").zipIdx.mapM (fun (c, i) =>
        buildDataNode scope c ⟨[], some true, false⟩ (itemPlace place "data" i)) = .ok dataNodes ∧
      (raw.itemsAt "rpcs").zipIdx.mapM (fun (c, i) =>
        buildOperation scope c false ⟨[], none, false⟩ (itemPlace place "rpcs" i)) = .ok rpcs ∧
      (raw.itemsAt "notifications").zipIdx.mapM (fun (c, i) =>
        buildNotification scope c (itemPlace place "notifications" i)) = .ok notifications ∧
      m = { name := scope.name, prefixName := scope.prefixName,
            namespaceUri := scope.namespaceUri, revision := raw.textAt? "revision",
            imports := scope.imports, features := raw.textsAt "features", dataNodes, rpcs,
            notifications, augments := [] } := by
  intro scope place
  simp only [buildModule, bind, Except.bind, pure, Except.pure] at h
  split at h
  · cases h
  · rename_i dataNodes hdata
    split at h
    · cases h
    · rename_i rpcs hrpcs
      split at h
      · cases h
      · rename_i notifications hnotifications
        cases h
        exact ⟨dataNodes, rpcs, notifications, hdata, hrpcs, hnotifications, rfl⟩

/-- Attaching a statement adds one node under the target, built under its path and marked as
added: an action under a container or list, a case under a choice, else a data node. -/
theorem attach_cases {sc : Scope} {mods : List Module} {target : Target} {raw : Value}
    {place : Text} {r : List Module × Address} (h : attach sc mods target raw place = .ok r) :
    let t := target.node
    let kind := (raw.textAt? "kind").getD ""
    let parent : Parent :=
      ⟨t.path, if t.kind = .notification then some false else t.info.config, true⟩
    let under (s : Slot) : Address := { target.address with steps := target.address.steps ++ [s] }
    ((t.kind = .container ∨ t.kind = .list) ∧ kind = "action" ∧
      ∃ a, buildOperation sc raw true parent place = .ok a ∧
        r = (modifyAt mods target.address (Node.addAction a), under (.action t.counts.2))) ∨
    (t.kind = .choice ∧ kind ≠ "action" ∧
      ∃ n, buildCase sc raw parent place = .ok n ∧
        r = (modifyAt mods target.address (Node.addChild n), under (.child t.counts.1))) ∨
    ((t.kind = .container ∨ t.kind = .list ∨ t.kind = .case ∨ t.kind = .input ∨
        t.kind = .output ∨ t.kind = .notification) ∧ kind ≠ "case" ∧ kind ≠ "action" ∧
      ∃ n, buildDataNode sc raw parent place = .ok n ∧
        r = (modifyAt mods target.address (Node.addChild n), under (.child t.counts.1))) := by
  unfold attach at h
  simp only [bind, Except.bind, pure, Except.pure] at h
  split at h
  case h_1 hk | h_2 hk =>
    split at h
    · cases h
    · rename_i hcase
      split at h
      · rename_i haction
        split at h
        · cases h
        · rename_i a ha
          cases h
          exact .inl ⟨by simp [hk], haction, a, by simpa [hk] using ha, rfl⟩
      · rename_i haction
        split at h
        · cases h
        · rename_i n hn
          cases h
          exact .inr (.inr ⟨by simp [hk], hcase, haction, n, by simpa [hk] using hn, rfl⟩)
  case h_3 hk =>
    split at h
    · cases h
    · rename_i haction
      split at h
      · cases h
      · rename_i n hn
        cases h
        exact .inr (.inl ⟨hk, haction, n, by simpa [hk] using hn, rfl⟩)
  case h_4 hk | h_5 hk | h_6 hk | h_7 hk =>
    split at h
    · cases h
    · rename_i hkind
      obtain ⟨hcase, haction⟩ := not_or.mp hkind
      split at h
      · cases h
      · rename_i n hn
        cases h
        exact .inr (.inr ⟨by simp [hk], hcase, haction, n, by simpa [hk] using hn, rfl⟩)
  case h_8 => cases h

/-- One step of an augment statement: its node statement `n`, the `j`-th, attached under the
target's node as the earlier steps left it, and the place it took recorded. -/
def attachItem (sc : Scope) (text : Text) (target : Target) (place : Text) :
    List Module × List Address → Value × Nat → Except LoadError (List Module × List Address) :=
  fun acc (n, j) => do
    let some node := nodeAt? acc.1 target.address
      | throw (LoadError.targetNotFound text sc.name (place ++ "/target"))
    let (mods', a) ← attach sc acc.1 { target with node } n (itemPlace place "nodes" j)
    pure (mods', acc.2 ++ [a])

/-- An augment statement records the target it names, resolved, and attaches its node
statements one by one from the modules it is given. -/
theorem applyAugment_cases {sc : Scope} {mods : List Module} {raw : Value} {place : Text}
    {result : List Module × Applied} (h : applyAugment sc mods raw place = .ok result) :
    result.2.targetText = (raw.textAt? "target").getD "" ∧
      resolveTarget sc mods result.2.targetText (place ++ "/target") = .ok result.2.target ∧
      (raw.itemsAt "nodes").zipIdx.foldlM
        (attachItem sc result.2.targetText result.2.target place) (mods, []) =
        .ok (result.1, result.2.added) := by
  simp only [applyAugment, bind, Except.bind, pure, Except.pure] at h
  split at h
  · cases h
  · rename_i target htarget
    split at h
    · cases h
    · rename_i added hadded
      cases h
      exact ⟨rfl, htarget, hadded⟩

/-- A step of an augment statement finds the target's node where the earlier steps left it,
attaches the node statement under it, and records the place it took. -/
theorem attachItem_cases {sc : Scope} {text : Text} {target : Target} {place : Text}
    {acc acc' : List Module × List Address} {item : Value × Nat}
    (h : attachItem sc text target place acc item = .ok acc') :
    ∃ node r, nodeAt? acc.1 target.address = some node ∧
      attach sc acc.1 { target with node } item.1 (itemPlace place "nodes" item.2) = .ok r ∧
      acc' = (r.1, acc.2 ++ [r.2]) := by
  obtain ⟨n, j⟩ := item
  simp only [attachItem, bind, Except.bind, pure, Except.pure] at h
  split at h
  · rename_i node hnode
    split at h
    · cases h
    · rename_i r hr
      cases h
      exact ⟨node, r, hnode, hr, rfl⟩
  · cases h

/-- What loading a document does: the document passes the check, every module statement is
built, and the augments of every statement are applied in order to the built modules. -/
theorem Context.load_cases {doc : Value} {ctx : Context} (h : Context.load doc = .ok ctx) :
    Document.check doc = none ∧ ∃ built r,
      (doc.itemsAt "modules").zipIdx.mapM
          (fun p => buildModule p.1 p.2 (namespacesOf (doc.itemsAt "modules"))) = .ok built ∧
      (doc.itemsAt "modules").zipIdx.foldlM
          (fun acc p => applyAugments (namespacesOf (doc.itemsAt "modules")) acc p.1 p.2)
          (built, []) = .ok r ∧
      ctx.modules = r.1.zipIdx.map fun p => { p.1 with augments := augmentsOf r.1 r.2 p.2 } := by
  simp only [Context.load, bind, Except.bind, pure, Except.pure] at h
  split at h
  · cases h
  · rename_i hcheck
    split at h
    · cases h
    · rename_i built hbuilt
      split at h
      · cases h
      · rename_i r hr
        cases h
        exact ⟨Option.eq_none_iff_forall_ne_some.mpr fun f hf => hcheck f hf, built, r, hbuilt,
          hr, rfl⟩

end YangDiagram.Schema
