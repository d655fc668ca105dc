-- Type names from document to diagram: a written `prefix:name` shows bare for the module itself,
-- under the shown prefix of another module's namespace, or as written when its module is not in
-- the document; a prefix that stands for no module fails the load.
import Mathlib
import YangDiagram.Proofs.Schema.Statements
import YangDiagram.Proofs.Diagram.Grouping

namespace YangDiagram.Diagram

open YangDiagram.Schema YangDiagram.Json

/-! ## The pure model -/

/-- The prefixes a module statement declares, in order: its own prefix, standing for itself, then
the prefix of each import, standing for the imported module. -/
def declaredPrefixes (raw : Value) : List (Text × Text) :=
  ((raw.textAt? "prefix").getD "", (raw.textAt? "name").getD "") ::
    (raw.itemsAt "imports").map fun imp =>
      ((imp.textAt? "prefix").getD "", (imp.textAt? "module").getD "")

/-- The module a prefix stands for in a module statement: that of its last declaration, so that a
later import of a prefix overrides an earlier import and the module's own prefix. -/
def prefixTarget (raw : Value) (pre : Text) : Option Text :=
  (((declaredPrefixes raw).filter (·.1 = pre)).map (·.2)).getLast?

/-- The prefix module `M`'s diagram shows for a namespace: that of its first module entry, or its
name when names show module names; none for `M`'s own unless prefixed, nor for an unknown one. -/
def displayPrefix (ctx : Context) (M : Module) (byModuleName prefixOwn : Bool) (uri : Text) :
    Option Text :=
  if uri = M.namespaceUri ∧ ¬prefixOwn then none
  else (ctx.modules.find? (·.namespaceUri = uri)).map fun x =>
    if byModuleName then x.name else x.prefixName

/-- A type as written, split at its first colon into its prefix and its name; none when it has
no colon. -/
def writtenParts (t : Text) : Option (Text × Text) :=
  if Text.unit ':' ∈ t.units then
    some (⟨t.units.takeWhile (· != Text.unit ':')⟩,
      ⟨(t.units.dropWhile (· != Text.unit ':')).tail⟩)
  else none

/-- The type module `M`'s diagram shows for a type written `t`: bare for no prefix or `M`'s own,
under the prefix shown for another module's namespace, or as written when the module is absent. -/
def shownTypeName (ctx : Context) (raw : Value) (M : Module) (s : Settings) (t : Text) :
    Option Text :=
  match writtenParts t with
  | none => some t
  | some (pre, name) =>
    (prefixTarget raw pre).map fun X =>
      if X = M.name then name
      else match ctx.modules.find? (·.name = X) with
        | none => pre ++ ":" ++ name
        | some x =>
          match displayPrefix ctx M s.byModuleName s.prefixOwn x.namespaceUri with
          | some D => D ++ ":" ++ name
          | none => name

/-- A leafref written without prefix and given a path, which a diagram shows by its target. -/
def IsBareLeafref (t : Text) (path : Option Text) : Prop :=
  t = "leafref" ∧ path.isSome

/-! ## Splitting a written type -/

theorem writtenParts_eq_none {t : Text} : writtenParts t = none ↔ Text.unit ':' ∉ t.units := by
  unfold writtenParts
  split <;> simp_all

theorem eq_takeWhile_append_of_mem {a : UInt16} : ∀ {l : List UInt16}, a ∈ l →
    l = l.takeWhile (· != a) ++ a :: (l.dropWhile (· != a)).tail ∧ a ∉ l.takeWhile (· != a)
  | [], h => absurd h List.not_mem_nil
  | x :: l, h => by
    by_cases hx : x = a
    · subst hx
      simp
    · have hl : a ∈ l := (List.mem_cons.mp h).resolve_left (Ne.symm hx)
      obtain ⟨heq, hnot⟩ := eq_takeWhile_append_of_mem hl
      have hne : (x != a) = true := bne_iff_ne.mpr hx
      simp only [List.takeWhile_cons, List.dropWhile_cons, hne, if_true, List.cons_append,
        List.mem_cons, not_or]
      exact ⟨congrArg (x :: ·) heq, Ne.symm hx, hnot⟩

theorem units_of_writtenParts {t pre name : Text} (h : writtenParts t = some (pre, name)) :
    t.units = pre.units ++ Text.unit ':' :: name.units ∧ Text.unit ':' ∉ pre.units := by
  unfold writtenParts at h
  split at h
  · rename_i hmem
    simp only [Option.some.injEq, Prod.mk.injEq] at h
    obtain ⟨rfl, rfl⟩ := h
    exact eq_takeWhile_append_of_mem hmem
  · cases h

theorem intercalate_splitOn_colon (t : Text) :
    Text.intercalate ":" (t.splitOn (Text.unit ':')) = t := by
  simp [Text.intercalate, Text.splitOn, units_colon, Function.comp_def]

/-! ## What the loader makes of a written type -/

/-- How the loader reads a type `prefix:name`: the prefix dropped for the module itself, replaced
by the namespace of another module, kept for a module not in the document, an error otherwise. -/
theorem typeRef_eq (sc : Scope) (t : Text) (path : Option Text) (place : Text) :
    sc.typeRef t path place =
      match writtenParts t with
      | none => .ok { name := t, path }
      | some (pre, name) =>
        match lookupKey sc.imports pre with
        | none => .error (.unknownPrefix pre sc.name place)
        | some X => .ok (if X = sc.name then { name } else
            match lookupKey sc.namespaces X with
            | some uri => { name, namespaceUri := some uri }
            | none => { name, prefixName := some pre }) := by
  cases hw : writtenParts t with
  | none =>
    have hsplit : t.splitOn (Text.unit ':') = [t] := by
      simp [Text.splitOn, List.splitOn_eq_singleton (writtenParts_eq_none.mp hw)]
    simp [Scope.typeRef, hsplit]
  | some parts =>
    obtain ⟨pre, name⟩ := parts
    obtain ⟨hunits, hpre⟩ := units_of_writtenParts hw
    obtain ⟨r, rs, hrest⟩ :=
      List.exists_cons_of_ne_nil (List.splitOn_ne_nil (Text.unit ':') name.units)
    have hsplit : t.splitOn (Text.unit ':') = pre :: Text.mk r :: rs.map Text.mk := by
      simp [Text.splitOn, hunits, List.splitOn_append_cons_self_of_not_mem hpre, hrest]
    have hname : Text.intercalate ":" (Text.mk r :: rs.map Text.mk) = name := by
      have := intercalate_splitOn_colon name
      simpa [Text.splitOn, hrest] using this
    simp only [Scope.typeRef, hsplit, hname, Scope.resolve, bind, Except.bind, pure, Except.pure]
    cases lookupKey sc.imports pre with
    | none => rfl
    | some X =>
      simp only
      split
      · rfl
      · cases lookupKey sc.namespaces X <;> rfl

/-- The module a prefix stands for in a statement's scope is the one its last declaration
names. -/
theorem lookupKey_scope_imports (raw : Value) (namespaces : List (Text × Text)) (pre : Text) :
    lookupKey (Scope.ofStatement raw namespaces).imports pre = prefixTarget raw pre := by
  have himports : (Scope.ofStatement raw namespaces).imports =
      (declaredPrefixes raw).foldl (fun acc p => putKey acc p.1 p.2) [] := by
    simp [Scope.ofStatement, declaredPrefixes, List.foldl_map, putKey]
  rw [himports, lookupKey_foldl (fun p => some p.2) (·.1) (fun _ _ _ h => by cases h; rfl)
    (fun _ _ h => by cases h) _ pre, prefixTarget]
  simp

/-! ## The prefixes a diagram shows -/

/-- The prefix map of a diagram gives each namespace the display prefix of the first module entry
that has it, and none to the drawn module's own namespace unless its names are prefixed too. -/
theorem lookupKey_prefixMap (ctx : Context) (M : Module) (byModuleName prefixOwn : Bool)
    (uri : Text) :
    lookupKey (prefixMap ctx M byModuleName prefixOwn) uri =
      displayPrefix ctx M byModuleName prefixOwn uri := by
  rw [prefixMap, List.foldl_ite_right,
    lookupKey_foldl_firstWins (fun x : Module => x.namespaceUri)
      (fun x : Module => if byModuleName then x.name else x.prefixName),
    List.find?_filter, displayPrefix]
  by_cases hown : uri = M.namespaceUri ∧ ¬prefixOwn
  · rw [if_pos hown]
    obtain ⟨rfl, hp⟩ := hown
    simp [hp]
  · rw [if_neg hown]
    congr 1
    apply List.find?_congr
    intro x _
    by_cases hx : x.namespaceUri = uri
    · subst hx
      simp only [decide_eq_true_eq, and_true]
      exact decide_eq_true hown
    · simp [hx]

/-! ## Type columns -/

theorem type_of_mem_moduleLines {ctx : Context} {tree : SchemaTree} {M : Module} {s : Settings}
    {n : Node} {pl : Place} {r : Row} (h : Line.row n pl r ∈ moduleLines ctx tree M s)
    {ty : TypeRef} (hty : n.typeRef? = some ty) :
    r.type = some (typeText (Env.ofModule ctx M s) ty) := by
  rw [moduleLines_eq_sections] at h
  obtain ⟨sec, -, h⟩ := List.mem_flatMap.mp h
  rcases List.mem_cons.mp h with h | h
  · cases h
  · obtain ⟨n', p', w, hrow⟩ := mem_drawEntries_row h
    cases hrow
    cases n <;> simp_all [Node.typeRef?, rowOf, typeOf]

section Scoped

variable {sc : Scope} {raw : Value} {ctx : Context} {M : Module} {s : Settings}

/-- Read in the scope its statement declares, a type shows in `M`'s diagram as `shownTypeName`
says, a leafref written without prefix and given a path apart. -/
theorem typeText_of_typeRef (hname : sc.name = M.name)
    (himports : ∀ pre, lookupKey sc.imports pre = prefixTarget raw pre)
    (hns : ∀ X,
      lookupKey sc.namespaces X = (ctx.modules.find? (·.name = X)).map (·.namespaceUri))
    {t : Text} {path : Option Text} {place : Text} {ty : TypeRef}
    (h : sc.typeRef t path place = .ok ty) (hbare : ¬IsBareLeafref t path) :
    some (typeText (Env.ofModule ctx M s) ty) = shownTypeName ctx raw M s t := by
  rw [typeRef_eq] at h
  unfold shownTypeName
  cases hw : writtenParts t with
  | none =>
    simp only [hw, Except.ok.injEq] at h
    subst h
    cases path with
    | none => rfl
    | some p =>
      have hne : t ≠ "leafref" := fun heq => hbare ⟨heq, rfl⟩
      simp [typeText, hne, typeText.qualified]
  | some parts =>
    obtain ⟨pre, name⟩ := parts
    simp only [hw, himports] at h ⊢
    cases hX : prefixTarget raw pre with
    | none => simp [hX] at h
    | some X =>
      simp only [hX, Except.ok.injEq, hname] at h
      subst h
      simp only [Option.map_some]
      by_cases hown : X = M.name
      · simp [hown, typeText, typeText.qualified]
      · simp only [hown, if_false, hns]
        cases hfind : ctx.modules.find? (·.name = X) with
        | none => simp [typeText, typeText.qualified]
        | some x =>
          cases hd : displayPrefix ctx M s.byModuleName s.prefixOwn x.namespaceUri <;>
            simp only [Option.map_some, typeText, typeText.qualified, Env.ofModule,
              lookupKey_prefixMap, hd]

/-- A type fails to be read exactly when its prefix stands for no module, and then with an
unresolved prefix, code E011. -/
theorem typeRef_error_iff (himports : ∀ pre, lookupKey sc.imports pre = prefixTarget raw pre)
    (t : Text) (path : Option Text) (place : Text) :
    ((∃ e, sc.typeRef t path place = .error e) ↔ shownTypeName ctx raw M s t = none) ∧
      ∀ e, sc.typeRef t path place = .error e → e.report.code = .unresolvedPrefix := by
  rw [typeRef_eq]
  unfold shownTypeName
  cases hw : writtenParts t with
  | none => simp
  | some parts =>
    obtain ⟨pre, name⟩ := parts
    simp only [himports]
    cases prefixTarget raw pre with
    | none => simp [LoadError.report]
    | some X => simp

end Scoped

theorem writtenParts_leafref : writtenParts "leafref" = none :=
  writtenParts_eq_none.mpr (by decide)

/-- Type names are qualified consistently from document to diagram: each leaf's type shows as
`shownTypeName` says, and a prefix that stands for no module fails the load with code E011. -/
theorem type_names_qualified {doc : Value} {ctx : Context} (hload : Context.load doc = .ok ctx)
    {k : Nat} {raw : Value} {M : Module} (hraw : (doc.itemsAt "modules")[k]? = some raw)
    (hM : ctx.modules[k]? = some M) (s : Settings) :
    let sc := Scope.ofStatement raw (namespacesOf (doc.itemsAt "modules"))
    (∀ n pl r ty, Line.row n pl r ∈ moduleLines ctx ctx.schemaTree M s →
      n.typeRef? = some ty → ∀ t path place, sc.typeRef t path place = .ok ty →
        (¬IsBareLeafref t path → r.type = shownTypeName ctx raw M s t) ∧
        (IsBareLeafref t path → ∃ p, path = some p ∧
          r.type = some ("-> " ++ leafrefTarget (Env.ofModule ctx M s) p))) ∧
    ∀ t path place,
      ((∃ e, sc.typeRef t path place = .error e) ↔ shownTypeName ctx raw M s t = none) ∧
        ∀ e, sc.typeRef t path place = .error e → e.report.code = .unresolvedPrefix := by
  intro sc
  have hlabel : M.label = statementLabel (namespacesOf (doc.itemsAt "modules")) raw := by
    have := congrArg (·[k]?) (Context.labels_of_load hload)
    simpa [hM, hraw] using this
  have hname : sc.name = M.name := (congrArg (·.1) hlabel).symm
  have himports := lookupKey_scope_imports raw (namespacesOf (doc.itemsAt "modules"))
  have hns := Context.namespacesOf_eq_find? hload
  refine ⟨fun n pl r ty hrow hty t path place hread => ⟨fun hbare => ?_, fun hbare => ?_⟩,
    typeRef_error_iff himports⟩
  · rw [type_of_mem_moduleLines hrow hty]
    exact typeText_of_typeRef hname himports hns hread hbare
  · obtain ⟨rfl, hpath⟩ := hbare
    obtain ⟨p, rfl⟩ := Option.isSome_iff_exists.mp hpath
    rw [typeRef_eq, writtenParts_leafref] at hread
    simp only [Except.ok.injEq] at hread
    subst hread
    exact ⟨p, rfl, by rw [type_of_mem_moduleLines hrow hty]; simp [typeText]⟩

/-! ## A module that imports another

Module `ac` imports module `b`, whose own prefix is `bb`, under the prefix `x`. It has a leaf `l`
of type `x:t` and a leaf `r` that refers to `/mac:x/ac:y`. -/

open ImportSample in
/-- In the diagram of module `ac`, drawn with the default options, a type that `ac`'s statement
wrote shows as `shownTypeName` says. -/
theorem type_names_qualified_importSample :
    Context.load importDoc = .ok ⟨[acModule, bModule]⟩ ∧
      (importDoc.itemsAt "modules")[0]? = some acStatement ∧
      [acModule, bModule][0]? = some acModule ∧
      let ctx : Context := ⟨[acModule, bModule]⟩
      let s : Settings := ⟨{}, unbounded, unbounded⟩
      let sc := Scope.ofStatement acStatement (namespacesOf (importDoc.itemsAt "modules"))
      (∀ n pl r ty, Line.row n pl r ∈ moduleLines ctx ctx.schemaTree acModule s →
        n.typeRef? = some ty → ∀ t path place, sc.typeRef t path place = .ok ty →
          (¬IsBareLeafref t path → r.type = shownTypeName ctx acStatement acModule s t) ∧
          (IsBareLeafref t path → ∃ p, path = some p ∧
            r.type = some ("-> " ++ leafrefTarget (Env.ofModule ctx acModule s) p))) ∧
      ∀ t path place,
        ((∃ e, sc.typeRef t path place = .error e) ↔
          shownTypeName ctx acStatement acModule s t = none) ∧
          ∀ e, sc.typeRef t path place = .error e → e.report.code = .unresolvedPrefix :=
  ⟨load_importDoc, rfl, rfl, type_names_qualified load_importDoc (k := 0) rfl rfl _⟩

open ImportSample in
example :
    shownTypeName ⟨[acModule, bModule]⟩ acStatement acModule ⟨{}, unbounded, unbounded⟩
      "x:t" =
    some (Text.ofString "bb:t") := by
  decide

end YangDiagram.Diagram
