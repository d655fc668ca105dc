-- What a loaded module keeps of its statement: its name, prefix, namespace, revision and the
-- prefixes it can use, which no augment changes. A checked document gives each module a prefix
-- with no separator.
import Mathlib
import YangDiagram.Proofs.Schema.Origin

namespace YangDiagram.Schema

open YangDiagram.Json

/-- What a module takes from its statement and keeps under augments: its name, its own prefix,
its namespace, its revision and the prefixes it can use. -/
def Module.label (m : Module) : Text × Text × Text × Option Text × List (Text × Text) :=
  (m.name, m.prefixName, m.namespaceUri, m.revision, m.imports)

def statementLabel (namespaces : List (Text × Text)) (raw : Value) :
    Text × Text × Text × Option Text × List (Text × Text) :=
  let sc := Scope.ofStatement raw namespaces
  (sc.name, sc.prefixName, sc.namespaceUri, raw.textAt? "revision", sc.imports)

def Node.typeRef? : Node → Option TypeRef
  | .leaf _ t _ | .leafList _ t => some t
  | _ => none

/-! ## Augments keep labels -/

@[simp] theorem Module.label_modifyTop (m : Module) (f : Node → Node) (t : Top) :
    (m.modifyTop f t).label = m.label := by
  cases t <;> rfl

theorem labels_modifyAt (mods : List Module) (a : Address) (f : Node → Node) :
    (modifyAt mods a f).map Module.label = mods.map Module.label := by
  apply List.ext_getElem?
  intro j
  simp only [modifyAt, List.getElem?_map, List.getElem?_modify]
  split <;> simp [Function.comp_def]

theorem attach_labels {sc : Scope} {mods : List Module} {target : Target} {raw : Value}
    {place : Text} {r : List Module × Address} (h : attach sc mods target raw place = .ok r) :
    r.1.map Module.label = mods.map Module.label := by
  obtain ⟨c, -, -, -, -, hcases⟩ := attach_added h
  rcases hcases with ⟨-, rfl⟩ | ⟨-, rfl⟩ <;> exact labels_modifyAt _ _ _

theorem applyAugment_labels {sc : Scope} {mods mods' : List Module} {raw : Value} {place : Text}
    {ap : Applied} (h : applyAugment sc mods raw place = .ok (mods', ap)) :
    mods'.map Module.label = mods.map Module.label := by
  obtain ⟨-, -, hadded⟩ := applyAugment_cases h
  refine foldlM_ok_invariant (fun acc => acc.1.map Module.label = mods.map Module.label)
    ?_ rfl hadded
  intro acc item acc' hinv hstep
  obtain ⟨node, r, -, hr, rfl⟩ := attachItem_cases hstep
  exact (attach_labels hr).trans hinv

theorem applyAugments_labels {namespaces : List (Text × Text)}
    {acc result : List Module × List (Nat × Applied)} {raw : Value} {k : Nat}
    (h : applyAugments namespaces acc raw k = .ok result) :
    result.1.map Module.label = acc.1.map Module.label := by
  refine foldlM_ok_invariant (fun acc' => acc'.1.map Module.label = acc.1.map Module.label)
    ?_ rfl h
  intro acc' item acc'' hinv hstep
  obtain ⟨aug, i⟩ := item
  simp only [bind, Except.bind, pure, Except.pure] at hstep
  split at hstep
  · cases hstep
  · rename_i r hr
    cases hstep
    exact (applyAugment_labels hr).trans hinv

theorem buildModule_label {raw : Value} {index : Nat} {namespaces : List (Text × Text)}
    {m : Module} (h : buildModule raw index namespaces = .ok m) :
    m.label = statementLabel namespaces raw := by
  obtain ⟨-, -, -, -, -, -, rfl⟩ := buildModule_cases h
  rfl

theorem labels_of_mapM_buildModule {raws : List Value} {namespaces : List (Text × Text)}
    {built : List Module}
    (h : raws.zipIdx.mapM (fun p => buildModule p.1 p.2 namespaces) = .ok built) :
    built.map Module.label = raws.map (statementLabel namespaces) := by
  have hlabels : List.Forall₂ (fun p m => statementLabel namespaces p.1 = m.label)
      raws.zipIdx built := (forall₂_of_mapM_ok h).imp fun p m hp => (buildModule_label hp).symm
  have heq : List.Forall₂ (· = ·) (raws.zipIdx.map fun p => statementLabel namespaces p.1)
      (built.map Module.label) :=
    List.forall₂_map_left_iff.mpr (List.forall₂_map_right_iff.mpr hlabels)
  rw [List.forall₂_eq_eq_eq] at heq
  rw [← heq]
  conv_rhs => rw [← List.zipIdx_map_fst 0 raws, List.map_map]
  rfl

/-- The modules of a loaded document carry, in order, the labels of its module statements. -/
theorem Context.labels_of_load {doc : Value} {ctx : Context} (h : Context.load doc = .ok ctx) :
    ctx.modules.map Module.label =
      (doc.itemsAt "modules").map (statementLabel (namespacesOf (doc.itemsAt "modules"))) := by
  obtain ⟨-, built, r, hbuilt, hr, hctx⟩ := Context.load_cases h
  have hfold : r.1.map Module.label = built.map Module.label :=
    foldlM_ok_invariant (fun acc => acc.1.map Module.label = built.map Module.label)
      (fun _ _ _ hinv hstep => (applyAugments_labels hstep).trans hinv) rfl hr
  rw [← labels_of_mapM_buildModule hbuilt, ← hfold, hctx, List.map_map]
  conv_rhs => rw [← List.zipIdx_map_fst 0 r.1, List.map_map]
  rfl

/-! ## Lookups in lists where the first key wins -/

section FirstWins

variable {κ α β : Type} [DecidableEq κ]

theorem lookupKey_append (l₁ l₂ : List (κ × α)) (k : κ) :
    lookupKey (l₁ ++ l₂) k = (lookupKey l₁ k).or (lookupKey l₂ k) := by
  induction l₁ with
  | nil => rfl
  | cons p l₁ ih =>
    obtain ⟨k', v⟩ := p
    simp only [List.cons_append, lookupKey]
    split <;> simp [ih]

/-- A fold that adds the key of each item unless the key is there already keeps, for each key,
the value of the first item with that key. -/
theorem lookupKey_foldl_firstWins (key : β → κ) (val : β → α) (l : List β) (k : κ) :
    lookupKey (l.foldl (fun acc x => if (lookupKey acc (key x)).isSome then acc
      else acc ++ [(key x, val x)]) []) k = (l.find? (key · = k)).map val := by
  induction l using List.reverseRecOn with
  | nil => rfl
  | append_singleton l x ih =>
    rw [List.foldl_append, List.foldl_cons, List.foldl_nil, List.find?_append]
    split
    · rename_i hsome
      rw [ih]
      by_cases hk : key x = k
      · subst hk
        rw [ih] at hsome
        obtain ⟨y, hy⟩ := Option.isSome_iff_exists.mp (Option.isSome_map.symm.trans hsome)
        simp [hy]
      · simp [hk]
    · rename_i hnone
      rw [lookupKey_append, ih]
      by_cases hk : key x = k
      · subst hk
        rw [ih, Option.isSome_map] at hnone
        simp only [Bool.not_eq_true, Option.isSome_eq_false_iff, Option.isNone_iff_eq_none] at hnone
        simp [hnone, lookupKey]
      · simp [lookupKey, hk]

end FirstWins

/-- The namespace the loader gives a module name is that of the first loaded module of the
name. -/
theorem Context.namespacesOf_eq_find? {doc : Value} {ctx : Context}
    (h : Context.load doc = .ok ctx) (name : Text) :
    lookupKey (namespacesOf (doc.itemsAt "modules")) name =
      (ctx.modules.find? (·.name = name)).map (·.namespaceUri) := by
  have hnames : ctx.modules.map (fun m => (m.name, m.namespaceUri)) =
      (doc.itemsAt "modules").map fun raw =>
        ((raw.textAt? "name").getD "", (raw.textAt? "namespace").getD "") := by
    have := congrArg (List.map fun l => (l.1, l.2.2.1)) (Context.labels_of_load h)
    simpa [Function.comp_def, Module.label, statementLabel, Scope.ofStatement] using this
  have hfind := congrArg (fun l => (l.find? (·.1 = name)).map (·.2)) hnames
  simp only [List.find?_map, Option.map_map] at hfind
  exact (lookupKey_foldl_firstWins (fun raw : Value => (raw.textAt? "name").getD "")
    (fun raw : Value => (raw.textAt? "namespace").getD "") _ name).trans hfind.symm

/-! ## Own prefixes -/

theorem statementPrefix_of_check {doc : Value} (h : Document.check doc = none) :
    ∀ raw ∈ doc.itemsAt "modules", ∃ s, raw.textAt? "prefix" = some s ∧
      Document.Pattern.isIdentifier s.chars = true := by
  rw [Document.check, Document.checkRule_shape] at h
  intro raw hraw
  obtain ⟨q, hq⟩ := Document.checkRule_items h
    (show ("modules", Document.Rule.many .module) ∈ _ by simp) raw hraw
  rw [Document.checkRule_shape] at hq
  obtain ⟨ms, rfl, hmodule, -⟩ := Document.obj_of_checkRule_object hq
  obtain ⟨c, hc⟩ := Document.checkMembers_required hmodule (show "prefix" ∈ _ by simp)
  obtain ⟨s, rfl, hs⟩ := Document.checkRule_identifier (Document.checkMembers_member hmodule
    (show ("prefix", Document.Rule.shape .identifier) ∈ _ by simp) hc)
  exact ⟨s, by simp [Value.textAt?, Value.get?, hc, Value.text?], hs⟩

/-- The own prefix of every module of a loaded document has neither a colon nor a slash. -/
theorem Context.prefix_separatorFree_of_load {doc : Value} {ctx : Context}
    (h : Context.load doc = .ok ctx) : ∀ m ∈ ctx.modules, m.prefixName.SeparatorFree := by
  intro m hm
  have hmem : m.label ∈ ctx.modules.map Module.label := List.mem_map_of_mem hm
  rw [Context.labels_of_load h] at hmem
  obtain ⟨raw, hraw, hlabel⟩ := List.mem_map.mp hmem
  obtain ⟨s, hs, hid⟩ := statementPrefix_of_check (Context.load_cases h).1 raw hraw
  have hpre : m.prefixName = s := by
    have := congrArg (fun l => l.2.1) hlabel
    simpa [statementLabel, Scope.ofStatement, hs, Module.label] using this.symm
  exact hpre ▸ Text.separatorFree_of_isIdentifier hid

end YangDiagram.Schema
