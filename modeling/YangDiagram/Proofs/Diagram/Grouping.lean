-- Augment groups follow the augment statements: for a module that shares no name or namespace,
-- one group per target under which a statement attached nodes, in order, in the role of the last
-- body reached. A namespace shared across modules takes the role away.
import Mathlib
import YangDiagram.Proofs.Schema.AugmentEntries
import YangDiagram.Diagram.Groups
import YangDiagram.Proofs.Diagram.Roots

namespace YangDiagram.Diagram

open YangDiagram.Schema YangDiagram.Json SchemaTree

/-! ## Keyed lists -/

section Keyed

variable {κ α : Type} [DecidableEq κ]

theorem lookupKey_map {β : Type} (key : β → κ) (f : β → α) (k : κ) :
    ∀ L : List β, lookupKey (L.map fun t => (key t, f t)) k = (L.find? fun t => key t = k).map f
  | [] => rfl
  | t :: L => by
    simp only [List.map_cons, lookupKey, List.find?_cons]
    by_cases h : key t = k <;> simp [h, lookupKey_map key f k L]

/-- Putting a value under the key of an item of a list of distinct items, whose key no other item
has, replaces that item's value. -/
theorem putKey_map_of_mem {β : Type} [DecidableEq β] (key : β → κ) (f : β → α) {t₀ : β} (v : α) :
    ∀ {L : List β}, L.Nodup → t₀ ∈ L → (∀ t ∈ L, key t = key t₀ → t = t₀) →
      putKey (L.map fun t => (key t, f t)) (key t₀) v =
        L.map fun t => (key t, if t = t₀ then v else f t)
  | [], _, hmem, _ => absurd hmem List.not_mem_nil
  | t :: L, hnd, hmem, hinj => by
    rw [List.map_cons, putKey]
    split
    · rename_i hk
      have ht : t = t₀ := hinj t List.mem_cons_self hk
      subst ht
      have hnot : t ∉ L := (List.nodup_cons.mp hnd).1
      have htail : (L.map fun t' => (key t', if t' = t then v else f t')) =
          L.map fun t' => (key t', f t') :=
        List.map_congr_left fun t' ht' => by rw [if_neg (show t' ≠ t from fun h => hnot (h ▸ ht'))]
      simp [htail]
    · rename_i hk
      have ht : t ≠ t₀ := fun h => hk (h ▸ rfl)
      have hmem' : t₀ ∈ L := (List.mem_cons.mp hmem).resolve_left (Ne.symm ht)
      rw [putKey_map_of_mem key f v (List.nodup_cons.mp hnd).2 hmem'
        fun t' ht' => hinj t' (List.mem_cons_of_mem _ ht'), List.map_cons, if_neg ht]

/-- A fold that puts under its key each value some items give: a key's value is the last one an
item with that key gave. -/
theorem lookupKey_foldl {β : Type} {step : List (κ × α) → β → List (κ × α)} (g : β → Option α)
    (K : β → κ) (hsome : ∀ acc b v, g b = some v → step acc b = putKey acc (K b) v)
    (hnone : ∀ acc b, g b = none → step acc b = acc) (l : List β) (k : κ) :
    lookupKey (l.foldl step []) k = ((l.filter fun b => K b = k).filterMap g).getLast? := by
  induction l using List.reverseRecOn with
  | nil => rfl
  | append_singleton l b ih =>
    rw [List.foldl_append, List.foldl_cons, List.foldl_nil, List.filter_append,
      List.filterMap_append, List.getLast?_append]
    cases hg : g b with
    | none =>
      rw [hnone _ _ hg, ih]
      by_cases hk : K b = k <;> simp [hk, hg]
    | some v =>
      rw [hsome _ _ _ hg, lookupKey_putKey, ih]
      by_cases hk : K b = k <;> simp [hk, hg]

end Keyed

/-! ## Grouping items by target -/

section Grouping

variable {α β κ ι : Type}

theorem eraseDups_concat [BEq β] [LawfulBEq β] (L : List β) (a : β) :
    (L ++ [a]).eraseDups = if a ∈ L then L.eraseDups else L.eraseDups ++ [a] := by
  rw [List.eraseDups_append]
  split
  · rename_i h
    simp [List.removeAll, h]
  · rename_i h
    simp [List.removeAll, h, List.eraseDups_cons]

theorem nodup_eraseDups [BEq β] [LawfulBEq β] (L : List β) : L.eraseDups.Nodup := by
  induction L using List.reverseRecOn with
  | nil => simp
  | append_singleton L a ih =>
    rw [eraseDups_concat]
    split
    · exact ih
    · rename_i h
      refine List.nodup_append.mpr ⟨ih, List.nodup_singleton a, fun x hx y hy hxy => h ?_⟩
      rw [List.mem_singleton] at hy
      rw [← hy, ← hxy]
      exact List.mem_eraseDups.mp hx

theorem members_concat [DecidableEq β] (target : α → β) (itemKey : α → ι) (E : List α) (c : α) (t : β) :
    (((E ++ [c]).filter fun c' => target c' = t).map fun c' => (itemKey c', c')) =
      ((E.filter fun c' => target c' = t).map fun c' => (itemKey c', c')) ++
        if target c = t then [(itemKey c, c)] else [] := by
  rw [List.filter_append, List.map_append]
  by_cases h : target c = t <;> simp [h]

-- targets are compared by their equality; the list of targets without repeats is taken by the
-- boolean test of the target type, which a lawful test makes the same list
variable [DecidableEq β] [BEq β] [LawfulBEq β] (key : β → κ) (target : α → β) (itemKey : α → ι)

/-- Items grouped by their targets, in order of first appearance: each group is keyed by its
target's key and holds its items, in order, each keyed by its own key. -/
def groupBy (E : List α) : List (κ × β × List (ι × α)) :=
  (E.map target).eraseDups.map fun t =>
    (key t, t, (E.filter fun c => target c = t).map fun c => (itemKey c, c))

/-- The group of an item's target in the groups of the items before it: there when an earlier
item has that target, when the target keys tell the targets apart. -/
theorem lookupKey_groupBy [DecidableEq κ] (E : List α) (c : α)
    (hinj : ∀ t ∈ E.map target, key t = key (target c) → t = target c) :
    lookupKey (groupBy key target itemKey E) (key (target c)) =
      if target c ∈ E.map target then
        some (target c, (E.filter fun c' => target c' = target c).map fun c' => (itemKey c', c'))
      else none := by
  rw [groupBy, lookupKey_map key
    (fun t => (t, (E.filter fun c' => target c' = t).map fun c' => (itemKey c', c')))]
  split
  · rename_i hmem
    cases hfind : (E.map target).eraseDups.find? (fun t => key t = key (target c)) with
    | none =>
      have := List.find?_eq_none.mp hfind (target c) (List.mem_eraseDups.mpr hmem)
      simp at this
    | some t =>
      have ht : t = target c := hinj t (List.mem_eraseDups.mp (List.mem_of_find?_eq_some hfind))
        (by simpa using List.find?_some hfind)
      subst ht
      rfl
  · rename_i hmem
    rw [List.find?_eq_none.mpr fun t ht hkt => hmem ?_]
    · rfl
    · have ht := List.mem_eraseDups.mp ht
      rwa [← hinj t ht (by simpa using hkt)]

theorem groupBy_concat_of_not_mem (E : List α) (c : α) (hmem : target c ∉ E.map target) :
    groupBy key target itemKey (E ++ [c]) =
      groupBy key target itemKey E ++ [(key (target c), target c, [(itemKey c, c)])] := by
  rw [groupBy, List.map_append, List.map_singleton, eraseDups_concat, if_neg hmem,
    List.map_append, List.map_singleton, groupBy]
  congr 1
  · refine List.map_congr_left fun t ht => ?_
    have hne : target c ≠ t := fun h => hmem (h ▸ List.mem_eraseDups.mp ht)
    rw [members_concat, if_neg hne, List.append_nil]
  · have hnone : (E.filter fun c' => target c' = target c) = [] :=
      List.filter_eq_nil_iff.mpr fun c' hc' h => hmem (by
        simpa using (⟨c', hc', of_decide_eq_true h⟩ : ∃ c' ∈ E, target c' = target c))
    simp [List.filter_append, hnone]

theorem groupBy_concat_of_mem [DecidableEq κ] (E : List α) (c : α) (hmem : target c ∈ E.map target)
    (hinj : ∀ t ∈ E.map target, key t = key (target c) → t = target c) :
    putKey (groupBy key target itemKey E) (key (target c))
        (target c, ((E.filter fun c' => target c' = target c).map fun c' => (itemKey c', c')) ++
          [(itemKey c, c)]) =
      groupBy key target itemKey (E ++ [c]) := by
  rw [groupBy, putKey_map_of_mem key _ _ (nodup_eraseDups _) (List.mem_eraseDups.mpr hmem)
    fun t ht => hinj t (List.mem_eraseDups.mp ht), groupBy, List.map_append, List.map_singleton,
    eraseDups_concat, if_pos hmem]
  refine List.map_congr_left fun t _ => ?_
  rw [members_concat]
  by_cases h : t = target c
  · subst h
    simp
  · simp [h, Ne.symm h]

/-- Putting each item with the property into the group of its target groups them as `groupBy`
does, when the target keys tell targets apart and the items' own keys are distinct. -/
theorem foldl_groups [DecidableEq κ] [DecidableEq ι] {step : List (κ × β × List (ι × α)) → α → List (κ × β × List (ι × α))}
    (P : α → Bool) (hskip : ∀ acc c, P c = false → step acc c = acc)
    (hsome : ∀ acc c t ms, P c = true → lookupKey acc (key (target c)) = some (t, ms) →
      step acc c = putKey acc (key (target c)) (t, putKey ms (itemKey c) c))
    (hnone : ∀ acc c, P c = true → lookupKey acc (key (target c)) = none →
      step acc c = acc ++ [(key (target c), target c, [(itemKey c, c)])]) (l : List α)
    (hkey : ∀ c ∈ l.filter P, ∀ c' ∈ l.filter P, key (target c) = key (target c') →
      target c = target c')
    (hitems : ((l.filter P).map itemKey).Nodup) :
    l.foldl step [] = groupBy key target itemKey (l.filter P) := by
  induction l using List.reverseRecOn with
  | nil => rfl
  | append_singleton l c ih =>
    have hsub : ∀ x ∈ l.filter P, x ∈ (l ++ [c]).filter P := fun x hx =>
      List.mem_filter.mpr ⟨List.mem_append_left _ (List.mem_filter.mp hx).1,
        (List.mem_filter.mp hx).2⟩
    have hitems' : ((l.filter P).map itemKey).Nodup := by
      rw [List.filter_append, List.map_append] at hitems
      exact hitems.of_append_left
    rw [List.foldl_append, List.foldl_cons, List.foldl_nil,
      ih (fun x hx y hy => hkey x (hsub x hx) y (hsub y hy)) hitems']
    cases hP : P c with
    | false =>
      rw [hskip _ _ hP, List.filter_append]
      simp [hP]
    | true =>
      have hfilter : (l ++ [c]).filter P = l.filter P ++ [c] := by
        rw [List.filter_append]
        simp [hP]
      have hc : c ∈ (l ++ [c]).filter P := by rw [hfilter]; simp
      have hinj : ∀ t ∈ (l.filter P).map target, key t = key (target c) → t = target c := by
        intro t ht hkt
        obtain ⟨x, hx, rfl⟩ := List.mem_map.mp ht
        exact hkey x (hsub x hx) c hc hkt
      rw [hfilter]
      by_cases hmem : target c ∈ (l.filter P).map target
      · have hlook := lookupKey_groupBy key target itemKey (l.filter P) c hinj
        rw [if_pos hmem] at hlook
        have hnew : ∀ q ∈ ((l.filter P).filter fun c' => target c' = target c).map
            (fun c' => (itemKey c', c')), q.1 ≠ itemKey c := by
          intro q hq hqk
          obtain ⟨x, hx, rfl⟩ := List.mem_map.mp hq
          rw [hfilter, List.map_append, List.map_singleton] at hitems
          exact (List.nodup_append.mp hitems).2.2 _
            (List.mem_map_of_mem (List.mem_filter.mp hx).1) _ List.mem_cons_self hqk
        rw [hsome _ _ _ _ hP hlook, putKey_of_forall_ne hnew,
          groupBy_concat_of_mem key target itemKey _ c hmem hinj]
      · have hlook := lookupKey_groupBy key target itemKey (l.filter P) c hinj
        rw [if_neg hmem] at hlook
        rw [hnone _ _ hP hlook, groupBy_concat_of_not_mem key target itemKey _ c hmem]

end Grouping

/-! ## The groups a module's statements give -/

/-- The role the augment statements of a module give the nodes under a target: that of the
operation body the last of them with that target reached, plain when none reached one. -/
def targetRole (m : Module) (T : List QName) : Role :=
  (((m.augments.filter fun a => a.target = T).filterMap (·.body)).getLast?.map bodyRole).getD .plain

/-- The augment groups as a module's statements give them: one per target under which a
statement attached nodes, in order of first attachment, drawn in the target's role. -/
def statementGroups (m : Module) : List Group :=
  (m.attached.map (·.1)).eraseDups.map fun T =>
    ⟨T, (m.attached.filter fun p => p.1 = T).map fun p => ofNode p.2, targetRole m T⟩

/-- Paths of readable names qualified by the latest revisions of their modules have one key
exactly when they are the same path. -/
theorem pathKey_eq_iff (mods : List Module) {xs ys : List QName}
    (hxs : ∀ q ∈ xs ++ ys, LatestNamed mods q ∧ q.Readable) :
    pathKey xs = pathKey ys ↔ xs = ys :=
  ⟨eq_of_pathKey_eq hxs, congrArg pathKey⟩

/-- The augment groups of a module of a loaded document are those its statements give, when it
shares no name or namespace, no namespace has two module names, and its attached paths differ. -/
theorem groupsOf_schemaTree {doc : Value} {ctx : Context} {pre post : List Module} {M : Module}
    (hload : Context.load doc = .ok ctx) (hM : ctx.modules = pre ++ M :: post)
    (hother : ∀ m ∈ pre ++ post, m.name ≠ M.name ∧ m.namespaceUri ≠ M.namespaceUri)
    (hns : ∀ m ∈ ctx.modules, ∀ m' ∈ ctx.modules, m.namespaceUri = m'.namespaceUri →
      m.name = m'.name)
    (hdistinct : (M.attached.map fun p => p.2.path).Nodup) :
    groupsOf ctx.schemaTree M = statementGroups M := by
  have hMmem : M ∈ ctx.modules := by rw [hM]; simp
  have hat := Context.attachedAt_of_load hload hns M hMmem
  have hnames := Context.targetNames_of_load hload hns M hMmem
  have hadded := Context.addedEntries_schemaTree hload hM hother hns hdistinct
  simp only [groupsOf]
  rw [foldl_groups pathKey (fun c : SchemaTree => c.path.dropLast) (fun c => pathKey c.path)
    (isAddedIn M.namespaceUri) ?skip ?added ?opened _ ?targets ?items, hadded]
  case skip =>
    intro acc c hc
    have hc' : ¬(c.augmenting = true ∧ c.namespaceUri? = some M.namespaceUri) := by
      simpa [isAddedIn] using hc
    simp only [if_neg hc']
  case added =>
    intro acc c t ms hc hl
    have hc' : c.augmenting = true ∧ c.namespaceUri? = some M.namespaceUri := by
      simpa [isAddedIn] using hc
    simp only [if_pos hc', hl]
  case opened =>
    intro acc c hc hl
    have hc' : c.augmenting = true ∧ c.namespaceUri? = some M.namespaceUri := by
      simpa [isAddedIn] using hc
    simp only [if_pos hc', hl]
  case targets =>
    rw [hadded]
    intro c hc c' hc' hkey
    obtain ⟨p, hp, rfl⟩ := List.mem_map.mp hc
    obtain ⟨p', hp', rfl⟩ := List.mem_map.mp hc'
    rw [(hat p hp).dropLast_path, (hat p' hp').dropLast_path] at hkey ⊢
    refine eq_of_pathKey_eq (fun q hq => (?_ : LatestNamed ctx.modules q ∧ q.Readable)) hkey
    rcases List.mem_append.mp hq with hq | hq
    · exact (hat p hp).target q hq
    · exact (hat p' hp').target q hq
  case items =>
    rw [hadded, List.map_map]
    simpa [Function.comp_def] using
      attached_keys_nodup hat hM (fun m hm => (hother m hm).1) hdistinct
  have htargets : ((M.attached.map fun p => ofNode p.2).map fun c => c.path.dropLast) =
      M.attached.map (·.1) := by
    rw [List.map_map]
    exact List.map_congr_left fun p hp => (hat p hp).dropLast_path
  rw [groupBy, statementGroups, List.map_map, htargets]
  refine List.map_congr_left fun T hT => ?_
  obtain ⟨p₀, hp₀, rfl⟩ := List.mem_map.mp (List.mem_eraseDups.mp hT)
  have hmembers : ((M.attached.map fun p => ofNode p.2).filter fun c => c.path.dropLast = p₀.1) =
      (M.attached.filter fun p => p.1 = p₀.1).map fun p => ofNode p.2 := by
    rw [List.filter_map]
    congr 1
    exact List.filter_congr fun p hp => by simp only [Function.comp_apply, (hat p hp).dropLast_path]
  simp only [Function.comp_apply, hmembers, List.map_map]
  rw [lookupKey_foldl (fun a => a.body.map bodyRole) (fun a => pathKey a.target) ?put ?keep]
  case put =>
    intro acc a v h
    obtain ⟨b, hb, rfl⟩ := Option.map_eq_some_iff.mp h
    simp only [hb]
  case keep =>
    intro acc a h
    simp only [Option.map_eq_none_iff] at h
    simp only [h]
  have hfilter : (M.augments.filter fun a => pathKey a.target = pathKey p₀.1) =
      M.augments.filter fun a => a.target = p₀.1 := by
    refine List.filter_congr fun a ha => decide_eq_decide.mpr (pathKey_eq_iff ctx.modules fun q hq => ?_)
    rcases List.mem_append.mp hq with hq | hq
    · exact hnames a ha q hq
    · exact (hat p₀ hp₀).target q hq
  rw [hfilter, targetRole, ← List.map_filterMap, List.getLast?_map]
  simp [Function.comp_def]

/-! ## A target named through another module of the namespace

Module `b` has an rpc `r`. Module `c`, in `b`'s namespace, adds a container `y` to the input of
`r`. Module `a` adds a leaf `z` under `/b:r/b:input/b:y`: the step `b:y` finds `c`'s `y` by
namespace and local name. -/

namespace SharedNamespace

def rawB : Value := .obj [("name", .str "b"), ("prefix", .str "b"), ("namespace", .str "urn:b"),
  ("rpcs", .arr [.obj [("name", .str "r")]])]
def rawAugC : Value := .obj [("target", .str "/b:r/b:input"),
  ("nodes", .arr [.obj [("kind", .str "container"), ("name", .str "y")]])]
def rawC : Value := .obj [("name", .str "c"), ("prefix", .str "c"), ("namespace", .str "urn:b"),
  ("imports", .arr [.obj [("module", .str "b"), ("prefix", .str "b")]]),
  ("augments", .arr [rawAugC])]
def rawAugA : Value := .obj [("target", .str "/b:r/b:input/b:y"),
  ("nodes", .arr [.obj [("kind", .str "leaf"), ("name", .str "z"), ("type", .str "string")]])]
def rawA : Value := .obj [("name", .str "a"), ("prefix", .str "a"), ("namespace", .str "urn:a"),
  ("imports", .arr [.obj [("module", .str "b"), ("prefix", .str "b")]]),
  ("augments", .arr [rawAugA])]
def doc : Value := .obj [("modules", .arr [rawB, rawC, rawA])]

theorem check_doc : Document.check doc = none :=
  Document.check_eq_none_of_conforms (n := 64) (by decide)

def qr : QName := ⟨"b", "urn:b", "r"⟩
def qin : QName := ⟨"b", "urn:b", "input"⟩
def qout : QName := ⟨"b", "urn:b", "output"⟩
def qyb : QName := ⟨"b", "urn:b", "y"⟩
def qyc : QName := ⟨"c", "urn:b", "y"⟩
def qz : QName := ⟨"a", "urn:a", "z"⟩

def leafZ : Node :=
  .leaf { qname := qz, path := [qr, qin, qyc, qz], status := .current, config := none,
          ifFeatures := [], augmenting := true } { name := "string" } false

def containerY (children : List Node) : Node :=
  .container { qname := qyc, path := [qr, qin, qyc], status := .current, config := none,
               ifFeatures := [], augmenting := true } false children []

def inputR (children : List Node) : Node :=
  .input { qname := qin, path := [qr, qin], status := .current, config := none, ifFeatures := [],
           augmenting := false } children

def rpcR (children : List Node) : Node :=
  .rpc { qname := qr, path := [qr], status := .current, config := none, ifFeatures := [],
         augmenting := false } (inputR children)
    (.output { qname := qout, path := [qr, qout], status := .current, config := none,
               ifFeatures := [], augmenting := false } [])

def namespaces : List (Text × Text) := [(Text.ofString "b", Text.ofString "urn:b"),
  (Text.ofString "c", Text.ofString "urn:b"), (Text.ofString "a", Text.ofString "urn:a")]

def scopeB : Scope := ⟨"b", "b", "urn:b", [(Text.ofString "b", Text.ofString "b")], namespaces⟩
def scopeC : Scope := ⟨"c", "c", "urn:b", [(Text.ofString "c", Text.ofString "c"),
  (Text.ofString "b", Text.ofString "b")], namespaces⟩
def scopeA : Scope := ⟨"a", "a", "urn:a", [(Text.ofString "a", Text.ofString "a"),
  (Text.ofString "b", Text.ofString "b")], namespaces⟩

def moduleB (children : List Node) : Module :=
  { name := "b", prefixName := "b", namespaceUri := "urn:b", revision := none,
    imports := scopeB.imports, features := [], dataNodes := [], rpcs := [rpcR children],
    notifications := [], augments := [] }

def moduleC : Module :=
  { name := "c", prefixName := "c", namespaceUri := "urn:b", revision := none,
    imports := scopeC.imports, features := [], dataNodes := [], rpcs := [],
    notifications := [], augments := [] }

def moduleA : Module :=
  { name := "a", prefixName := "a", namespaceUri := "urn:a", revision := none,
    imports := scopeA.imports, features := [], dataNodes := [], rpcs := [],
    notifications := [], augments := [] }

theorem namespacesOf_doc : namespacesOf [rawB, rawC, rawA] = namespaces := by
  decide

theorem scope_rawB : Scope.ofStatement rawB namespaces = scopeB := by
  simp +decide [Scope.ofStatement, rawB, scopeB, Value.itemsAt, Value.get?, Value.textAt?,
    Value.text?, Members.find?]

theorem scope_rawC : Scope.ofStatement rawC namespaces = scopeC := by
  simp +decide [Scope.ofStatement, rawC, scopeC, Value.itemsAt, Value.get?, Value.textAt?,
    Value.text?, Members.find?, putKey]

theorem scope_rawA : Scope.ofStatement rawA namespaces = scopeA := by
  simp +decide [Scope.ofStatement, rawA, scopeA, Value.itemsAt, Value.get?, Value.textAt?,
    Value.text?, Members.find?, putKey]

theorem build_rawB : buildModule rawB 0 namespaces = .ok (moduleB []) := by
  simp only [buildModule, scope_rawB]
  have hr : rawB.itemsAt "rpcs" = [.obj [("name", .str "r")]] := rfl
  have hd : rawB.itemsAt "data" = [] := rfl
  have hn : rawB.itemsAt "notifications" = [] := rfl
  simp only [hr, hd, hn, List.zipIdx_cons, List.zipIdx_nil, List.mapM_cons, List.mapM_nil]
  rw [buildOperation_nil _ _ _ _ _ rfl rfl]
  simp +decide [bind, Except.bind, pure, Except.pure, moduleB, rpcR, inputR, baseInfo,
    Value.textAt?, Value.text?, Value.get?, Members.find?, Value.textsAt, Value.itemsAt,
    Scope.qname, scopeB, Body.word, qr, qin, qout, rawB]

theorem build_rawC : buildModule rawC 1 namespaces = .ok moduleC := by
  simp only [buildModule, scope_rawC]
  simp +decide [bind, Except.bind, pure, Except.pure, moduleC, Value.textAt?,
    Value.text?, Value.get?, Members.find?, Value.textsAt, Value.itemsAt, rawC]

theorem build_rawA : buildModule rawA 2 namespaces = .ok moduleA := by
  simp only [buildModule, scope_rawA]
  simp +decide [bind, Except.bind, pure, Except.pure, moduleA, Value.textAt?,
    Value.text?, Value.get?, Members.find?, Value.textsAt, Value.itemsAt, rawA]

theorem resolve_input (place : Text) :
    resolveTarget scopeC [moduleB [], moduleC, moduleA] "/b:r/b:input" place =
      .ok ⟨[qr, qin], ⟨0, .rpc 0, [.input]⟩, inputR [], some .input⟩ := by
  have hsplit : (Text.ofString "/b:r/b:input").splitOn (Text.unit '/') =
      [Text.ofString "", Text.ofString "b:r", Text.ofString "b:input"] := by decide
  have hr : (Text.ofString "b:r").splitOn (Text.unit ':') =
      [Text.ofString "b", Text.ofString "r"] := by decide
  have hin : (Text.ofString "b:input").splitOn (Text.unit ':') =
      [Text.ofString "b", Text.ofString "input"] := by decide
  simp only [resolveTarget, hsplit, List.drop, List.foldlM_cons, List.foldlM_nil]
  simp +decide [stepTarget, hr, hin, Scope.resolve, scopeC, latestIndex, firstLatest, Module.tops,
    moduleB, moduleC, moduleA, rpcR, inputR, qr, qin, QName.same, bind, Except.bind, pure,
    Except.pure, Text.intercalate, Node.kind, lookupKey, Node.qname, Node.info, Node.slots]

def modsAddedY : List Module := [moduleB [containerY []], moduleC, moduleA]

theorem applyAugment_c (place : Text) :
    applyAugment scopeC [moduleB [], moduleC, moduleA] rawAugC place =
      .ok (modsAddedY, ⟨"/b:r/b:input",
        ⟨[qr, qin], ⟨0, .rpc 0, [.input]⟩, inputR [], some .input⟩,
        [⟨0, .rpc 0, [.input, .child 0]⟩]⟩) := by
  have htarget : (rawAugC.textAt? "target").getD "" = "/b:r/b:input" := by decide
  simp only [applyAugment, htarget, resolve_input, bind, Except.bind]
  have hnodes : rawAugC.itemsAt "nodes" =
      [.obj [("kind", .str "container"), ("name", .str "y")]] := rfl
  simp only [hnodes, List.zipIdx_cons, List.zipIdx_nil, List.foldlM_cons, List.foldlM_nil]
  have hat : nodeAt? [moduleB [], moduleC, moduleA] ⟨0, .rpc 0, [.input]⟩ =
      some (inputR []) := by
    simp [nodeAt?, moduleB, Module.tops, Node.nodeAt?, rpcR, Node.slots]
  simp +decide only [hat, attach, inputR, Node.kind, Node.counts, Node.path, Node.info]
  rw [buildDataNode_container_nil _ _ _ _ (by decide) rfl rfl]
  simp +decide [inputR, baseInfo, inheritConfig, Value.textAt?, Value.text?, Value.get?,
    Members.find?, Value.flagAt?, Value.textsAt, Scope.qname, scopeC, modifyAt, Module.modifyTop,
    Node.modifyAt, Node.modifySlot, Node.addChild, modsAddedY, moduleB, rpcR, containerY, qyc, pure,
    Except.pure, bind, Except.bind]

def modsAddedZ : List Module := [moduleB [containerY [leafZ]], moduleC, moduleA]

theorem resolve_foreign (place : Text) :
    resolveTarget scopeA modsAddedY "/b:r/b:input/b:y" place =
      .ok ⟨[qr, qin, qyb], ⟨0, .rpc 0, [.input, .child 0]⟩, containerY [],
        some .input⟩ := by
  have hsplit : (Text.ofString "/b:r/b:input/b:y").splitOn (Text.unit '/') =
      [Text.ofString "", Text.ofString "b:r", Text.ofString "b:input", Text.ofString "b:y"] := by
    decide
  have hr : (Text.ofString "b:r").splitOn (Text.unit ':') =
      [Text.ofString "b", Text.ofString "r"] := by decide
  have hin : (Text.ofString "b:input").splitOn (Text.unit ':') =
      [Text.ofString "b", Text.ofString "input"] := by decide
  have hy : (Text.ofString "b:y").splitOn (Text.unit ':') =
      [Text.ofString "b", Text.ofString "y"] := by decide
  simp only [resolveTarget, hsplit, List.drop, List.foldlM_cons, List.foldlM_nil]
  simp +decide [stepTarget, hr, hin, hy, Scope.resolve, scopeA, latestIndex, firstLatest,
    Module.tops, modsAddedY, moduleB, moduleC, moduleA, rpcR, inputR, containerY, qr, qin, qyb, qyc,
    QName.same, bind, Except.bind, pure, Except.pure, Text.intercalate, Node.kind, lookupKey,
    Node.qname, Node.info, Node.slots]

theorem applyAugment_a (place : Text) : applyAugment scopeA modsAddedY rawAugA place =
    .ok (modsAddedZ, ⟨"/b:r/b:input/b:y",
      ⟨[qr, qin, qyb], ⟨0, .rpc 0, [.input, .child 0]⟩, containerY [], some .input⟩,
      [⟨0, .rpc 0, [.input, .child 0, .child 0]⟩]⟩) := by
  have htarget : (rawAugA.textAt? "target").getD "" = "/b:r/b:input/b:y" := by decide
  simp only [applyAugment, htarget, resolve_foreign, bind, Except.bind]
  have hnodes : rawAugA.itemsAt "nodes" =
      [.obj [("kind", .str "leaf"), ("name", .str "z"), ("type", .str "string")]] := rfl
  simp only [hnodes, List.zipIdx_cons, List.zipIdx_nil, List.foldlM_cons, List.foldlM_nil]
  have hat : nodeAt? modsAddedY ⟨0, .rpc 0, [.input, .child 0]⟩ = some (containerY []) := by
    simp [nodeAt?, modsAddedY, moduleB, Module.tops, Node.nodeAt?, rpcR, inputR, Node.slots]
  have hstring : (Text.ofString "string").splitOn (Text.unit ':') = [Text.ofString "string"] := by
    decide
  simp +decide only [hat, attach, containerY, Node.kind, Node.counts, Node.path, Node.info]
  rw [buildDataNode_leaf _ _ _ _ (by decide)]
  simp +decide [baseInfo, inheritConfig, Scope.typeRef, hstring, Value.textAt?, Value.text?,
    Value.get?, Members.find?, Value.flagAt?, Value.textsAt, Scope.qname, scopeA, modifyAt,
    Module.modifyTop, Node.modifyAt, Node.modifySlot, Node.addChild, modsAddedY, modsAddedZ,
    moduleB, rpcR, inputR, containerY, leafZ, qz, Except.map, pure, Except.pure, bind, Except.bind]

def augmentingC : Module :=
  { moduleC with augments := [⟨"/b:r/b:input", [qr, qin], some .input, [containerY [leafZ]]⟩] }

def augmentingA : Module :=
  { moduleA with augments := [⟨"/b:r/b:input/b:y", [qr, qin, qyb], some .input, [leafZ]⟩] }

def context : Context := ⟨[moduleB [containerY [leafZ]], augmentingC, augmentingA]⟩

theorem load_doc : Context.load doc = .ok context := by
  have hitems : doc.itemsAt "modules" = [rawB, rawC, rawA] := rfl
  simp only [Context.load, check_doc, hitems, namespacesOf_doc]
  simp only [List.zipIdx_cons, List.zipIdx_nil, Nat.zero_add, Nat.reduceAdd, List.mapM_cons,
    List.mapM_nil, build_rawA, build_rawB, build_rawC, bind, Except.bind, pure, Except.pure,
    List.foldlM_cons, List.foldlM_nil]
  have hb : rawB.itemsAt "augments" = [] := rfl
  have hc : rawC.itemsAt "augments" = [rawAugC] := rfl
  have ha : rawA.itemsAt "augments" = [rawAugA] := rfl
  simp only [applyAugments, scope_rawA, scope_rawB, scope_rawC, hb, hc, ha, List.zipIdx_cons,
    List.zipIdx_nil, Nat.zero_add, List.foldlM_cons, List.foldlM_nil, applyAugment_c,
    applyAugment_a, bind, Except.bind, pure, Except.pure]
  simp +decide [augmentsOf, nodeAt?, modsAddedZ, moduleB, Module.tops, Node.nodeAt?, rpcR, inputR,
    containerY, Node.slots, context, augmentingA, augmentingC]

theorem ofNode_leafZ : SchemaTree.ofNode leafZ = .mk (some leafZ) [qr, qin, qyc, qz] true [] :=
  SchemaTree.ofNode_of_childNodes_nil rfl

theorem ofNode_containerY : SchemaTree.ofNode (containerY [leafZ]) =
    .mk (some (containerY [leafZ])) [qr, qin, qyc] true
      [(pathKey [qr, qin, qyc, qz], SchemaTree.ofNode leafZ)] := by
  have hc : (containerY [leafZ]).childNodes = [leafZ] := rfl
  have hp : (containerY [leafZ]).path = [qr, qin, qyc] := rfl
  have hpz : leafZ.path = [qr, qin, qyc, qz] := rfl
  rw [SchemaTree.ofNode_eq_foldl]
  simp only [hc, hp, List.foldl_cons, List.foldl_nil, SchemaTree.add, SchemaTree.path_ofNode, hpz,
    putKey]
  rfl

theorem schemaTree_context : context.schemaTree =
    .mk none [] false [(pathKey [qr, qin, qyc], SchemaTree.ofNode (containerY [leafZ])),
      (pathKey [qr, qin, qyc, qz], SchemaTree.ofNode leafZ)] := by
  have hne : pathKey [qr, qin, qyc] ≠ pathKey [qr, qin, qyc, qz] := by decide
  have hp : (containerY [leafZ]).path = [qr, qin, qyc] := rfl
  have hpz : leafZ.path = [qr, qin, qyc, qz] := rfl
  simp only [Context.schemaTree, context, augmentingA, augmentingC, moduleA, moduleC, moduleB,
    List.foldl_cons, List.foldl_nil, SchemaTree.add, SchemaTree.path_ofNode, putKey, hp, hpz,
    if_neg hne]

theorem groupsOf_context : groupsOf context.schemaTree augmentingA =
    [⟨[qr, qin, qyc], [SchemaTree.ofNode leafZ], .plain⟩] := by
  rw [schemaTree_context, ofNode_containerY, ofNode_leafZ]
  simp +decide [groupsOf, SchemaTree.childTrees, SchemaTree.children, SchemaTree.augmenting,
    SchemaTree.namespaceUri?, SchemaTree.path, augmentingA, moduleA, lookupKey, putKey, qr, qin,
    qyc, qz, qyb]

theorem rootsOf_context :
    (ownTrees augmentingA.namespaceUri context.schemaTree.childTrees).filter (!·.augmenting) =
      [] := by
  rw [schemaTree_context, ofNode_containerY, ofNode_leafZ]
  decide

theorem drawEntries_leafZ (env : Env) (role : Role) (b : Nat) :
    drawEntries env role (b + 2) [SchemaTree.ofNode leafZ] =
      [.row leafZ ⟨[], b + 2, {}, role, none⟩
        (rowOf env leafZ ⟨[], b + 2, {}, role, none⟩
          (typeWidth env [SchemaTree.ofNode leafZ] ⟨[], b + 2, {}, role, none⟩))] := by
  have hitems : [SchemaTree.ofNode leafZ].filter (·.node.isSome) = [SchemaTree.ofNode leafZ] := by
    simp
  simp only [drawEntries, hitems, List.zipIdx_cons, List.zipIdx_nil, List.flatMap_cons,
    List.flatMap_nil, List.append_nil]
  rw [drawTree_of_node (SchemaTree.node_ofNode leafZ)]
  simp [childPlan, leafZ, roleOf, Node.kind]

end SharedNamespace

/-! ## A target through a node another module added

Module `b` has an rpc `r`. Module `c`, in a namespace of its own, adds a container `y` to the
input of `r`. Module `a` has a container `x` and adds a string leaf `z` under
`/b:r/b:input/c:y`. -/

namespace ForeignInput

open SharedNamespace (rawB rawAugC qr qin qout rpcR inputR)

def rawC : Value := .obj [("name", .str "c"), ("prefix", .str "c"), ("namespace", .str "urn:c"),
  ("imports", .arr [.obj [("module", .str "b"), ("prefix", .str "b")]]),
  ("augments", .arr [rawAugC])]
def rawX : Value := .obj [("kind", .str "container"), ("name", .str "x")]
def rawAugA : Value := .obj [("target", .str "/b:r/b:input/c:y"),
  ("nodes", .arr [.obj [("kind", .str "leaf"), ("name", .str "z"), ("type", .str "string")]])]
def rawA : Value := .obj [("name", .str "a"), ("prefix", .str "a"), ("namespace", .str "urn:a"),
  ("imports", .arr [.obj [("module", .str "b"), ("prefix", .str "b")],
    .obj [("module", .str "c"), ("prefix", .str "c")]]),
  ("data", .arr [rawX]), ("augments", .arr [rawAugA])]
def doc : Value := .obj [("modules", .arr [rawB, rawC, rawA])]

theorem check_doc : Document.check doc = none :=
  Document.check_eq_none_of_conforms (n := 64) (by decide)

def qx : QName := ⟨"a", "urn:a", "x"⟩
def qy : QName := ⟨"c", "urn:c", "y"⟩
def qz : QName := ⟨"a", "urn:a", "z"⟩

def leafZ : Node :=
  .leaf { qname := qz, path := [qr, qin, qy, qz], status := .current, config := none,
          ifFeatures := [], augmenting := true } { name := "string" } false

def containerY (children : List Node) : Node :=
  .container { qname := qy, path := [qr, qin, qy], status := .current, config := none,
               ifFeatures := [], augmenting := true } false children []

def containerX : Node :=
  .container { qname := qx, path := [qx], status := .current, config := some true,
               ifFeatures := [], augmenting := false } false [] []

def namespaces : List (Text × Text) := [(Text.ofString "b", Text.ofString "urn:b"),
  (Text.ofString "c", Text.ofString "urn:c"), (Text.ofString "a", Text.ofString "urn:a")]

def scopeB : Scope := ⟨"b", "b", "urn:b", [(Text.ofString "b", Text.ofString "b")], namespaces⟩
def scopeC : Scope := ⟨"c", "c", "urn:c", [(Text.ofString "c", Text.ofString "c"),
  (Text.ofString "b", Text.ofString "b")], namespaces⟩
def scopeA : Scope := ⟨"a", "a", "urn:a", [(Text.ofString "a", Text.ofString "a"),
  (Text.ofString "b", Text.ofString "b"), (Text.ofString "c", Text.ofString "c")], namespaces⟩

def moduleC : Module :=
  { name := "c", prefixName := "c", namespaceUri := "urn:c", revision := none,
    imports := scopeC.imports, features := [], dataNodes := [], rpcs := [],
    notifications := [], augments := [] }

def moduleA : Module :=
  { name := "a", prefixName := "a", namespaceUri := "urn:a", revision := none,
    imports := scopeA.imports, features := [], dataNodes := [containerX], rpcs := [],
    notifications := [], augments := [] }

theorem namespacesOf_doc : namespacesOf [rawB, rawC, rawA] = namespaces := by
  decide

theorem scope_rawB : Scope.ofStatement rawB namespaces = scopeB := by
  simp +decide [Scope.ofStatement, rawB, scopeB, Value.itemsAt, Value.get?, Value.textAt?,
    Value.text?, Members.find?]

theorem scope_rawC : Scope.ofStatement rawC namespaces = scopeC := by
  simp +decide [Scope.ofStatement, rawC, scopeC, Value.itemsAt, Value.get?, Value.textAt?,
    Value.text?, Members.find?, putKey]

theorem scope_rawA : Scope.ofStatement rawA namespaces = scopeA := by
  simp +decide [Scope.ofStatement, rawA, scopeA, Value.itemsAt, Value.get?, Value.textAt?,
    Value.text?, Members.find?, putKey]

theorem build_rawB : buildModule rawB 0 namespaces = .ok (SharedNamespace.moduleB []) := by
  simp only [buildModule, scope_rawB]
  have hr : rawB.itemsAt "rpcs" = [.obj [("name", .str "r")]] := rfl
  have hd : rawB.itemsAt "data" = [] := rfl
  have hn : rawB.itemsAt "notifications" = [] := rfl
  simp only [hr, hd, hn, List.zipIdx_cons, List.zipIdx_nil, List.mapM_cons, List.mapM_nil]
  rw [buildOperation_nil _ _ _ _ _ rfl rfl]
  simp +decide [bind, Except.bind, pure, Except.pure, SharedNamespace.moduleB, rpcR, inputR, baseInfo,
    Value.textAt?, Value.text?, Value.get?, Members.find?, Value.textsAt, Value.itemsAt,
    Scope.qname, scopeB, SharedNamespace.scopeB, Body.word, qr, qin, qout, rawB]

theorem build_rawC : buildModule rawC 1 namespaces = .ok moduleC := by
  simp only [buildModule, scope_rawC]
  simp +decide [bind, Except.bind, pure, Except.pure, moduleC, Value.textAt?,
    Value.text?, Value.get?, Members.find?, Value.textsAt, Value.itemsAt, rawC]

theorem build_rawX (place : Text) :
    buildDataNode scopeA rawX ⟨[], some true, false⟩ place = .ok containerX := by
  rw [buildDataNode_container_nil _ _ _ _ (by decide) rfl rfl]
  simp +decide [containerX, baseInfo, rawX, inheritConfig, Value.textAt?, Value.text?,
    Value.get?, Members.find?, Value.flagAt?, Value.textsAt, Scope.qname, scopeA, qx]

theorem build_rawA : buildModule rawA 2 namespaces = .ok moduleA := by
  simp only [buildModule, scope_rawA]
  simp +decide [rawA, Value.itemsAt, Value.get?, Members.find?, List.zipIdx_cons, build_rawX,
    bind, Except.bind, pure, Except.pure, moduleA, Value.textAt?, Value.text?, Value.textsAt]

theorem resolve_input (place : Text) :
    resolveTarget scopeC [SharedNamespace.moduleB [], moduleC, moduleA] "/b:r/b:input" place =
      .ok ⟨[qr, qin], ⟨0, .rpc 0, [.input]⟩, inputR [], some .input⟩ := by
  have hsplit : (Text.ofString "/b:r/b:input").splitOn (Text.unit '/') =
      [Text.ofString "", Text.ofString "b:r", Text.ofString "b:input"] := by decide
  have hr : (Text.ofString "b:r").splitOn (Text.unit ':') =
      [Text.ofString "b", Text.ofString "r"] := by decide
  have hin : (Text.ofString "b:input").splitOn (Text.unit ':') =
      [Text.ofString "b", Text.ofString "input"] := by decide
  simp only [resolveTarget, hsplit, List.drop, List.foldlM_cons, List.foldlM_nil]
  simp +decide [stepTarget, hr, hin, Scope.resolve, scopeC, latestIndex, firstLatest, Module.tops,
    SharedNamespace.moduleB, moduleC, moduleA, rpcR, inputR, qr, qin, QName.same, bind, Except.bind, pure,
    Except.pure, Text.intercalate, Node.kind, lookupKey, Node.qname, Node.info, Node.slots]

def modsAddedY : List Module := [SharedNamespace.moduleB [containerY []], moduleC, moduleA]

theorem applyAugment_c (place : Text) :
    applyAugment scopeC [SharedNamespace.moduleB [], moduleC, moduleA] rawAugC place =
      .ok (modsAddedY, ⟨"/b:r/b:input",
        ⟨[qr, qin], ⟨0, .rpc 0, [.input]⟩, inputR [], some .input⟩,
        [⟨0, .rpc 0, [.input, .child 0]⟩]⟩) := by
  have htarget : (rawAugC.textAt? "target").getD "" = "/b:r/b:input" := by decide
  simp only [applyAugment, htarget, resolve_input, bind, Except.bind]
  have hnodes : rawAugC.itemsAt "nodes" =
      [.obj [("kind", .str "container"), ("name", .str "y")]] := rfl
  simp only [hnodes, List.zipIdx_cons, List.zipIdx_nil, List.foldlM_cons, List.foldlM_nil]
  have hat : nodeAt? [SharedNamespace.moduleB [], moduleC, moduleA] ⟨0, .rpc 0, [.input]⟩ =
      some (inputR []) := by
    simp [nodeAt?, SharedNamespace.moduleB, Module.tops, Node.nodeAt?, rpcR, Node.slots]
  simp +decide only [hat, attach, inputR, Node.kind, Node.counts, Node.path, Node.info]
  rw [buildDataNode_container_nil _ _ _ _ (by decide) rfl rfl]
  simp +decide [inputR, baseInfo, inheritConfig, Value.textAt?, Value.text?, Value.get?,
    Members.find?, Value.flagAt?, Value.textsAt, Scope.qname, scopeC, modifyAt, Module.modifyTop,
    Node.modifyAt, Node.modifySlot, Node.addChild, modsAddedY, SharedNamespace.moduleB, rpcR, containerY, qy, pure,
    Except.pure, bind, Except.bind]

def modsAddedZ : List Module := [SharedNamespace.moduleB [containerY [leafZ]], moduleC, moduleA]

theorem resolve_foreign (place : Text) :
    resolveTarget scopeA modsAddedY "/b:r/b:input/c:y" place =
      .ok ⟨[qr, qin, qy], ⟨0, .rpc 0, [.input, .child 0]⟩, containerY [], some .input⟩ := by
  have hsplit : (Text.ofString "/b:r/b:input/c:y").splitOn (Text.unit '/') =
      [Text.ofString "", Text.ofString "b:r", Text.ofString "b:input", Text.ofString "c:y"] := by
    decide
  have hr : (Text.ofString "b:r").splitOn (Text.unit ':') =
      [Text.ofString "b", Text.ofString "r"] := by decide
  have hin : (Text.ofString "b:input").splitOn (Text.unit ':') =
      [Text.ofString "b", Text.ofString "input"] := by decide
  have hy : (Text.ofString "c:y").splitOn (Text.unit ':') =
      [Text.ofString "c", Text.ofString "y"] := by decide
  simp only [resolveTarget, hsplit, List.drop, List.foldlM_cons, List.foldlM_nil]
  simp +decide [stepTarget, hr, hin, hy, Scope.resolve, scopeA, latestIndex, firstLatest,
    Module.tops, modsAddedY, SharedNamespace.moduleB, moduleC, moduleA, rpcR, inputR, containerY, qr, qin, qy,
    QName.same, bind, Except.bind, pure, Except.pure, Text.intercalate, Node.kind, lookupKey,
    Node.qname, Node.info, Node.slots]

theorem applyAugment_a (place : Text) : applyAugment scopeA modsAddedY rawAugA place =
    .ok (modsAddedZ, ⟨"/b:r/b:input/c:y",
      ⟨[qr, qin, qy], ⟨0, .rpc 0, [.input, .child 0]⟩, containerY [], some .input⟩,
      [⟨0, .rpc 0, [.input, .child 0, .child 0]⟩]⟩) := by
  have htarget : (rawAugA.textAt? "target").getD "" = "/b:r/b:input/c:y" := by decide
  simp only [applyAugment, htarget, resolve_foreign, bind, Except.bind]
  have hnodes : rawAugA.itemsAt "nodes" =
      [.obj [("kind", .str "leaf"), ("name", .str "z"), ("type", .str "string")]] := rfl
  simp only [hnodes, List.zipIdx_cons, List.zipIdx_nil, List.foldlM_cons, List.foldlM_nil]
  have hat : nodeAt? modsAddedY ⟨0, .rpc 0, [.input, .child 0]⟩ = some (containerY []) := by
    simp [nodeAt?, modsAddedY, SharedNamespace.moduleB, Module.tops, Node.nodeAt?, rpcR, inputR, Node.slots]
  have hstring : (Text.ofString "string").splitOn (Text.unit ':') = [Text.ofString "string"] := by
    decide
  simp +decide only [hat, attach, containerY, Node.kind, Node.counts, Node.path, Node.info]
  rw [buildDataNode_leaf _ _ _ _ (by decide)]
  simp +decide [baseInfo, inheritConfig, Scope.typeRef, hstring, Value.textAt?, Value.text?,
    Value.get?, Members.find?, Value.flagAt?, Value.textsAt, Scope.qname, scopeA, modifyAt,
    Module.modifyTop, Node.modifyAt, Node.modifySlot, Node.addChild, modsAddedY, modsAddedZ,
    SharedNamespace.moduleB, rpcR, inputR, containerY, leafZ, qz, Except.map, pure, Except.pure, bind, Except.bind]

def augmentingC : Module :=
  { moduleC with augments := [⟨"/b:r/b:input", [qr, qin], some .input, [containerY [leafZ]]⟩] }

def augmentingA : Module :=
  { moduleA with augments := [⟨"/b:r/b:input/c:y", [qr, qin, qy], some .input, [leafZ]⟩] }

def context : Context := ⟨[SharedNamespace.moduleB [containerY [leafZ]], augmentingC, augmentingA]⟩

theorem load_doc : Context.load doc = .ok context := by
  have hitems : doc.itemsAt "modules" = [rawB, rawC, rawA] := rfl
  simp only [Context.load, check_doc, hitems, namespacesOf_doc]
  simp only [List.zipIdx_cons, List.zipIdx_nil, Nat.zero_add, Nat.reduceAdd, List.mapM_cons,
    List.mapM_nil, build_rawA, build_rawB, build_rawC, bind, Except.bind, pure, Except.pure,
    List.foldlM_cons, List.foldlM_nil]
  have hb : rawB.itemsAt "augments" = [] := rfl
  have hc : rawC.itemsAt "augments" = [rawAugC] := rfl
  have ha : rawA.itemsAt "augments" = [rawAugA] := rfl
  simp only [applyAugments, scope_rawA, scope_rawB, scope_rawC, hb, hc, ha, List.zipIdx_cons,
    List.zipIdx_nil, Nat.zero_add, List.foldlM_cons, List.foldlM_nil, applyAugment_c,
    applyAugment_a, bind, Except.bind, pure, Except.pure]
  simp +decide [augmentsOf, nodeAt?, modsAddedZ, SharedNamespace.moduleB, Module.tops, Node.nodeAt?, rpcR, inputR,
    containerY, Node.slots, context, augmentingA, augmentingC]

end ForeignInput

open ForeignInput in
/-- Module `a`'s augment reaches into the input of `r` through the container `c` added there:
its group is the leaf `z`, drawn as input. -/
theorem groupsOf_schemaTree_foreignInput :
    Context.load doc = .ok context ∧
      context.modules = [SharedNamespace.moduleB [containerY [leafZ]], augmentingC] ++ augmentingA :: [] ∧
      (∀ m ∈ ([SharedNamespace.moduleB [containerY [leafZ]], augmentingC] ++ [] : List Module),
        m.name ≠ augmentingA.name ∧ m.namespaceUri ≠ augmentingA.namespaceUri) ∧
      (∀ m ∈ context.modules, ∀ m' ∈ context.modules, m.namespaceUri = m'.namespaceUri →
        m.name = m'.name) ∧
      (augmentingA.attached.map fun p => p.2.path).Nodup ∧
      groupsOf context.schemaTree augmentingA = statementGroups augmentingA ∧
      statementGroups augmentingA =
        [⟨[SharedNamespace.qr, SharedNamespace.qin, qy], [ofNode leafZ], .input⟩] := by
  have hother : ∀ m ∈ ([SharedNamespace.moduleB [containerY [leafZ]], augmentingC] ++ [] : List Module),
      m.name ≠ augmentingA.name ∧ m.namespaceUri ≠ augmentingA.namespaceUri := by
    simp only [List.append_nil, List.mem_cons, List.not_mem_nil, or_false, forall_eq_or_imp,
      forall_eq]
    decide
  have hns : ∀ m ∈ context.modules, ∀ m' ∈ context.modules, m.namespaceUri = m'.namespaceUri →
      m.name = m'.name := by
    simp only [context, List.mem_cons, List.not_mem_nil, or_false, forall_eq_or_imp, forall_eq]
    decide
  have hdistinct : (augmentingA.attached.map fun p => p.2.path).Nodup := by
    simp [Module.attached, augmentingA]
  refine ⟨load_doc, rfl, hother, hns, hdistinct,
    groupsOf_schemaTree load_doc rfl hother hns hdistinct, ?_⟩
  simp [statementGroups, targetRole, Module.attached, augmentingA, List.eraseDups_cons, bodyRole]

open SharedNamespace in
/-- Module `a`'s augment reaches into the input of `r`, but `z`'s group is drawn plain: the
role is keyed by `b:r/b:input/b:y`, the group by `z`'s place `b:r/b:input/c:y`. -/
theorem foreign_name_loses_body_role :
    Context.load doc = .ok context ∧
      augmentingA.augments.map (fun a => (a.target, a.body)) = [([qr, qin, qyb], some .input)] ∧
      groupsOf context.schemaTree augmentingA =
        [⟨[qr, qin, qyc], [SchemaTree.ofNode leafZ], .plain⟩] :=
  ⟨load_doc, rfl, groupsOf_context⟩

open SharedNamespace in
/-- In the diagram of module `a`, the row of `z` is flagged `ro`, though `z` lies under the input
of `r`. -/
theorem foreign_name_row_flags :
    Context.load doc = .ok context ∧
      Node.nodeAt? [.input, .child 0, .child 0] (rpcR [containerY [leafZ]]) = some leafZ ∧
      ∃ p r, Line.row leafZ p r ∈
        moduleLines context context.schemaTree augmentingA ⟨{}, unbounded, unbounded⟩ ∧
        r.flags = some (Text.ofString "ro") := by
  refine ⟨load_doc, by simp [Node.nodeAt?, rpcR, inputR, containerY, Node.slots], ?_⟩
  have hbudget : (⟨{}, unbounded, unbounded⟩ : Settings).budget = 9998 + 2 := countNat_unbounded
  refine ⟨⟨[], 9998 + 2, {}, .plain, none⟩,
    rowOf (Env.ofModule context augmentingA ⟨{}, unbounded, unbounded⟩) leafZ
      ⟨[], 9998 + 2, {}, .plain, none⟩
      (typeWidth (Env.ofModule context augmentingA ⟨{}, unbounded, unbounded⟩)
        [SchemaTree.ofNode leafZ] ⟨[], 9998 + 2, {}, .plain, none⟩), ?_, ?_⟩
  · rw [moduleLines, rootsOf_context, groupsOf_context, hbudget]
    simp only [List.flatMap_cons, List.flatMap_nil, List.append_nil, drawEntries_leafZ]
    simp [Env.ofModule]
  · simp [rowOf, flagsFor, leafZ, Node.kind, Node.info]

end YangDiagram.Diagram
