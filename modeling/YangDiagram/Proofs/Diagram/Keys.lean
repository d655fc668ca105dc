-- Keys of lists: a leaf's row leaves out `?` exactly when the leaf is mandatory or a list drawn
-- above it, with only choices and cases between, has it as a key. The key scope names that list
-- and the suppressed positions make the paths agree.
import Mathlib
import YangDiagram.Proofs.Diagram.Roots
import YangDiagram.Proofs.Schema.Targets

namespace YangDiagram.Schema

open YangDiagram.Json

/-- Whether an entry's node is a choice or a case: a level of the schema that data does not
have. -/
def SchemaTree.isChoiceOrCase (t : SchemaTree) : Bool :=
  t.kind? = some .choice || t.kind? = some .case

/-- One entry's path is another's with one name added. -/
def SchemaTree.Extends (a b : SchemaTree) : Prop := ∃ q, b.path = a.path ++ [q]

/-- The entries a chain of entries goes through after a first one: the last entry's path is the
first's with one name added per step, so the entry at each step stands one level further down. -/
theorem SchemaTree.path_of_isChain : ∀ (mid : List SchemaTree) (L t : SchemaTree),
    (L :: mid ++ [t]).IsChain SchemaTree.Extends → ∃ tail, t.path = L.path ++ tail ∧
      tail.length = mid.length + 1 ∧
      ∀ k (hk : k < mid.length), mid[k].path.length = L.path.length + k + 1
  | [], L, t, h => by
    obtain ⟨q, hq⟩ := (List.isChain_pair.mp h)
    exact ⟨[q], hq, rfl, by simp⟩
  | e :: mid, L, t, h => by
    simp only [List.cons_append, List.isChain_cons_cons] at h
    obtain ⟨⟨q, hq⟩, h⟩ := h
    obtain ⟨tail, ht, hlen, hmid⟩ := path_of_isChain mid e t h
    refine ⟨q :: tail, by rw [ht, hq, List.append_assoc, List.singleton_append], by simp [hlen],
      fun k hk => ?_⟩
    cases k with
    | zero => simp [hq]
    | succ k =>
      rw [List.getElem_cons_succ, hmid k (by simpa using hk), hq, List.length_append,
        List.length_singleton]
      omega

/-- An entry whose node has the entry's path, with every entry under it one name further down,
and so on below. -/
inductive SchemaTree.Chained : SchemaTree → Prop
  | intro {t : SchemaTree} {n : Node} (node : t.node = some n) (path : n.path = t.path)
      (step : ∀ c ∈ t.childTrees, t.Extends c) (below : ∀ c ∈ t.childTrees, Chained c) : Chained t

namespace SchemaTree

theorem Chained.child {t c : SchemaTree} (h : t.Chained) (hc : c ∈ t.childTrees) :
    t.Extends c ∧ c.Chained := by
  cases h with
  | intro _ _ step below => exact ⟨step c hc, below c hc⟩

theorem Chained.node_path {t : SchemaTree} (h : t.Chained) {n : Node} (hn : t.node = some n) :
    n.path = t.path := by
  cases h with
  | intro node path _ _ =>
    rw [node, Option.some.injEq] at hn
    exact hn ▸ path

/-- The entry of a node that stands under some path is chained: the entries under it are those of
its children, each standing one name below it. -/
theorem chained_ofNode {named : QName → Prop} (n : Node) {p : List QName}
    (hn : n.Under named p) : (ofNode n).Chained := by
  refine .intro (node_ofNode n) (path_ofNode n).symm (fun c hc => ?_) (fun c hc => ?_)
  · obtain ⟨c', hc', rfl⟩ := mem_childTrees_ofNode hc
    exact ⟨c'.qname, by rw [path_ofNode, path_ofNode, (hn.child hc').path_eq]⟩
  · obtain ⟨c', hc', rfl⟩ := mem_childTrees_ofNode hc
    exact chained_ofNode c' (hn.child hc')
termination_by sizeOf n
decreasing_by exact Node.sizeOf_lt_of_mem_childNodes hc'

end SchemaTree

/-- Every node an augment statement of a loaded document records stands under some path, with
names of modules of the document. -/
theorem Context.augmentNodes_under_of_load {doc : Value} {ctx : Context}
    (h : Context.load doc = .ok ctx) : ∀ m ∈ ctx.modules, ∀ a ∈ m.augments, ∀ n ∈ a.nodes,
      ∃ p, n.Under (fun q => (q.module, q.namespaceUri) ∈ namesOf ctx.modules) p := by
  obtain ⟨built, r, ⟨hst, hhead, -⟩, hctx, hmods⟩ := Context.augmentsStand_of_load h
  have hnames : namesOf ctx.modules = namesOf built :=
    namesOf_eq_of_headersOf (hctx.trans hhead)
  intro m hm a ha n hn
  obtain ⟨m', k, -, rfl⟩ := hmods m hm
  simp only [augmentsOf, List.mem_map, List.mem_filter] at ha
  obtain ⟨⟨k', ap⟩, -, rfl⟩ := ha
  simp only [List.mem_filterMap] at hn
  obtain ⟨addr, -, hn⟩ := hn
  rw [hnames]
  exact under_nodeAt? hst hn

/-- The entries a loaded document's diagrams draw are chained: those under the root of its schema
tree, and those of every module's rpcs and notifications. -/
theorem Context.chained_of_load {doc : Value} {ctx : Context} (h : Context.load doc = .ok ctx) :
    (∀ c ∈ ctx.schemaTree.childTrees, c.Chained) ∧
      ∀ m ∈ ctx.modules, ∀ n ∈ m.rpcs ++ m.notifications, (SchemaTree.ofNode n).Chained := by
  have hst := Context.stands_of_load h
  refine ⟨ctx.forall_childTrees_schemaTree _ (fun m hm n hn => ?_) (fun m hm a ha n hn => ?_),
    fun m hm n hn => ?_⟩
  · exact SchemaTree.chained_ofNode n (hst m hm n (by simp [hn]))
  · obtain ⟨p, hp⟩ := Context.augmentNodes_under_of_load h m hm a ha n hn
    exact SchemaTree.chained_ofNode n hp
  · exact SchemaTree.chained_ofNode n (hst m hm n (by simp_all))

end YangDiagram.Schema

namespace YangDiagram.Diagram

open YangDiagram.Schema YangDiagram.Json

/-- The key scope below an entry, from the scope above it: a list's own keys, the same scope
through a choice or a case, none below anything else. -/
def KeyScope.step (sc : Option KeyScope) (e : SchemaTree) : Option KeyScope :=
  match e.node with
  | some (.list _ ks _ _) => some ⟨e.path, ks⟩
  | some (.choice ..) | some (.case ..) => sc
  | _ => none

/-- The key scope below a list of entries, outermost first. -/
def keyScopeOf (above : List SchemaTree) : Option KeyScope := above.foldl KeyScope.step none

/-- A name is a key of a list drawn above: some list among the entries above has a key of the
same namespace and local name, and only choices and cases come after it. -/
def KeyOfListAbove (above : List SchemaTree) (q : QName) : Prop :=
  ∃ pre L mid info keys cs as, above = pre ++ L :: mid ∧ L.node = some (.list info keys cs as) ∧
    (∀ e ∈ mid, e.isChoiceOrCase = true) ∧ ∃ k ∈ keys, k.same q = true

@[simp] theorem keyScopeOf_nil : keyScopeOf [] = none := rfl

theorem keyScopeOf_concat (above : List SchemaTree) (e : SchemaTree) :
    keyScopeOf (above ++ [e]) = KeyScope.step (keyScopeOf above) e :=
  List.foldl_concat _ _ _ _

theorem step_of_isChoiceOrCase {e : SchemaTree} (he : e.isChoiceOrCase = true)
    (sc : Option KeyScope) : KeyScope.step sc e = sc := by
  simp only [SchemaTree.isChoiceOrCase, SchemaTree.kind?, Bool.or_eq_true, decide_eq_true_eq,
    Option.map_eq_some_iff] at he
  rcases he with ⟨n, hn, hk⟩ | ⟨n, hn, hk⟩ <;> cases n <;> simp_all [KeyScope.step, Node.kind]

theorem foldl_step_of_isChoiceOrCase (sc : Option KeyScope) :
    ∀ {mid : List SchemaTree}, (∀ e ∈ mid, e.isChoiceOrCase = true) →
      mid.foldl KeyScope.step sc = sc
  | [], _ => rfl
  | e :: mid, h => by
    rw [List.foldl_cons, step_of_isChoiceOrCase (h e List.mem_cons_self)]
    exact foldl_step_of_isChoiceOrCase sc fun x hx => h x (List.mem_cons_of_mem _ hx)

/-- A scope below an entry comes from the entry when it is a list, and from above it when it is a
choice or a case. -/
theorem step_eq_some_iff {sc : Option KeyScope} {e : SchemaTree} {sc' : KeyScope} :
    KeyScope.step sc e = some sc' ↔
      (∃ info cs as, e.node = some (.list info sc'.keys cs as) ∧ sc'.listPath = e.path) ∨
        (e.isChoiceOrCase = true ∧ sc = some sc') := by
  obtain ⟨p, ks⟩ := sc'
  cases hn : e.node with
  | none => simp [KeyScope.step, hn, SchemaTree.isChoiceOrCase, SchemaTree.kind?]
  | some n =>
    cases n <;> simp [KeyScope.step, hn, SchemaTree.isChoiceOrCase, SchemaTree.kind?, Node.kind]
    grind

/-- The key scope below a list of entries is that of the last list among them, when only choices
and cases follow it. -/
theorem keyScopeOf_eq_some_iff {above : List SchemaTree} {sc : KeyScope} :
    keyScopeOf above = some sc ↔ ∃ pre L mid info cs as, above = pre ++ L :: mid ∧
      L.node = some (.list info sc.keys cs as) ∧ sc.listPath = L.path ∧
      ∀ e ∈ mid, e.isChoiceOrCase = true := by
  constructor
  · induction above using List.reverseRecOn with
    | nil => simp
    | append_singleton above e ih =>
      intro h
      rw [keyScopeOf_concat, step_eq_some_iff] at h
      rcases h with ⟨info, cs, as, hn, hpath⟩ | ⟨he, h⟩
      · exact ⟨above, e, [], info, cs, as, by simp, hn, hpath, by simp⟩
      · obtain ⟨pre, L, mid, info, cs, as, rfl, hL, hpath, hmid⟩ := ih h
        refine ⟨pre, L, mid ++ [e], info, cs, as, by simp, hL, hpath, fun x hx => ?_⟩
        rcases List.mem_append.mp hx with hx | hx
        · exact hmid x hx
        · rw [List.mem_singleton] at hx
          exact hx ▸ he
  · rintro ⟨pre, L, mid, info, cs, as, rfl, hL, hpath, hmid⟩
    rw [keyScopeOf, List.foldl_append, List.foldl_cons, foldl_step_of_isChoiceOrCase _ hmid]
    simp only [KeyScope.step, hL, ← hpath]

/-- A name is a key of a list above exactly when the key scope below the entries holds a key of
its namespace and local name. -/
theorem keyOfListAbove_iff (above : List SchemaTree) (q : QName) :
    KeyOfListAbove above q ↔ ((keyScopeOf above).any fun sc => sc.keys.any (·.same q)) = true := by
  constructor
  · rintro ⟨pre, L, mid, info, keys, cs, as, rfl, hL, hmid, k, hk, hkq⟩
    have hsc : keyScopeOf (pre ++ L :: mid) = some ⟨L.path, keys⟩ :=
      keyScopeOf_eq_some_iff.mpr ⟨pre, L, mid, info, cs, as, rfl, hL, rfl, hmid⟩
    rw [hsc]
    simpa using ⟨k, hk, hkq⟩
  · intro h
    cases hsc : keyScopeOf above with
    | none => simp [hsc] at h
    | some sc =>
      rw [hsc] at h
      obtain ⟨pre, L, mid, info, cs, as, rfl, hL, -, hmid⟩ := keyScopeOf_eq_some_iff.mp hsc
      obtain ⟨k, hk, hkq⟩ := by simpa using h
      exact ⟨pre, L, mid, info, sc.keys, cs, as, rfl, hL, hmid, k, hk, hkq⟩

instance (above : List SchemaTree) (q : QName) : Decidable (KeyOfListAbove above q) :=
  decidable_of_iff _ (keyOfListAbove_iff above q).symm

/-! ## Where a row is drawn -/

namespace Scopes

variable {κ : Type} [DecidableEq κ]

theorem has_acquire_self (s : Scopes κ) (p : κ) : (s.acquire p).has p = true := by
  simp [has_eq_contains]

theorem has_acquire_of_has {s : Scopes κ} {q : κ} (h : s.has q = true) (p : κ) :
    (s.acquire p).has q = true := by
  rw [has_eq_contains, List.contains_iff_mem] at h ⊢
  simp [h]

end Scopes

/-- A place fits the entries above a row, outermost first: its key scope is theirs, and the
position of each choice and case among them is suppressed. -/
structure Place.Fits (above : List SchemaTree) (pl : Place) : Prop where
  keys : pl.keys = keyScopeOf above
  suppressed : ∀ e ∈ above, e.isChoiceOrCase = true → pl.suppressed.has (e.path.length - 1) = true

theorem Place.fits_margin (connectors : List Bool) (budget : Nat) (role : Role) :
    Place.Fits [] ⟨connectors, budget, {}, role, none⟩ :=
  ⟨rfl, by simp⟩

theorem suppressed_childPlan (env : Env) (t : SchemaTree) (n : Node) (pl : Place) :
    (childPlan env t n pl).2.suppressed =
      if n.kind = .choice then pl.suppressed.acquire (t.path.length - 1) else pl.suppressed := by
  cases n <;> rfl

/-- The children of an entry are drawn at a place that fits the entries above them: the entry's
own row sets the scope and suppression its children see. -/
theorem Place.Fits.childPlan {env : Env} {above : List SchemaTree} {pl : Place} (h : pl.Fits above)
    {t : SchemaTree} {n : Node} (hn : t.node = some n) {below : Place} (hkeys : below.keys = pl.keys)
    (hsup : below.suppressed =
      if n.kind = .case then pl.suppressed.acquire (t.path.length - 1) else pl.suppressed)
    (hs : t.Sound) {c : SchemaTree} (hc : c ∈ shownChildren env t) :
    (Diagram.childPlan env t n below).2.Fits (above ++ [t]) := by
  rw [← @childPlan_fst env t n below hs hn] at hc
  constructor
  · rw [keyScopeOf_concat, ← h.keys]
    cases n <;> simp [Diagram.childPlan, KeyScope.step, hn, hkeys] at hc ⊢
  · have hkeep : ∀ q, pl.suppressed.has q = true →
        (Diagram.childPlan env t n below).2.suppressed.has q = true := by
      intro q hq
      rw [suppressed_childPlan, hsup]
      split <;> split <;> first
        | exact hq
        | exact Scopes.has_acquire_of_has hq _
        | exact Scopes.has_acquire_of_has (Scopes.has_acquire_of_has hq _) _
    intro e he hce
    rcases List.mem_append.mp he with he | he
    · exact hkeep _ (h.suppressed e he hce)
    · rw [List.mem_singleton] at he
      subst he
      simp only [SchemaTree.isChoiceOrCase, SchemaTree.kind?, hn, Option.map_some,
        Option.some.injEq, Bool.or_eq_true, decide_eq_true_eq] at hce
      rw [suppressed_childPlan, hsup]
      rcases hce with hk | hk
      · rw [if_pos hk, if_neg (by rw [hk]; decide)]
        exact Scopes.has_acquire_self _ _
      · rw [if_neg (by rw [hk]; decide), if_pos hk]
        exact Scopes.has_acquire_self _ _

/-! ## The label of a leaf -/

/-- Taking out of a path positions beyond a prefix that are all suppressed leaves the prefix with
its own positions taken out. -/
theorem Scopes.dataPath_append_of_has {α : Type} (s : Scopes Nat) (xs ys : List α)
    (h : ∀ k < ys.length, s.has (xs.length + k) = true) :
    s.dataPath id (xs ++ ys) = s.dataPath id xs := by
  have hnone : (ys.zipIdx (0 + xs.length)).filter (fun p => !s.has (id p.2)) = [] := by
    refine List.filter_eq_nil_iff.mpr fun p hp => ?_
    obtain ⟨y, i⟩ := p
    obtain ⟨h₁, h₂, -⟩ := List.mem_zipIdx hp
    have hk := h (i - xs.length) (by omega)
    rw [show xs.length + (i - xs.length) = i by omega] at hk
    simp [hk]
  simp only [dataPath, List.zipIdx_append, List.filter_append, hnone, List.append_nil]

theorem QName.same_self (q : QName) : q.same q = true := by
  simp [QName.same]

theorem all_zip_self_same : ∀ l : List QName, (l.zip l).all (fun p => p.1.same p.2) = true
  | [] => rfl
  | q :: l => by simp [QName.same_self, all_zip_self_same l]

/-- At a place that fits the entries above it, a leaf one level below them is a key of its list
exactly when some list above it, with only choices and cases between, has a key of its name. -/
theorem isListKey_of_fits {above : List SchemaTree} {t : SchemaTree} {pl : Place}
    (hfits : pl.Fits above) (hchain : (above ++ [t]).IsChain SchemaTree.Extends) {n : Node}
    (hpath : n.path = t.path) (hleaf : n.kind = .leaf) :
    isListKey n pl.keys pl.suppressed = true ↔ KeyOfListAbove above n.qname := by
  rw [hfits.keys, keyOfListAbove_iff]
  cases hsc : keyScopeOf above with
  | none => simp [isListKey]
  | some sc =>
    obtain ⟨pre, L, mid, info, cs, as, rfl, hL, hlp, hmid⟩ := keyScopeOf_eq_some_iff.mp hsc
    rw [List.append_assoc] at hchain
    obtain ⟨tail, ht, hlen, hmidlen⟩ :=
      SchemaTree.path_of_isChain mid L t hchain.right_of_append
    have hdata : pl.suppressed.dataPath id n.path.dropLast = pl.suppressed.dataPath id sc.listPath := by
      have htail : tail ≠ [] := List.ne_nil_of_length_pos (by omega)
      rw [hpath, ht, hlp, List.dropLast_append_of_ne_nil htail, Scopes.dataPath_append_of_has]
      intro k hk
      have hk' : k < mid.length := by
        rw [List.length_dropLast, hlen] at hk
        omega
      have hsup := hfits.suppressed mid[k] (by simp [List.getElem_mem]) (hmid _ (List.getElem_mem hk'))
      rwa [hmidlen k hk', show L.path.length + k + 1 - 1 = L.path.length + k by omega] at hsup
    simp only [isListKey, hleaf, hdata, all_zip_self_same, Option.any_some, Bool.and_true,
      decide_true]

/-- The label a leaf's row should carry, with the entries drawn above it: its name without `?`
when it is mandatory or a key of a list above, else with `?`. -/
def leafLabel (env : Env) (above : List SchemaTree) (n : Node) : Text :=
  if Node.mandatory n = true ∨ KeyOfListAbove above n.qname then shownName env.prefixes n.qname
  else shownName env.prefixes n.qname ++ "?"

/-- A leaf drawn at a place that fits the entries above it carries the label it should. -/
theorem labelOf_of_fits (env : Env) {above : List SchemaTree} {t : SchemaTree} {pl : Place}
    (hfits : pl.Fits above) (hchain : (above ++ [t]).IsChain SchemaTree.Extends) {n : Node}
    (hpath : n.path = t.path) (hleaf : n.kind = .leaf) :
    labelOf env n pl.keys pl.suppressed = leafLabel env above n := by
  have hkey := isListKey_of_fits hfits hchain hpath hleaf
  cases n <;> simp only [Node.kind, reduceCtorEq] at hleaf
  simp only [labelOf, leafLabel, Node.mandatory, Bool.or_eq_true, hkey]
  exact if_congr Iff.rfl rfl rfl

/-! ## The rows of a drawing -/

def Trail.entries (tr : Trail) : List SchemaTree := tr.filterMap fun (g, i) => g[i]?

theorem Trail.entries_concat (tr : Trail) {g : List SchemaTree} {i : Nat} {t : SchemaTree}
    (h : g[i]? = some t) : Trail.entries (tr ++ [(g, i)]) = tr.entries ++ [t] := by
  simp [Trail.entries, List.filterMap_append, h]

def Line.leafLabel? : Line → Option (Node × Text)
  | .row n _ r => if n.kind = .leaf then some (n, r.label) else none
  | .heading _ => none

/-- The leaf at the end of a trail, with the label it should carry under the entries above it. -/
def Trail.leafLabel? (env : Env) (tr : Trail) : Option (Node × Text) :=
  match tr.tree?.bind (·.node) with
  | some n => if n.kind = .leaf then some (n, leafLabel env tr.entries.dropLast n) else none
  | none => none

theorem Trail.leafLabel?_concat (env : Env) (above : Trail) {g : List SchemaTree} {i : Nat}
    {t : SchemaTree} {n : Node} (hi : g[i]? = some t) (hn : t.node = some n) :
    Trail.leafLabel? env (above ++ [(g, i)]) =
      if n.kind = .leaf then some (n, leafLabel env above.entries n) else none := by
  simp [Trail.leafLabel?, hi, hn, Trail.entries_concat above hi]

/-- The row of an entry drawn at a place that fits the entries above it carries, for a leaf, the
label the leaf should. -/
theorem leafLabel?_row_of_fits (env : Env) {above : List SchemaTree} {t : SchemaTree}
    {pl : Place} (hfits : pl.Fits above) (hchain : (above ++ [t]).IsChain SchemaTree.Extends)
    (ht : t.Chained) {n : Node} (hn : t.node = some n) (place : Place)
    (hkeys : place.keys = pl.keys) (hsup : place.suppressed = pl.suppressed) (w : Nat) :
    Line.leafLabel? (.row n place (rowOf env n place w)) =
      if n.kind = .leaf then some (n, leafLabel env above n) else none := by
  simp only [Line.leafLabel?, rowOf, hkeys, hsup]
  split
  · rename_i hleaf
    rw [labelOf_of_fits env hfits hchain (ht.node_path hn) hleaf]
  · rfl

/-- The rows an entry draws with a budget of at least one, at a place that fits the entries of
the trail above it, carry for each leaf the label its trail asks for. -/
theorem drawTree_leafLabels (env : Env) : ∀ (b : Nat) (above : Trail) (g : List SchemaTree)
    (i : Nat) (t : SchemaTree) (pl : Place) (w : Nat), t.Sound → t.Chained → g[i]? = some t →
    pl.budget = b + 1 → pl.Fits above.entries →
    (above.entries ++ [t]).IsChain SchemaTree.Extends →
    (drawTree env pl w (decide (i + 1 < g.length)) t).map Line.leafLabel? =
      ((above ++ [(g, i)]) :: trails env b (above ++ [(g, i)]) (shownChildren env t)).map
        (Trail.leafLabel? env) := by
  intro b
  induction b with
  | zero =>
    intro above g i t pl w hs hc hi hb hfits hchain
    obtain ⟨n, hn⟩ : ∃ n, t.node = some n := by cases hs with | intro h => exact ⟨_, h⟩
    rw [drawTree_of_node hn]
    dsimp only
    rw [if_pos (show pl.budget ≤ 1 by omega), List.map_singleton, List.map_cons, leafLabel?_row_of_fits env hfits hchain hc hn { pl with role := roleOf n pl.role } rfl rfl,
      Trail.leafLabel?_concat env above hi hn]
    rfl
  | succ b ih =>
    intro above g i t pl w hs hc hi hb hfits hchain
    obtain ⟨n, hn⟩ : ∃ n, t.node = some n := by cases hs with | intro h => exact ⟨_, h⟩
    rw [drawTree_of_node hn]
    dsimp only
    rw [if_neg (show ¬pl.budget ≤ 1 by omega), List.map_cons, List.map_cons,
      leafLabel?_row_of_fits env hfits hchain hc hn { pl with role := roleOf n pl.role } rfl rfl, Trail.leafLabel?_concat env above hi hn]
    congr 1
    simp only [hb, childPlan_fst hs hn]
    rw [trails, List.map_flatMap, List.map_flatMap]
    refine List.flatMap_congr fun p hp => ?_
    obtain ⟨c, j⟩ := p
    have hj := List.mem_zipIdx_iff_getElem?.mp hp
    have hct : c ∈ t.childTrees := mem_childTrees_of_mem_shownChildren (List.mem_of_getElem? hj)
    refine ih _ _ j c _ _ (hs.child hct) (hc.child hct).2 hj (by simp) ?_ ?_
    · rw [Trail.entries_concat above hi]
      exact hfits.childPlan hn rfl rfl hs (List.mem_of_getElem? hj)
    · rw [Trail.entries_concat above hi]
      refine hchain.append (.singleton c) fun x hx y hy => ?_
      rw [List.getLast?_concat, Option.mem_some_iff] at hx
      rw [List.head?_cons, Option.mem_some_iff] at hy
      exact hx ▸ hy ▸ (hc.child hct).1

/-- The rows a list of sound, chained entries draws at the margin with a budget of at least one
carry for each leaf the label its trail asks for. -/
theorem drawEntries_leafLabels {env : Env} {role : Role} {D : Nat} {g : List SchemaTree}
    (hg : ∀ t ∈ g, t.Sound ∧ t.Chained) (hD : 0 < D) :
    (drawEntries env role D g).map Line.leafLabel? = (trails env D [] g).map (Trail.leafLabel? env) := by
  obtain ⟨b, rfl⟩ : ∃ b, D = b + 1 := ⟨D - 1, by omega⟩
  have hitems : g.filter (·.node.isSome) = g := List.filter_eq_self.mpr fun t ht => by
    cases (hg t ht).1 with
    | intro hn => simp [hn]
  simp only [drawEntries, hitems, trails, List.map_flatMap]
  refine List.flatMap_congr fun p hp => ?_
  obtain ⟨t, i⟩ := p
  have hi := List.mem_zipIdx_iff_getElem?.mp hp
  obtain ⟨hs, hc⟩ := hg t (List.mem_of_getElem? hi)
  exact drawTree_leafLabels env b [] g i t _ _ hs hc hi rfl (Place.fits_margin _ _ _)
    (by simp [Trail.entries])

/-- Line by line, the leaves of a diagram of sound, chained sections carry the labels their
trails ask for. -/
theorem moduleLines_leafLabels {ctx : Context} {tree : SchemaTree} {m : Module} {s : Settings}
    (hsec : ∀ sec ∈ sections (Env.ofModule ctx m s) tree m, ∀ t ∈ sec.entries, t.Sound ∧ t.Chained)
    (hD : 0 < s.budget) :
    (moduleLines ctx tree m s).map Line.leafLabel? =
      (sections (Env.ofModule ctx m s) tree m).flatMap fun sec =>
        none :: (trails (Env.ofModule ctx m s) s.budget [] sec.entries).map
          (Trail.leafLabel? (Env.ofModule ctx m s)) := by
  rw [moduleLines_eq_sections, List.map_flatMap]
  refine List.flatMap_congr fun sec hsec' => ?_
  rw [Section.lines, List.map_cons, drawEntries_leafLabels (hsec sec hsec') hD]
  rfl

theorem sound_chained_of_mem_sections {doc : Value} {ctx : Context}
    (hload : Context.load doc = .ok ctx) {m : Module} (hm : m ∈ ctx.modules) (env : Env) :
    ∀ sec ∈ sections env ctx.schemaTree m, ∀ t ∈ sec.entries, t.Sound ∧ t.Chained := by
  have hsound := sound_of_mem_sections (Context.placed_of_load hload) hm env
  obtain ⟨hroot, hops⟩ := Context.chained_of_load hload
  intro sec hsec t ht
  refine ⟨hsound sec hsec t ht, ?_⟩
  simp only [sections, List.cons_append, List.mem_cons, List.mem_append, List.mem_map] at hsec
  rcases hsec with rfl | (⟨g, hg, rfl⟩ | hsec) | hsec
  · exact hroot t (mem_of_mem_ownTrees (List.mem_filter.mp ht).1)
  · exact hroot t (mem_childTrees_of_mem_members hg ht)
  · split at hsec
    · simp at hsec
    · simp only [List.mem_singleton] at hsec
      subst hsec
      obtain ⟨n, hn, rfl⟩ := List.mem_map.mp ht
      exact hops m hm n (List.mem_append_left _ hn)
  · split at hsec
    · simp at hsec
    · simp only [List.mem_singleton] at hsec
      subst hsec
      obtain ⟨n, hn, rfl⟩ := List.mem_map.mp ht
      exact hops m hm n (List.mem_append_right _ hn)

/-- List keys: every leaf's row in a loaded module's diagram leaves out `?` exactly when the leaf
is mandatory or a list above it, with only choices and cases between, has it as a key. -/
theorem list_key_labels {doc : Value} {ctx : Context} (hload : Context.load doc = .ok ctx)
    {m : Module} (hm : m ∈ ctx.modules) {opts : Options} {s : Settings}
    (hs : opts.check = .ok s) :
    let env := Env.ofModule ctx m s
    (moduleLines ctx ctx.schemaTree m s).map Line.leafLabel? =
      (sections env ctx.schemaTree m).flatMap fun sec =>
        none :: (trails env s.budget [] sec.entries).map (Trail.leafLabel? env) :=
  moduleLines_leafLabels (sound_chained_of_mem_sections hload hm _)
    (Options.budget_pos_of_check hs)

open ImportSample in
theorem list_key_labels_acModule :
    Context.load importDoc = .ok ⟨[acModule, bModule]⟩ ∧ acModule ∈ [acModule, bModule] ∧
      ({} : Options).check = .ok ⟨{}, unbounded, unbounded⟩ ∧
      let ctx : Context := ⟨[acModule, bModule]⟩
      let s : Settings := ⟨{}, unbounded, unbounded⟩
      let env := Env.ofModule ctx acModule s
      (moduleLines ctx ctx.schemaTree acModule s).map Line.leafLabel? =
        (sections env ctx.schemaTree acModule).flatMap fun sec =>
          none :: (trails env s.budget [] sec.entries).map (Trail.leafLabel? env) :=
  ⟨load_importDoc, List.mem_cons_self, Options.check_default,
    list_key_labels load_importDoc List.mem_cons_self Options.check_default⟩

end YangDiagram.Diagram
