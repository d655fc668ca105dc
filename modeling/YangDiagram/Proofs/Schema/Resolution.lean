-- Resolving a target path walks its pieces, each taking the first node with its module's
-- namespace and local name. When no namespace is shared by two module names, the names walked
-- are the path of the node reached.
import Mathlib
import YangDiagram.Proofs.Schema.Targets
import YangDiagram.Proofs.Schema.Origin

namespace YangDiagram.Schema

open YangDiagram.Json

/-! ## The walk -/

/-- The prefix and the local name of a piece of a target path: what stands before and after its
first colon, or the scope's own prefix and the whole piece. -/
def Scope.pieceNames (sc : Scope) (segment : Text) : Text × Text :=
  match segment.splitOn (Text.unit ':') with
    | [l] => (sc.prefixName, l)
    | p :: rest => (p, Text.intercalate ":" rest)
    | [] => (sc.prefixName, segment)

/-- The pieces of a target path: the texts between its slashes, after the first slash. -/
def targetPieces (text : Text) : List Text := (text.splitOn (Text.unit '/')).drop 1

/-- The top-level data nodes, rpcs and notifications of a module, where a target path starts. -/
def Module.topNodes (m : Module) : List Node := m.dataNodes ++ m.rpcs ++ m.notifications

/-- The latest revision of the modules of a name, the first such in the list. -/
def latestModule (mods : List Module) (name : Text) : Option Module :=
  (latestIndex mods name).bind (mods[·]?)

/-- Why a walk down a target path stops at a piece. -/
inductive Miss where
  /-- The scope imports no module under the piece's prefix. -/
  | unknownPrefix (prefixName : Text)
  /-- No module has the name the prefix stands for. -/
  | unknownModule
  /-- No node where the walk stands has the piece's name. -/
  | noNode
  deriving DecidableEq

def Miss.error (text module place : Text) : Miss → LoadError
  | .unknownPrefix p => .unknownPrefix p module place
  | .unknownModule | .noNode => .targetNotFound text module place

def Node.bodyKind (n : Node) : Option Body :=
  match n.kind with
  | .input => some .input
  | .output => some .output
  | _ => none

/-- One piece of a target path: the name it qualifies by the latest revision of its prefix's
module, and the first node of that name where the walk stands. -/
def findPiece (sc : Scope) (mods : List Module) (here : Option Node) (seg : Text) :
    Except Miss (QName × Node) := do
  let some name := lookupKey sc.imports (sc.pieceNames seg).1
    | throw (.unknownPrefix (sc.pieceNames seg).1)
  let some m := latestModule mods name | throw .unknownModule
  let q : QName := ⟨m.name, m.namespaceUri, (sc.pieceNames seg).2⟩
  let some n := (here.elim m.topNodes Node.childNodes).find? (·.qname.same q) | throw .noNode
  pure (q, n)

/-- The walk down pieces of a target path, each from the node the one before reached; it stops
at the first piece it cannot take. -/
def walkPieces (sc : Scope) (mods : List Module) (here : Option Node) :
    List Text → Except Miss (List (QName × Node))
  | [] => pure []
  | seg :: rest => do
    let found ← findPiece sc mods here seg
    let more ← walkPieces sc mods (some found.2) rest
    pure (found :: more)

def lastBody (ns : List Node) : Option Body := (ns.filterMap Node.bodyKind).getLast?

/-- What a walk that took pieces gives: the names they qualify, the node of the last piece and the
body of the last input or output walked through; nothing when it took none. -/
def walkView (found : List (QName × Node)) : Option (List QName × Node × Option Body) :=
  found.getLast?.map fun last => (found.map (·.1), last.2, lastBody (found.map (·.2)))

/-- What resolving a target path should give: the walk down all its pieces from the start. -/
def walkTarget (sc : Scope) (mods : List Module) (text place : Text) :
    Except LoadError (List QName × Node × Option Body) :=
  match walkPieces sc mods none (targetPieces text) with
  | .error miss => .error (miss.error text sc.name place)
  | .ok found =>
    match walkView found with
    | some v => .ok v
    | none => .error (.targetNotFound text sc.name place)

def Target.view (t : Target) : List QName × Node × Option Body := (t.path, t.node, t.body)

theorem latestModule_isSome_iff (mods : List Module) (name : Text) :
    (latestModule mods name).isSome ↔ ∃ m ∈ mods, m.name = name := by
  constructor
  · intro h
    obtain ⟨m, hm⟩ := Option.isSome_iff_exists.mp h
    obtain ⟨i, hi, hmi⟩ := Option.bind_eq_some_iff.mp hm
    obtain ⟨m', hm', hname⟩ := name_of_latestIndex hi
    rw [hmi, Option.some.injEq] at hm'
    exact ⟨m, List.mem_of_getElem? hmi, hm' ▸ hname⟩
  · intro h
    obtain ⟨m, hm, hname⟩ := h
    obtain ⟨i, hi⟩ := List.getElem?_of_mem hm
    have hne : mods.zipIdx.filter (·.1.name = name) ≠ [] := by
      refine List.ne_nil_of_mem (a := (m, i)) (List.mem_filter.mpr ⟨?_, by simp [hname]⟩)
      exact List.mem_zipIdx_iff_getElem?.mpr hi
    obtain ⟨⟨m', k⟩, hk⟩ := Option.ne_none_iff_exists'.mp
      (mt (firstLatest_eq_none (·.1.revision) _).mp hne)
    have hmem := ((firstLatest_eq_some _ _ _).mp hk).mem
    have hk' : mods[k]? = some m' := List.mem_zipIdx_iff_getElem?.mp (List.mem_filter.mp hmem).1
    simp [latestModule, latestIndex, hk, hk']

theorem Module.map_snd_tops (m : Module) : m.tops.map Prod.snd = m.topNodes := by
  simp [Module.tops, Module.topNodes, Function.comp_def]

theorem Node.map_snd_slots (n : Node) : n.slots.map Prod.snd = n.childNodes := by
  cases n <;> simp [Node.slots, Node.childNodes, Function.comp_def]

theorem lastBody_concat (ns : List Node) (n : Node) :
    lastBody (ns ++ [n]) = n.bodyKind.or (lastBody ns) := by
  cases hb : n.bodyKind <;> simp [lastBody, hb, List.filterMap_append, List.getLast?_append]

theorem walkView_concat (done : List (QName × Node)) (found : QName × Node) :
    walkView (done ++ [found]) =
      some (done.map (·.1) ++ [found.1], found.2, found.2.bodyKind.or (lastBody (done.map (·.2)))) := by
  simp [walkView, lastBody_concat]

/-! ## Resolving walks -/

theorem walked_parts {sofar : Option Target} {done : List (QName × Node)}
    (h : sofar.map Target.view = walkView done) :
    (sofar.map (·.path)).getD [] = done.map (·.1) ∧ sofar.map (·.node) = done.getLast?.map (·.2) ∧
      sofar.bind (·.body) = lastBody (done.map (·.2)) := by
  cases sofar with
  | none =>
    have hdone : done = [] := by simpa [walkView] using h.symm
    subst hdone
    simp [lastBody]
  | some s =>
    cases hl : done.getLast? with
    | none => simp [walkView, hl] at h
    | some last =>
      simp only [walkView, hl, Option.map_some, Option.some.injEq, Target.view, Prod.mk.injEq] at h
      obtain ⟨hp, hn, hb⟩ := h
      simp [hp, hn, hb]

/-- One step of a target path takes the next piece as the walk does, from the target the walk
has reached. -/
theorem stepTarget_walk (sc : Scope) (mods : List Module) (text place seg : Text)
    {sofar : Option Target} {done : List (QName × Node)}
    (hsofar : sofar.map Target.view = walkView done) :
    (stepTarget sc mods text place sofar seg).map (fun t => some t.view) =
      ((findPiece sc mods (done.getLast?.map (·.2)) seg).mapError
        (Miss.error text sc.name place)).map fun found => walkView (done ++ [found]) := by
  obtain ⟨hpath, hnode, hbody⟩ := walked_parts hsofar
  unfold stepTarget
  split
  rename_i pre l hpl
  have hpn : sc.pieceNames seg = (pre, l) := hpl
  rw [← hnode]
  simp only [findPiece, hpn, Scope.resolve]
  cases hlk : lookupKey sc.imports pre with
  | none =>
    simp [bind, Except.bind, Except.map, Except.mapError, Miss.error, throw, throwThe,
      MonadExceptOf.throw]
  | some name =>
    simp only [latestModule, bind, Except.bind]
    cases hmi : latestIndex mods name with
    | none => simp [Except.map, Except.mapError, Miss.error, throw, throwThe, MonadExceptOf.throw]
    | some mi =>
      cases hm : mods[mi]? with
      | none =>
        simp [hm, Except.map, Except.mapError, Miss.error, throw, throwThe, MonadExceptOf.throw]
      | some m =>
        simp only [hm, Option.bind_some]
        cases sofar with
        | none =>
          simp only [Option.map_none, Option.elim_none, ← Module.map_snd_tops, List.find?_map,
            Function.comp_def]
          rcases hf : List.find? (fun x => x.2.qname.same ⟨m.name, m.namespaceUri, l⟩) m.tops with
            _ | ⟨top, n⟩
          · simp [hf, Except.map, Except.mapError, Miss.error, throw, throwThe, MonadExceptOf.throw]
          · simp only [hf, Option.map_some, pure, Except.pure, Except.map, Except.mapError,
              walkView_concat, ← hpath, ← hbody]
            cases hk : n.kind <;> simp [Target.view, Node.bodyKind, hk]
        | some s =>
          simp only [Option.map_some, Option.elim_some, ← Node.map_snd_slots, List.find?_map,
            Function.comp_def]
          rcases hf : List.find? (fun x => x.2.qname.same ⟨m.name, m.namespaceUri, l⟩)
              s.node.slots with _ | ⟨slot, n⟩
          · simp [hf, Except.map, Except.mapError, Miss.error, throw, throwThe, MonadExceptOf.throw]
          · simp only [hf, Option.map_some, pure, Except.pure, Except.map, Except.mapError,
              walkView_concat, ← hpath, ← hbody]
            cases hk : n.kind <;> simp [Target.view, Node.bodyKind, hk]

theorem foldlM_stepTarget_walk (sc : Scope) (mods : List Module) (text place : Text) :
    ∀ (ps : List Text) {sofar : Option Target} {done : List (QName × Node)},
      sofar.map Target.view = walkView done →
      (ps.foldlM (fun sofar seg => some <$> stepTarget sc mods text place sofar seg) sofar).map
          (Option.map Target.view) =
        ((walkPieces sc mods (done.getLast?.map (·.2)) ps).mapError
          (Miss.error text sc.name place)).map fun found => walkView (done ++ found)
  | [], sofar, done, h => by
    simp [walkPieces, h, Except.map, Except.mapError, pure, Except.pure]
  | seg :: rest, sofar, done, h => by
    have hstep := stepTarget_walk sc mods text place seg h
    simp only [List.foldlM_cons, walkPieces]
    cases hf : findPiece sc mods (done.getLast?.map (·.2)) seg with
    | error miss =>
      cases hs : stepTarget sc mods text place sofar seg with
      | error e =>
        simp only [hf, hs, Except.map, Except.mapError, Except.error.injEq] at hstep
        simp [hstep, bind, Except.bind, Functor.map, Except.map, Except.mapError]
      | ok t => simp [hf, hs, Except.map, Except.mapError] at hstep
    | ok found =>
      cases hs : stepTarget sc mods text place sofar seg with
      | error e => simp [hf, hs, Except.map, Except.mapError] at hstep
      | ok t =>
        simp only [hf, hs, Except.map, Except.mapError, Except.ok.injEq] at hstep
        have hrest : ((rest.foldlM (fun sofar seg => some <$> stepTarget sc mods text place sofar seg)
            (some t)).map (Option.map Target.view)) = _ :=
          foldlM_stepTarget_walk sc mods text place rest (by simpa using hstep)
        simp only [List.getLast?_concat, Option.map_some] at hrest
        rw [show (some <$> (.ok t : Except LoadError Target)) = pure (some t) from rfl, pure_bind,
          hrest]
        cases hw : walkPieces sc mods (some found.2) rest <;>
          simp [hw, bind, Except.bind, Except.map, Except.mapError, pure, Except.pure]

/-- Resolving a target path walks its pieces: it fails as the walk stops, else gives their
names, the node of the last piece and the last body on the way. -/
theorem resolveTarget_view (sc : Scope) (mods : List Module) (text place : Text) :
    (resolveTarget sc mods text place).map Target.view = walkTarget sc mods text place := by
  have hfold := foldlM_stepTarget_walk sc mods text place (targetPieces text)
    (show (none : Option Target).map Target.view = walkView [] from rfl)
  simp only [List.getLast?_nil, Option.map_none, List.nil_append] at hfold
  unfold resolveTarget walkTarget
  rw [← targetPieces]
  cases hw : walkPieces sc mods none (targetPieces text) with
  | error miss =>
    cases hr : (targetPieces text).foldlM
        (fun sofar seg => some <$> stepTarget sc mods text place sofar seg) none with
    | error e =>
      simp only [hw, hr, Except.map, Except.mapError, Except.error.injEq] at hfold
      simp [hfold, bind, Except.bind, Except.map]
    | ok r => simp [hw, hr, Except.map, Except.mapError] at hfold
  | ok found =>
    cases hr : (targetPieces text).foldlM
        (fun sofar seg => some <$> stepTarget sc mods text place sofar seg) none with
    | error e => simp [hw, hr, Except.map, Except.mapError] at hfold
    | ok r =>
      simp only [hw, hr, Except.map, Except.mapError, Except.ok.injEq] at hfold
      cases r with
      | none =>
        simp [← hfold, bind, Except.bind, Except.map, throw, throwThe, MonadExceptOf.throw]
      | some t => simp [← hfold, bind, Except.bind, Except.map, pure, Except.pure]

section Exact

variable {named : QName → Prop} {mods : List Module}

-- modules that stand with names of modules of the list, no two module names sharing a namespace
variable (hst : ∀ m ∈ mods, m.Stands named)
  (hnamed : ∀ q, named q → ∃ m ∈ mods, m.name = q.module ∧ m.namespaceUri = q.namespaceUri)
  (hns : ∀ m ∈ mods, ∀ m' ∈ mods, m.namespaceUri = m'.namespaceUri → m.name = m'.name)

include hst hnamed hns in
/-- When no namespace has two module names, resolving a target path is the walk down its
pieces, with the node's own path as the target's names. -/
theorem resolveTarget_eq_walkTarget (sc : Scope) (text place : Text) :
    (resolveTarget sc mods text place).map (fun t => (t.node, t.path, t.body)) =
      (walkTarget sc mods text place).map fun v => (v.2.1, v.2.1.path, v.2.2) := by
  rw [← resolveTarget_view]
  cases h : resolveTarget sc mods text place with
  | error e => rfl
  | ok t => simp [Except.map, Target.view, resolveTarget_exact hst hnamed hns h]

end Exact

open AugmentChain in
/-- The target of module `c`'s augment in the loaded chain of modules. -/
theorem resolveTarget_eq_walkTarget_sample :
    (∀ m ∈ contextBC.modules,
        m.Stands fun q => (q.module, q.namespaceUri) ∈ namesOf contextBC.modules) ∧
      (∀ q : QName, (q.module, q.namespaceUri) ∈ namesOf contextBC.modules →
        ∃ m ∈ contextBC.modules, m.name = q.module ∧ m.namespaceUri = q.namespaceUri) ∧
      (∀ m ∈ contextBC.modules, ∀ m' ∈ contextBC.modules,
        m.namespaceUri = m'.namespaceUri → m.name = m'.name) ∧
      (resolveTarget (scopeC []) contextBC.modules "/a:x/b:c" "").map
          (fun t => (t.node, t.path, t.body)) =
        (walkTarget (scopeC []) contextBC.modules "/a:x/b:c" "").map
          fun v => (v.2.1, v.2.1.path, v.2.2) :=
  have hst := Context.stands_of_load load_docBC
  have hnamed : ∀ q : QName, (q.module, q.namespaceUri) ∈ namesOf contextBC.modules →
      ∃ m ∈ contextBC.modules, m.name = q.module ∧ m.namespaceUri = q.namespaceUri :=
    fun _ hq => exists_of_mem_namesOf hq
  have hns : ∀ m ∈ contextBC.modules, ∀ m' ∈ contextBC.modules,
      m.namespaceUri = m'.namespaceUri → m.name = m'.name := by
    decide
  ⟨hst, hnamed, hns, resolveTarget_eq_walkTarget hst hnamed hns (scopeC []) "/a:x/b:c" ""⟩

end YangDiagram.Schema
