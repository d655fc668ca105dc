-- Drawing modules one after another: each source adds its lines and its event on its own, so
-- drawing a list of sources is drawing their parts in turn, and so is the log they write.
import Mathlib
import YangDiagram.Diagram.Render

namespace YangDiagram.Diagram

open YangDiagram.Json YangDiagram.Schema

/-- What one source adds to a drawing: the lines `renderModule` draws and the event of drawing
its module, or no lines and the report that its module is not there. -/
def sourcePart (ctx : Context) (opts : Options) (src : Source) : Except Report.Failure Drawn :=
  match src.find ctx with
  | .ok m => (renderModule ctx src opts).map fun ls => ⟨ls, [.drawing m opts]⟩
  | .error (.report r) => .ok ⟨[], [.missing src r]⟩
  | .error (.typeError e) => .error (.typeError e)

def missingReport (ctx : Context) (src : Source) : Option Report.ErrorReport :=
  match src.find ctx with
  | .error (.report r) => some r
  | _ => none

theorem renderModule_of_check {opts : Options} {s : Settings} (hs : opts.check = .ok s)
    (ctx : Context) (src : Source) :
    renderModule ctx src opts = (src.find ctx).map fun m => diagramLines ctx ctx.schemaTree m s := by
  simp only [renderModule, hs, Except.mapError, bind, Except.bind, pure, Except.pure]
  cases src.find ctx <;> rfl

/-- A fold that adds one part per item, starting from some lines and events, gives them followed
by the parts of all items in order, or the first failure. -/
theorem foldlM_parts {α : Type} {f : Drawn → α → Except Report.Failure Drawn}
    {part : α → Except Report.Failure Drawn}
    (hf : ∀ d x, f d x = (part x).map fun p => ⟨d.lines ++ p.lines, d.events ++ p.events⟩) :
    ∀ (xs : List α) (d : Drawn), xs.foldlM f d = (xs.mapM part).map fun parts =>
      ⟨d.lines ++ parts.flatMap Drawn.lines, d.events ++ parts.flatMap Drawn.events⟩
  | [], d => by simp [pure, Except.pure, Except.map]
  | x :: xs, d => by
    rw [List.foldlM_cons, hf, List.mapM_cons]
    cases part x with
    | error e => rfl
    | ok p =>
      simp only [Except.map, bind, Except.bind, foldlM_parts hf xs]
      cases xs.mapM part <;> simp [pure, Except.pure]

/-- Drawing a list of sources: the options are checked, then come the legend when asked for and
the part of each source in order. -/
theorem renderTrees_eq_parts (ctx : Context) (sources : List Source) (opts : Options) :
    renderTrees ctx sources opts = (do
      let s ← (opts.check).mapError OptionError.failure
      let parts ← sources.mapM (sourcePart ctx opts)
      pure ⟨(if s.help then legendLines s else []) ++ parts.flatMap Drawn.lines,
        parts.flatMap Drawn.events⟩) := by
  unfold renderTrees
  cases hs : opts.check with
  | error e => rfl
  | ok s =>
    simp only [Except.mapError, bind, Except.bind]
    rw [@foldlM_parts _ _ (sourcePart ctx opts) ?_ sources]
    · cases sources.mapM (sourcePart ctx opts) <;> rfl
    · intro d src
      simp only [sourcePart, renderModule_of_check hs]
      split <;> rename_i h <;> simp [h, Except.map]

/-! ## Missing modules -/

theorem missing_mk (lines : List Text) (parts : List Drawn) :
    (⟨lines, parts.flatMap Drawn.events⟩ : Drawn).missing = parts.flatMap Drawn.missing := by
  rw [Drawn.missing, List.filterMap_flatMap]
  rfl

theorem missing_sourcePart {ctx : Context} {opts : Options} {src : Source} {p : Drawn}
    (h : sourcePart ctx opts src = .ok p) : p.missing = (missingReport ctx src).toList := by
  unfold sourcePart at h
  unfold missingReport
  split at h
  · rename_i m hm
    rw [hm]
    cases hr : renderModule ctx src opts with
    | error e => simp [hr, Except.map] at h
    | ok ls =>
      simp only [hr, Except.map, Except.ok.injEq] at h
      subst h
      rfl
  · rename_i r hr
    rw [hr]
    cases h
    rfl
  · cases h

theorem missing_parts {ctx : Context} {opts : Options} :
    ∀ {sources : List Source} {parts : List Drawn}, sources.mapM (sourcePart ctx opts) = .ok parts →
      parts.flatMap Drawn.missing = sources.filterMap (missingReport ctx)
  | [], parts, h => by
    simp only [List.mapM_nil, pure, Except.pure, Except.ok.injEq] at h
    subst h
    rfl
  | src :: sources, parts, h => by
    simp only [List.mapM_cons, bind, Except.bind] at h
    cases hp : sourcePart ctx opts src with
    | error e => simp [hp] at h
    | ok p =>
      cases hs : sources.mapM (sourcePart ctx opts) with
      | error e => simp [hp, hs] at h
      | ok ps =>
        simp only [hp, hs, pure, Except.pure, Except.ok.injEq] at h
        subst h
        rw [List.flatMap_cons, missing_sourcePart hp, missing_parts hs, List.filterMap_cons]
        cases missingReport ctx src <;> rfl

/-! ## The log -/

def Event.log (lg : Log.Logger) (reportedElsewhere : Bool) : Event → Except Text Text
  | .drawing m opts =>
    lg.line .debug ("rendering module " ++ m.name)
      (Report.facts [("revision", m.revision.map Value.str), ("depth", some opts.depth),
        ("lineLength", some opts.lineLength)])
  | .missing src r =>
    if reportedElsewhere then .ok ⟨[]⟩
    else lg.line .warn r.message (Report.facts [("module", src.name), ("revision", src.revision)])

theorem Drawn.log_eq (d : Drawn) (lg : Log.Logger) (reportedElsewhere : Bool) :
    d.log lg reportedElsewhere = (d.events.mapM (Event.log lg reportedElsewhere)).map Text.join :=
  rfl

/-- What the log says of one source: a debug line for the module it draws, or a warning for a
missing module unless missing modules are reported some other way. -/
def sourceLog (ctx : Context) (opts : Options) (lg : Log.Logger) (reportedElsewhere : Bool)
    (src : Source) : Except Text Text :=
  match src.find ctx with
  | .ok m =>
    lg.line .debug ("rendering module " ++ m.name)
      (Report.facts [("revision", m.revision.map Value.str), ("depth", some opts.depth),
        ("lineLength", some opts.lineLength)])
  | .error (.report r) =>
    if reportedElsewhere then .ok ⟨[]⟩
    else lg.line .warn r.message (Report.facts [("module", src.name), ("revision", src.revision)])
  | .error (.typeError _) => .ok ⟨[]⟩

theorem log_sourcePart {ctx : Context} {opts : Options} {src : Source} {p : Drawn}
    (h : sourcePart ctx opts src = .ok p) (lg : Log.Logger) (reportedElsewhere : Bool) :
    p.events.mapM (Event.log lg reportedElsewhere) =
      (sourceLog ctx opts lg reportedElsewhere src).map fun l => [l] := by
  unfold sourcePart at h
  unfold sourceLog
  split at h
  · cases hr : renderModule ctx src opts with
    | error e => simp [hr, Except.map] at h
    | ok ls =>
      simp only [hr, Except.map, Except.ok.injEq] at h
      subst h
      simp only [List.mapM_cons, List.mapM_nil, Event.log, bind, Except.bind, pure, Except.pure]
      cases lg.line _ _ _ <;> rfl
  · cases h
    cases reportedElsewhere
    · simp only [List.mapM_cons, List.mapM_nil, Event.log, Bool.false_eq_true, if_false, bind,
        Except.bind, pure, Except.pure]
      cases lg.line _ _ _ <;> rfl
    · rfl
  · cases h

theorem log_parts {ctx : Context} {opts : Options} (lg : Log.Logger) (reportedElsewhere : Bool) :
    ∀ {sources : List Source} {parts : List Drawn}, sources.mapM (sourcePart ctx opts) = .ok parts →
      (parts.flatMap Drawn.events).mapM (Event.log lg reportedElsewhere) =
        sources.mapM (sourceLog ctx opts lg reportedElsewhere)
  | [], parts, h => by
    simp only [List.mapM_nil, pure, Except.pure, Except.ok.injEq] at h
    subst h
    rfl
  | src :: sources, parts, h => by
    simp only [List.mapM_cons, bind, Except.bind] at h
    cases hp : sourcePart ctx opts src with
    | error e => simp [hp] at h
    | ok p =>
      cases hs : sources.mapM (sourcePart ctx opts) with
      | error e => simp [hp, hs] at h
      | ok ps =>
        simp only [hp, hs, pure, Except.pure, Except.ok.injEq] at h
        subst h
        rw [List.flatMap_cons, List.mapM_append, log_sourcePart hp, log_parts lg reportedElsewhere hs,
          List.mapM_cons]
        cases sourceLog ctx opts lg reportedElsewhere src <;>
          cases sources.mapM (sourceLog ctx opts lg reportedElsewhere) <;> rfl

/-- Drawing a list of sources is drawing each source's part in turn after the legend, whatever
the other sources are: the same lines, reports of missing modules and log lines. -/
theorem renderTrees_concat (ctx : Context) (S₁ S₂ : List Source) (opts : Options) :
    renderTrees ctx (S₁ ++ S₂) opts = (do
      let s ← (opts.check).mapError OptionError.failure
      let parts₁ ← S₁.mapM (sourcePart ctx opts)
      let parts₂ ← S₂.mapM (sourcePart ctx opts)
      pure ⟨(if s.help then legendLines s else []) ++ parts₁.flatMap Drawn.lines ++
          parts₂.flatMap Drawn.lines, parts₁.flatMap Drawn.events ++ parts₂.flatMap Drawn.events⟩) ∧
    (renderTrees ctx (S₁ ++ S₂) opts).map Drawn.missing =
      (renderTrees ctx (S₁ ++ S₂) opts).map (fun _ =>
        S₁.filterMap (missingReport ctx) ++ S₂.filterMap (missingReport ctx)) ∧
    ∀ lg reportedElsewhere, (renderTrees ctx (S₁ ++ S₂) opts).map (·.log lg reportedElsewhere) =
      (renderTrees ctx (S₁ ++ S₂) opts).map fun _ => (do
        let l₁ ← S₁.mapM (sourceLog ctx opts lg reportedElsewhere)
        let l₂ ← S₂.mapM (sourceLog ctx opts lg reportedElsewhere)
        pure (Text.join (l₁ ++ l₂))) := by
  refine ⟨?_, ?_, fun lg reportedElsewhere => ?_⟩
  · rw [renderTrees_eq_parts, List.mapM_append]
    cases (opts.check).mapError OptionError.failure with
    | error e => rfl
    | ok s =>
      simp only [bind, Except.bind]
      cases S₁.mapM (sourcePart ctx opts) with
      | error e => rfl
      | ok parts₁ =>
        cases S₂.mapM (sourcePart ctx opts) <;> simp [pure, Except.pure]
  · rw [renderTrees_eq_parts, ← List.filterMap_append]
    cases (opts.check).mapError OptionError.failure with
    | error e => rfl
    | ok s =>
      simp only [bind, Except.bind]
      cases hp : (S₁ ++ S₂).mapM (sourcePart ctx opts) with
      | error e => rfl
      | ok parts =>
        simp only [pure, Except.pure, Except.map, missing_mk, missing_parts hp]
  · rw [renderTrees_eq_parts]
    cases (opts.check).mapError OptionError.failure with
    | error e => rfl
    | ok s =>
      simp only [bind, Except.bind]
      cases hp : (S₁ ++ S₂).mapM (sourcePart ctx opts) with
      | error e => rfl
      | ok parts =>
        simp only [pure, Except.pure, Except.map, Drawn.log_eq, log_parts lg reportedElsewhere hp,
          List.mapM_append]
        cases S₁.mapM (sourceLog ctx opts lg reportedElsewhere) <;>
          cases S₂.mapM (sourceLog ctx opts lg reportedElsewhere) <;> rfl

end YangDiagram.Diagram
