-- The line length only cuts: nothing before the final cut reads it, so drawing with a shorter
-- length gives the lines drawn with a longer one, each cut to the shorter length.
import Mathlib
import YangDiagram.Diagram.Render
import YangDiagram.Proofs.Diagram.Budget

namespace YangDiagram.Diagram

open YangDiagram.Schema YangDiagram.Json

theorem Text.clip_clip {w₁ w₂ : Nat} (h : w₁ ≤ w₂) (t : Text) :
    Text.clip w₁ (Text.clip w₂ t) = Text.clip w₁ t := by
  simp only [Text.clip, List.take_take, Nat.min_eq_left h]

theorem Text.width_clip_le (w : Nat) (t : Text) : (Text.clip w t).width ≤ w := by
  simp only [Text.clip, Text.width, List.length_take]
  omega

/-- Settings that draw alike: the same depth budget, legend choice and prefix choices. They may
differ in the line length. -/
structure Settings.DrawAlike (s₁ s₂ : Settings) : Prop where
  budget : s₁.budget = s₂.budget
  help : s₁.help = s₂.help
  byModuleName : s₁.byModuleName = s₂.byModuleName
  prefixOwn : s₁.prefixOwn = s₂.prefixOwn

/-- Options that differ in the line length only are checked into settings that draw alike. -/
theorem check_lineLength {o : Options} {L₁ L₂ : Value} {s₁ s₂ : Settings}
    (h₁ : { o with lineLength := L₁ }.check = .ok s₁)
    (h₂ : { o with lineLength := L₂ }.check = .ok s₂) : s₁.DrawAlike s₂ := by
  unfold Options.check at h₁ h₂
  split at h₁
  · cases h₁
  · rename_i d hd
    split at h₁
    · cases h₁
    · cases h₁
      simp only [hd] at h₂
      split at h₂
      · cases h₂
      · cases h₂
        exact ⟨rfl, rfl, rfl, rfl⟩

/-- The lines of a diagram, before they are cut, do not depend on the line length. -/
theorem moduleLines_congr (ctx : Context) (tree : SchemaTree) (m : Module) {s₁ s₂ : Settings}
    (h : s₁.DrawAlike s₂) : moduleLines ctx tree m s₁ = moduleLines ctx tree m s₂ := by
  unfold moduleLines
  rw [h.budget, h.byModuleName, h.prefixOwn]

section Cut

variable {s₁ s₂ : Settings}

theorem diagramLines_clip (ctx : Context) (tree : SchemaTree) (m : Module) (h : s₁.DrawAlike s₂)
    (hle : s₁.width ≤ s₂.width) :
    diagramLines ctx tree m s₁ = (diagramLines ctx tree m s₂).map (Text.clip s₁.width) := by
  simp only [diagramLines, List.map_map, moduleLines_congr ctx tree m h]
  exact List.map_congr_left fun l _ => (Text.clip_clip hle l.text).symm

theorem legendLines_clip (hle : s₁.width ≤ s₂.width) :
    legendLines s₁ = (legendLines s₂).map (Text.clip s₁.width) := by
  simp only [legendLines, List.map_map]
  exact List.map_congr_left fun l _ => (Text.clip_clip hle _).symm

/-- Two runs of a fold agree in a view when each step takes states of one view to results of
one view: the same error, or states of one view again. -/
theorem foldlM_map_eq {α β₁ β₂ γ ε : Type} {f₁ : β₁ → α → Except ε β₁}
    {f₂ : β₂ → α → Except ε β₂} (v₁ : β₁ → γ) (v₂ : β₂ → γ)
    (hstep : ∀ b₁ b₂ x, v₁ b₁ = v₂ b₂ → (f₁ b₁ x).map v₁ = (f₂ b₂ x).map v₂) (xs : List α) :
    ∀ {b₁ : β₁} {b₂ : β₂}, v₁ b₁ = v₂ b₂ → (xs.foldlM f₁ b₁).map v₁ = (xs.foldlM f₂ b₂).map v₂ := by
  induction xs with
  | nil =>
    intro b₁ b₂ h
    simp [Except.map, pure, Except.pure, h]
  | cons x xs ih =>
    intro b₁ b₂ h
    have hx := hstep b₁ b₂ x h
    simp only [List.foldlM_cons, bind, Except.bind]
    cases h₁ : f₁ b₁ x with
    | error e =>
      cases h₂ : f₂ b₂ x with
      | error e' =>
        rw [h₁, h₂] at hx
        simpa [Except.map] using hx
      | ok c₂ =>
        rw [h₁, h₂] at hx
        simp [Except.map] at hx
    | ok c₁ =>
      cases h₂ : f₂ b₂ x with
      | error e' =>
        rw [h₁, h₂] at hx
        simp [Except.map] at hx
      | ok c₂ =>
        rw [h₁, h₂] at hx
        simp only [Except.map, Except.ok.injEq] at hx
        exact ih hx

theorem renderTrees_clip (ctx : Context) (srcs : List Source) (o : Options) {L₁ L₂ : Value}
    (h₁ : { o with lineLength := L₁ }.check = .ok s₁)
    (h₂ : { o with lineLength := L₂ }.check = .ok s₂) (hle : s₁.width ≤ s₂.width) :
    (renderTrees ctx srcs { o with lineLength := L₁ }).map Drawn.lines =
      (renderTrees ctx srcs { o with lineLength := L₂ }).map
        fun d => d.lines.map (Text.clip s₁.width) := by
  have hd := check_lineLength h₁ h₂
  simp only [renderTrees, h₁, h₂, Except.mapError, bind, Except.bind]
  refine foldlM_map_eq _ _ (fun d₁ d₂ src hlines => ?_) srcs ?_
  · cases src.find ctx with
    | ok m => simp [Except.map, hlines, diagramLines_clip ctx ctx.schemaTree m hd hle]
    | error f => cases f <;> simp [Except.map, hlines]
  · simp only [hd.help]
    split
    · exact legendLines_clip hle
    · rfl

theorem renderModule_clip (ctx : Context) (src : Source) (o : Options) {L₁ L₂ : Value}
    (h₁ : { o with lineLength := L₁ }.check = .ok s₁)
    (h₂ : { o with lineLength := L₂ }.check = .ok s₂) (hle : s₁.width ≤ s₂.width) :
    renderModule ctx src { o with lineLength := L₁ } =
      (renderModule ctx src { o with lineLength := L₂ }).map (List.map (Text.clip s₁.width)) := by
  have hd := check_lineLength h₁ h₂
  simp only [renderModule, h₁, h₂, Except.mapError, bind, Except.bind]
  cases src.find ctx with
  | ok m => simp [Except.map, pure, Except.pure, diagramLines_clip ctx ctx.schemaTree m hd hle]
  | error f => rfl

end Cut

/-- Truncation only clips: with widths `s₁.width ≤ s₂.width` and every other option alike, the
lines drawn are those drawn with `s₂`, each cut to `s₁.width`. -/
theorem line_length_only_clips {o : Options} {L₁ L₂ : Value} {s₁ s₂ : Settings}
    (h₁ : { o with lineLength := L₁ }.check = .ok s₁)
    (h₂ : { o with lineLength := L₂ }.check = .ok s₂) (hle : s₁.width ≤ s₂.width) :
    (∀ ctx srcs, (renderTrees ctx srcs { o with lineLength := L₁ }).map Drawn.lines =
        (renderTrees ctx srcs { o with lineLength := L₂ }).map
          fun d => d.lines.map (Text.clip s₁.width)) ∧
      (∀ ctx src, renderModule ctx src { o with lineLength := L₁ } =
        (renderModule ctx src { o with lineLength := L₂ }).map (List.map (Text.clip s₁.width))) ∧
      legendLines s₁ = (legendLines s₂).map (Text.clip s₁.width) ∧
      (∀ ctx srcs (d : Drawn), renderTrees ctx srcs { o with lineLength := L₁ } = .ok d →
        ∀ l ∈ d.lines, l.width ≤ s₁.width) := by
  refine ⟨fun ctx srcs => renderTrees_clip ctx srcs o h₁ h₂ hle,
    fun ctx src => renderModule_clip ctx src o h₁ h₂ hle, legendLines_clip hle,
    fun ctx srcs d hd l hl => ?_⟩
  have h := renderTrees_clip ctx srcs o h₁ h₁ (Nat.le_refl _)
  rw [hd] at h
  simp only [Except.map, Except.ok.injEq] at h
  rw [h] at hl
  obtain ⟨l', -, rfl⟩ := List.mem_map.mp hl
  exact Text.width_clip_le _ _

theorem check_lineLength_five : ({ ({} : Options) with lineLength := .num 5 }).check =
    .ok ⟨{ lineLength := .num 5 }, unbounded, 5⟩ := by
  have hwhole₀ : isWhole 0 = true := by decide +kernel
  have hnonneg₀ : ¬ ((0 : Float) < 0) := by decide +kernel
  have hzero : ((0 : Float) == 0) = true := by decide +kernel
  have hwhole₅ : isWhole 5 = true := by decide +kernel
  have hnonneg₅ : ¬ ((5 : Float) < 0) := by decide +kernel
  have hfive : ((5 : Float) == 0) = false := by decide +kernel
  simp [Options.check, count?, effective, hwhole₀, hnonneg₀, hzero, hwhole₅, hnonneg₅, hfive]

/-- Lines cut to 5 code units are the lines drawn with the zero length, which keeps 10000, cut
to 5. -/
theorem line_length_only_clips_five :
    ({ ({} : Options) with lineLength := .num 5 }).check =
        .ok ⟨{ lineLength := .num 5 }, unbounded, 5⟩ ∧
      ({ ({} : Options) with lineLength := .num 0 }).check = .ok ⟨{}, unbounded, unbounded⟩ ∧
      (⟨{ lineLength := .num 5 }, unbounded, 5⟩ : Settings).width ≤
        (⟨{}, unbounded, unbounded⟩ : Settings).width ∧
      (∀ ctx srcs, (renderTrees ctx srcs { ({} : Options) with lineLength := .num 5 }).map
          Drawn.lines =
        (renderTrees ctx srcs { ({} : Options) with lineLength := .num 0 }).map
          fun d => d.lines.map
            (Text.clip (⟨{ lineLength := .num 5 }, unbounded, 5⟩ : Settings).width)) ∧
        (∀ ctx src, renderModule ctx src { ({} : Options) with lineLength := .num 5 } =
          (renderModule ctx src { ({} : Options) with lineLength := .num 0 }).map
            (List.map (Text.clip (⟨{ lineLength := .num 5 }, unbounded, 5⟩ : Settings).width))) ∧
        legendLines ⟨{ lineLength := .num 5 }, unbounded, 5⟩ =
          (legendLines ⟨{}, unbounded, unbounded⟩).map
            (Text.clip (⟨{ lineLength := .num 5 }, unbounded, 5⟩ : Settings).width) ∧
        (∀ ctx srcs (d : Drawn),
          renderTrees ctx srcs { ({} : Options) with lineLength := .num 5 } = .ok d →
            ∀ l ∈ d.lines, l.width ≤ (⟨{ lineLength := .num 5 }, unbounded, 5⟩ : Settings).width) := by
  have hfive : wholePart? 5 = some 5 := by decide +kernel
  have hunbounded : wholePart? unbounded = some 10000 := by decide +kernel
  have hle : (⟨{ lineLength := .num 5 }, unbounded, 5⟩ : Settings).width ≤
      (⟨{}, unbounded, unbounded⟩ : Settings).width := by
    simp [Settings.width, countNat, hfive, hunbounded]
  exact ⟨check_lineLength_five, Options.check_default, hle,
    line_length_only_clips check_lineLength_five Options.check_default hle⟩

end YangDiagram.Diagram
