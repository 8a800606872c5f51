import HeaderSynopsis.Output.Render
import HeaderSynopsis.Proofs.Generation.Trace
import HeaderSynopsis.Proofs.Generation.Unfolding

namespace HeaderSynopsis.Output

open Declaration Writing Generation

/-- A selection looks at nothing of an entity but its identity and its kind. -/
theorem Selection.limit_congr {selection other : Selection} {entity : Entity}
    (ho : entity.id ∈ selection.omitted ↔ entity.id ∈ other.omitted)
    (hd : entity.id ∈ selection.declarations ↔ entity.id ∈ other.declarations)
    (hk : entity.kind.word ∈ selection.omittedKinds ↔ entity.kind.word ∈ other.omittedKinds) :
    selection.limit entity = other.limit entity :=
  ite_congr (propext (or_congr ho hk)) (fun _ => rfl) fun _ =>
    ite_congr (propext hd) (fun _ => rfl) fun _ => rfl

namespace Selection

section

variable {σ : Type} {selection other : Selection} {entity : Entity}

/-- A generator is not asked about what is omitted. -/
theorem enter_narrow_of_omitted (g : Generator σ) (h : selection.limit entity = .omitted)
    (container : Bool) (s : σ) :
    (selection.narrow g).enter container entity s = (some .omitted, s) := by
  dsimp only [narrow]
  rw [h]

/-- What it decides about anything else is narrowed. -/
theorem enter_narrow_of_ne (g : Generator σ) (h : selection.limit entity ≠ .omitted)
    (container : Bool) (s : σ) :
    (selection.narrow g).enter container entity s =
      ((g.enter container entity s).1.map (·.min (selection.limit entity)),
        (g.enter container entity s).2) := by
  dsimp only [narrow]
  cases hl : selection.limit entity with
  | omitted => exact absurd hl h
  | declaration => rfl
  | definition => rfl

/-- Two selections that allow the same of every entity of a tree narrow a generator down to the
same. -/
theorem generate_narrow_congr (h : ∀ e ∈ entity.walk, selection.limit e = other.limit e)
    (g : Generator σ) :
    generate (selection.narrow g) entity = generate (other.narrow g) entity := by
  refine generate_congr (fun e he container s => ?_) rfl rfl
  dsimp only [narrow]
  rw [h e he]

end

/-- A generator that wants everything leaves the decisions to the selection. -/
theorem narrow_decides {σ : Type} {g : Generator σ} (selection : Selection)
    (hg : g.Decides fun _ => .definition) : (selection.narrow g).Decides selection.limit := by
  intro container entity s
  by_cases hl : selection.limit entity = .omitted
  · rw [enter_narrow_of_omitted g hl, hl]
  · rw [enter_narrow_of_ne g hl, hg container entity s, Option.map_some, Detail.min_comm,
      Detail.min_definition]

end Selection

theorem Layout.generator_decides (indentation : Indentation) :
    (Layout.generator indentation).Decides fun _ => .definition := fun _ _ _ => rfl

theorem Markup.generator_decides (indentation : Indentation) :
    (Markup.generator indentation).Decides fun _ => .definition := fun _ _ _ => rfl

/-- Whatever is shown to it, text consists of what is written. -/
theorem narrow_layout_attendAll (indentation : Indentation) (selection : Selection)
    (shown : List Showing) (l : Layout) :
    (selection.narrow (Layout.generator indentation)).attendAll shown l =
      (Layout.generator indentation).writeAll (writesOf shown) l := by
  refine Generator.attendAll_eq_writeAll _ (fun container entity s => ?_) (fun _ _ => rfl) shown l
  dsimp only [Selection.narrow]
  cases selection.limit entity <;> rfl

theorem renderText_eq (indentation : Indentation) (selection : Selection) (entity : Entity) :
    renderText indentation selection entity =
      ((Layout.generator indentation).writeAll (written selection.limit entity) {}).text := by
  have hg := selection.narrow_decides (Layout.generator_decides indentation)
  rw [renderText, hg.generate_eq, narrow_layout_attendAll, written]

theorem renderHtml_eq (indentation : Indentation) (selection : Selection) (entity : Entity) :
    renderHtml indentation selection entity =
      ((selection.narrow (Markup.generator indentation)).attendAll
        (showings selection.limit entity) {}).finish := by
  have hg := selection.narrow_decides (Markup.generator_decides indentation)
  rw [renderHtml, hg.generate_eq]

end HeaderSynopsis.Output
