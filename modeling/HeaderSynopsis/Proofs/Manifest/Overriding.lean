import HeaderSynopsis.Manifest.Rendering
import HeaderSynopsis.Proofs.Manifest.FirstFault
import HeaderSynopsis.Proofs.Output.Exclusion
import Mathlib.Data.Set.Operations

namespace HeaderSynopsis.Manifest

open Declaration Output

/-- What is asked for in the end. Where only membership matters there are sets. -/
structure Asked where
  format : Format
  indentation : Indentation
  omitted : Set Id
  declarations : Set Id
  omittedKinds : Set String

namespace Options

def mergeAll (options : Options) (changes : List Overrides) : Options :=
  changes.foldl merge options

/-- What options and changes ask for together: of formats and indentations the last one given, and
of everything else all that was ever named. -/
def asked (options : Options) (changes : List Overrides) : Asked where
  format := (changes.filterMap Overrides.format).getLast?.getD options.format
  indentation := (changes.filterMap Overrides.indentation).getLast?.getD options.indentation
  omitted := {id | id ∈ options.omitted ∨ ∃ change ∈ changes, id ∈ change.omitted}
  declarations := {id | id ∈ options.declarations ∨ ∃ change ∈ changes, id ∈ change.declarations}
  omittedKinds :=
    {word | word ∈ options.omittedKinds ∨ ∃ change ∈ changes, word ∈ change.omittedKinds}

/-- The first change is overruled by all later ones. -/
theorem getLast?_filterMap_cons {α : Type} (f : Overrides → Option α) (change : Overrides)
    (rest : List Overrides) (before : α) :
    ((change :: rest).filterMap f).getLast?.getD before =
      (rest.filterMap f).getLast?.getD ((f change).getD before) := by
  cases hf : f change with
  | none => rw [List.filterMap_cons_none hf, Option.getD_none]
  | some value => rw [List.filterMap_cons_some hf, List.getLast?_cons, Option.getD_some,
      Option.getD_some]

/-- What one more change names is named by the options with the change laid over them. -/
theorem mem_append_or_exists {α : Type} (f : Overrides → List α) (change : Overrides)
    (rest : List Overrides) (named : List α) (a : α) :
    (a ∈ named ++ f change ∨ ∃ c ∈ rest, a ∈ f c) ↔
      (a ∈ named ∨ ∃ c ∈ change :: rest, a ∈ f c) := by
  simp only [List.mem_append, List.mem_cons, exists_eq_or_imp, or_assoc]

/-- Laying the first change over the options does not alter what is asked for. -/
theorem asked_cons (options : Options) (change : Overrides) (rest : List Overrides) :
    options.asked (change :: rest) = (options.merge change).asked rest := by
  unfold asked
  congr 1
  · exact getLast?_filterMap_cons Overrides.format change rest options.format
  · exact getLast?_filterMap_cons Overrides.indentation change rest options.indentation
  · ext id
    exact (mem_append_or_exists Overrides.omitted change rest options.omitted id).symm
  · ext id
    exact (mem_append_or_exists Overrides.declarations change rest options.declarations id).symm
  · ext word
    exact (mem_append_or_exists Overrides.omittedKinds change rest options.omittedKinds word).symm

/-- With all changes laid over them, options ask for what they and the changes asked for. -/
theorem asked_mergeAll (options : Options) (changes : List Overrides) :
    (options.mergeAll changes).asked [] = options.asked changes := by
  induction changes generalizing options with
  | nil => rfl
  | cons change rest ih =>
    rw [asked_cons, ← ih]
    rfl

variable {options other : Options}

theorem mem_omittedKinds_mergeAll {changes : List Overrides} {word : String} :
    word ∈ (options.mergeAll changes).omittedKinds ↔
      word ∈ options.omittedKinds ∨ ∃ change ∈ changes, word ∈ change.omittedKinds := by
  have h := congrArg (word ∈ Asked.omittedKinds ·) (options.asked_mergeAll changes)
  simpa [asked] using h

/-- Options that ask for the same allow the same of every entity. -/
theorem limit_congr_of_asked (h : options.asked [] = other.asked []) (entity : Entity) :
    options.selection.limit entity = other.selection.limit entity := by
  have homitted := congrArg (entity.id ∈ Asked.omitted ·) h
  have hdeclarations := congrArg (entity.id ∈ Asked.declarations ·) h
  have hkinds := congrArg (entity.kind.word ∈ Asked.omittedKinds ·) h
  simp only [asked, List.not_mem_nil, false_and, exists_false, or_false, Set.mem_ofPred_eq]
    at homitted hdeclarations hkinds
  apply Selection.limit_congr
  · exact iff_of_eq homitted
  · exact iff_of_eq hdeclarations
  · exact iff_of_eq hkinds

/-- Options that ask for the same give the same document. -/
theorem renderEntity_congr (h : options.asked [] = other.asked []) (entity : Entity) :
    options.renderEntity entity = other.renderEntity entity := by
  have hformat : options.format = other.format := congrArg Asked.format h
  have hindentation : options.indentation = other.indentation := congrArg Asked.indentation h
  have hlimit : ∀ e ∈ entity.walk, options.selection.limit e = other.selection.limit e :=
    fun e _ => limit_congr_of_asked h e
  unfold renderEntity renderText renderHtml
  rw [hformat, hindentation]
  simp only [Selection.generate_narrow_congr hlimit]

/-- Options that ask for the same name unknown kinds both or neither. -/
theorem unknownKind?_congr (h : options.asked [] = other.asked []) :
    options.unknownKind? = none ↔ other.unknownKind? = none := by
  have hkinds (word : String) : word ∈ options.omittedKinds ↔ word ∈ other.omittedKinds := by
    have hword := congrArg (word ∈ Asked.omittedKinds ·) h
    simpa [asked] using hword
  rw [unknownKind?_eq_none_iff, unknownKind?_eq_none_iff]
  simp only [hkinds]

end Options

namespace Loaded

theorem render_eq_error_iff {manifest : Loaded} {options : Options} :
    (∃ message, manifest.render options = .error message) ↔
      ∃ word ∈ options.omittedKinds, word ∉ EntityKind.words := by
  have hknown := @Options.unknownKind?_eq_none_iff options
  unfold render
  cases hkind : options.unknownKind? with
  | some word =>
    obtain ⟨known, rest, hwords, -, hunknown⟩ := Options.unknownKind?_eq_some_iff.mp hkind
    apply iff_of_true
    · exact ⟨unknownKindText word, rfl⟩
    · refine ⟨word, ?_, hunknown⟩
      rw [hwords]
      exact List.mem_append_right known List.mem_cons_self
  | none =>
    apply iff_of_false
    · rintro ⟨message, h⟩
      cases h
    · rintro ⟨word, hword, hunknown⟩
      exact hunknown (hknown.mp hkind word hword)

/-- Two manifests with one file are rendered alike if the same is asked for, or both are not. -/
theorem render_congr {manifest other : Loaded} {options changed : Options}
    (hfile : other.file = manifest.file) (h : changed.asked [] = options.asked []) :
    (other.render changed).toOption = (manifest.render options).toOption := by
  have hknown := Options.unknownKind?_congr h
  unfold render
  cases hchanged : changed.unknownKind? with
  | some word =>
    cases hoptions : options.unknownKind? with
    | some _ => rfl
    | none => exact absurd (hknown.mpr hoptions) (hchanged ▸ Option.some_ne_none word)
  | none =>
    rw [hknown.mp hchanged, hfile, Options.renderEntity_congr h]

variable {source : Source} {manifest : Loaded}

/-- The options of a manifest that loads name known kinds only. -/
theorem mem_words_of_omittedKinds (h : ofSource source = .ok manifest) :
    ∀ word ∈ manifest.options.omittedKinds, word ∈ EntityKind.words := by
  obtain ⟨document, -, hdocument⟩ := ofSource_eq_ok_iff.mp h
  obtain ⟨hkinds, tree, declared, -, rfl⟩ := ofDocument_eq_ok_iff.mp hdocument
  exact Options.unknownKind?_eq_none_iff.mp hkinds

/-- A manifest that loads is rendered unless one of the changes laid over its options names an
unknown kind. The result depends on the file and on what is asked for in the end only, whatever the
changes that ask for it. -/
theorem render_depends_on_asked (h : ofSource source = .ok manifest) (changes : List Overrides) :
    ((∃ message, manifest.render (manifest.options.mergeAll changes) = .error message) ↔
      ∃ change ∈ changes, ∃ word ∈ change.omittedKinds, word ∉ EntityKind.words) ∧
    (∃ text, manifest.render manifest.options = .ok text) ∧
    ∀ (other : Loaded) (otherChanges : List Overrides), other.file = manifest.file →
      other.options.asked otherChanges = manifest.options.asked changes →
      (other.render (other.options.mergeAll otherChanges)).toOption =
        (manifest.render (manifest.options.mergeAll changes)).toOption := by
  have hown := mem_words_of_omittedKinds h
  refine ⟨?_, ?_, ?_⟩
  · rw [render_eq_error_iff]
    constructor
    · rintro ⟨word, hword, hunknown⟩
      rcases Options.mem_omittedKinds_mergeAll.mp hword with hmanifest | ⟨change, hchange, hnamed⟩
      · exact absurd (hown word hmanifest) hunknown
      · exact ⟨change, hchange, word, hnamed, hunknown⟩
    · rintro ⟨change, hchange, word, hnamed, hunknown⟩
      exact ⟨word, Options.mem_omittedKinds_mergeAll.mpr (.inr ⟨change, hchange, hnamed⟩), hunknown⟩
  · cases hresult : manifest.render manifest.options with
    | ok text => exact ⟨text, rfl⟩
    | error message =>
      obtain ⟨word, hword, hunknown⟩ := render_eq_error_iff.mp ⟨message, hresult⟩
      exact absurd (hown word hword) hunknown
  · intro other otherChanges hfile hasked
    apply render_congr hfile
    rw [Options.asked_mergeAll, Options.asked_mergeAll, hasked]

-- Two ways to ask for a narrow declaration of a class.

def smallSteps : List Overrides :=
  [{ indentation := some .tab, declarations := [⟨"board::clear"⟩] },
    { omittedKinds := ["access"] },
    { indentation := some (.spaces 2) }]

def oneStep : List Overrides :=
  [{ indentation := some (.spaces 2), omittedKinds := ["access", "access"],
     declarations := [⟨"board::clear"⟩, ⟨"board::clear"⟩] }]

theorem asked_smallSteps : board.options.asked smallSteps = board.options.asked oneStep := by
  unfold Options.asked
  congr 1
  · ext id
    simp [smallSteps, oneStep]
  · ext id
    simp [smallSteps, oneStep]
  · ext word
    simp [smallSteps, oneStep]

theorem render_depends_on_asked_board :
    ofSource boardSource = .ok board ∧
      (board.render (board.options.mergeAll smallSteps)).toOption =
        some "class board \x7b\n  clear();\n\x7d;\n" ∧
      (board.render (board.options.mergeAll smallSteps)).toOption =
        (board.render (board.options.mergeAll oneStep)).toOption := by
  obtain ⟨-, -, hsame⟩ := render_depends_on_asked ofSource_boardSource oneStep
  refine ⟨ofSource_boardSource, by decide, ?_⟩
  exact hsame board smallSteps rfl asked_smallSteps

end Loaded

end HeaderSynopsis.Manifest
