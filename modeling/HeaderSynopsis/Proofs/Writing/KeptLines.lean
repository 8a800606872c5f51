import HeaderSynopsis.Proofs.Generation.Invariants
import HeaderSynopsis.Proofs.Writing.Scopes

namespace HeaderSynopsis.Writing

open Declaration Text Generation

def Write.KeepsLine (w : Write) : Prop := w = .lineBreak ∨ OneLine w.text

theorem keepsLine_of_flat {ws : List Write} (h : Flat ws) : ∀ w ∈ ws, w.KeepsLine := by
  intro w hw
  have hflat : w.isFlat = true := List.all_eq_true.mp h w hw
  cases w with
  | token kind text => exact Or.inr (of_decide_eq_true hflat)
  | reference targets name => exact Or.inr (of_decide_eq_true hflat)
  | space => exact Or.inr (by decide)
  | lineBreak => exact Or.inl rfl
  | indent => exact absurd hflat (by decide)
  | unindent => exact absurd hflat (by decide)

instance (w : Write) : Decidable w.KeepsLine := inferInstanceAs (Decidable (_ ∨ _))

theorem keepsLine_openBrace : ∀ w ∈ Entity.openBrace, w.KeepsLine := by decide

variable {entity : Entity}

theorem keepsLine_head (h : ∀ t ∈ entity.texts, OneLine t) : ∀ w ∈ entity.head, w.KeepsLine := by
  by_cases ha : entity.kind.word = "access"
  · rw [Entity.texts, List.forall_mem_cons, List.forall_mem_append] at h
    have htemplate : Flat ((entity.template.map TemplateHead.writes).getD []) :=
      .optional h.2.1 flat_templateHead
    have hlabel : ∀ w ∈ entity.signature, w.KeepsLine := by
      obtain ⟨_, _, kind, _, _, _⟩ := entity
      cases kind with
      | accessLabel access =>
        have hwords : ∀ w ∈ [.unindent, .keyword access.word, .punctuation ":"],
            Write.KeepsLine w := by
          cases access <;> decide
        exact hwords
      | _ => exact absurd ha (by simp [EntityKind.word])
    exact List.forall_mem_append.mpr ⟨keepsLine_of_flat htemplate, hlabel⟩
  · exact keepsLine_of_flat (flat_head ha h)

theorem keepsLine_opening (h : ∀ t ∈ entity.texts, OneLine t) :
    ∀ w ∈ entity.opening, w.KeepsLine := by
  have hbefore := keepsLine_of_flat (flat_beforeBrace h)
  obtain ⟨_, _, kind, _, _, _⟩ := entity
  cases kind with
  | namespaceScope isInline => exact keepsLine_openBrace
  | enumeration isScoped underlying forward => exact keepsLine_openBrace
  | classType keyword isFinal bases forward =>
    exact List.forall_mem_append.mpr ⟨hbefore, keepsLine_openBrace⟩
  | functionDecl function =>
    have hlines := flat_statementWrites function.body.lines
    unfold Entity.opening
    dsimp only
    split
    · decide
    · exact List.forall_mem_append.mpr ⟨keepsLine_openBrace, keepsLine_of_flat hlines⟩
  | _ => exact fun w hw => absurd hw List.not_mem_nil

theorem keepsLine_closing (entity : Entity) : ∀ w ∈ entity.closing, w.KeepsLine := by
  have hunindent : ∀ w ∈ [Write.unindent], w.KeepsLine := by decide
  have hbrace : ∀ w ∈ [Write.punctuation "\x7d"], w.KeepsLine := by decide
  have hmark : ∀ w ∈ [Write.punctuation "\x7d", .punctuation ";"], w.KeepsLine := by decide
  obtain ⟨_, _, kind, _, _, _⟩ := entity
  cases kind with
  | namespaceScope isInline => exact List.forall_mem_append.mpr ⟨hunindent, hbrace⟩
  | classType keyword isFinal bases forward => exact List.forall_mem_append.mpr ⟨hunindent, hmark⟩
  | enumeration isScoped underlying forward => exact List.forall_mem_append.mpr ⟨hunindent, hmark⟩
  | functionDecl function =>
    refine List.forall_mem_append.mpr ⟨?_, hbrace⟩
    split
    · exact fun w hw => absurd hw List.not_mem_nil
    · exact hunindent
  | _ => exact fun w hw => absurd hw List.not_mem_nil

theorem keepsLine_declarationEnd (entity : Entity) :
    ∀ w ∈ entity.declarationEnd, w.KeepsLine := by
  by_cases ha : entity.kind.word = "access"
  · have hindent : ∀ w ∈ [Write.indent], w.KeepsLine := by decide
    obtain ⟨_, _, kind, _, _, _⟩ := entity
    cases kind with
    | accessLabel access => exact hindent
    | _ => exact absurd ha (by simp [EntityKind.word])
  · exact keepsLine_of_flat (flat_declarationEnd ha)

theorem keepsLine_ownWrites (h : ∀ t ∈ entity.texts, OneLine t) :
    ∀ w ∈ ownWrites entity, w.KeepsLine := by
  simp only [ownWrites, List.forall_mem_append]
  exact ⟨⟨⟨⟨keepsLine_head h, keepsLine_opening h⟩, keepsLine_closing entity⟩,
    keepsLine_declarationEnd entity⟩, keepsLine_of_flat (flat_lineEnd entity)⟩

/-- Whatever is decided about a tree, all line feeds are steps of their own if no text in the tree
has any. -/
theorem keepsLine_written {decide : Entity → Detail}
    (h : ∀ e ∈ entity.walk, ∀ t ∈ e.texts, OneLine t) :
    ∀ w ∈ written decide entity, w.KeepsLine := by
  intro w hw
  obtain ⟨e, he, hown⟩ := exists_ownWrites_of_mem_written hw
  exact keepsLine_ownWrites (h e he) w hown

/-- The names of some entities are never written. -/
theorem ownWrites_of_isAnonymous (ha : entity.kind.isAnonymous = true) (name : String) :
    ownWrites { entity with name } = ownWrites entity := by
  obtain ⟨_, _, kind, _, _, _⟩ := entity
  cases kind with
  | file | inclusion | accessLabel | usingDirective | usingDeclaration => rfl
  | _ => exact absurd ha Bool.false_ne_true

end HeaderSynopsis.Writing
