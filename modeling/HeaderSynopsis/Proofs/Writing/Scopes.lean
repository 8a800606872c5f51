import HeaderSynopsis.Proofs.Generation.Trace
import HeaderSynopsis.Proofs.Writing.FlatWrites

namespace HeaderSynopsis.Declaration.Entity

open Writing

def IsScope (entity : Entity) : Prop :=
  entity.kind.word ∈ ["namespace", "class", "enum"] ∧ entity.isContainer = true

instance (entity : Entity) : Decidable entity.IsScope := inferInstanceAs (Decidable (_ ∧ _))

def beforeBrace (entity : Entity) : List Write :=
  match entity.kind with
  | .classType _ isFinal bases _ => trailingWords [(isFinal, "final")] ++ baseWrites bases
  | _ => []

def heading (entity : Entity) : List Write := entity.head ++ entity.beforeBrace

theorem lineEnd_eq {entity : Entity} (hf : entity.kind.word ≠ "file") :
    entity.lineEnd = [.lineBreak] := by
  obtain ⟨_, _, kind, _, _, _⟩ := entity
  cases kind with
  | file => exact absurd rfl hf
  | _ => rfl

def closingMark (entity : Entity) : List Write :=
  if entity.kind.word = "namespace" then [] else [.punctuation ";"]

theorem opening_of_isScope {entity : Entity} (hs : entity.IsScope) :
    entity.opening = entity.beforeBrace ++ openBrace := by
  obtain ⟨_, _, kind, _, _, _⟩ := entity
  cases kind with
  | namespaceScope => rfl
  | enumeration => rfl
  | classType => rfl
  | _ => exact absurd hs.1 (by simp [EntityKind.word])

theorem closing_of_isScope {entity : Entity} (hs : entity.IsScope) :
    entity.closing = [.unindent, .punctuation "\x7d"] ++ entity.closingMark := by
  obtain ⟨_, _, kind, _, _, _⟩ := entity
  cases kind with
  | namespaceScope => rfl
  | enumeration => rfl
  | classType => rfl
  | _ => exact absurd hs.1 (by simp [EntityKind.word])

theorem IsScope.ne_access {entity : Entity} (hs : entity.IsScope) :
    entity.kind.word ≠ "access" := by
  intro ha
  have hw := hs.1
  rw [ha] at hw
  exact absurd hw (by decide)

theorem IsScope.ne_file {entity : Entity} (hs : entity.IsScope) : entity.kind.word ≠ "file" := by
  intro hf
  have hw := hs.1
  rw [hf] at hw
  exact absurd hw (by decide)

/-- What can be written inside of is a file, a scope or a function with a body. -/
theorem isScope_of_isContainer {entity : Entity} (hc : entity.isContainer = true)
    (hf : entity.kind.word ≠ "file") :
    entity.IsScope ∨ ∃ function, entity.kind = .functionDecl function := by
  obtain ⟨_, _, kind, _, _, _⟩ := entity
  cases kind with
  | file => exact absurd rfl hf
  | namespaceScope | enumeration | classType =>
    exact Or.inl ⟨by simp [EntityKind.word], hc⟩
  | functionDecl function => exact Or.inr ⟨function, rfl⟩
  | _ => exact absurd hc Bool.false_ne_true

end HeaderSynopsis.Declaration.Entity

namespace HeaderSynopsis.Writing

open Declaration Generation Text

theorem flat_beforeBrace {entity : Entity} (h : ∀ t ∈ entity.texts, OneLine t) :
    Flat entity.beforeBrace := by
  rw [Entity.texts, List.forall_mem_cons, List.forall_mem_append] at h
  obtain ⟨_, _, kind, _, _, _⟩ := entity
  cases kind with
  | classType keyword isFinal bases forward =>
    have hfinal : Flat (trailingWords [(isFinal, "final")]) :=
      flat_trailingWords (by simp [OneLine])
    exact hfinal.append (flat_baseWrites bases h.2.2)
  | _ => rfl

theorem flat_heading {entity : Entity} (hs : entity.IsScope)
    (h : ∀ t ∈ entity.texts, OneLine t) : Flat entity.heading :=
  (flat_head hs.ne_access h).append (flat_beforeBrace h)

theorem flat_lineEnd (entity : Entity) : Flat entity.lineEnd := by
  unfold Entity.lineEnd
  split <;> rfl

theorem flat_statementWrites (lines : List String) : Flat (Entity.statementWrites lines) :=
  .flatMap fun line _ => (flat_verbatimWrites line).append rfl

/-- A scope is written in braces, with its children between them. -/
theorem written_of_isScope {entity : Entity} (hs : entity.IsScope) :
    written (fun _ => .definition) entity =
      entity.heading ++ Entity.openBrace ++
        entity.children.flatMap (written fun _ => .definition) ++
        ([.unindent, .punctuation "\x7d"] ++ entity.closingMark ++ [.lineBreak]) := by
  rw [written_of_definition rfl hs.2, Entity.opening_of_isScope hs, Entity.closing_of_isScope hs,
    Entity.lineEnd_eq hs.ne_file, Entity.heading, ← List.append_assoc entity.head]

/-- Everything that is written but a file ends in a line break. -/
theorem written_endsLine {decide : Entity → Detail} {entity : Entity}
    (hd : decide entity ≠ .omitted) (hf : entity.kind.word ≠ "file") :
    ∃ ws, written decide entity = ws ++ [.lineBreak] := by
  have hend := Entity.lineEnd_eq hf
  by_cases hc : decide entity = .definition ∧ entity.isContainer = true
  · rw [written_of_definition hc.1 hc.2, hend, ← List.append_assoc]
    exact ⟨_, rfl⟩
  · rw [written_of_declaration hd hc, hend]
    exact ⟨_, rfl⟩

/-- Everywhere in a tree the children may stand where they do, and no text has line feeds. -/
structure Tidy (entity : Entity) : Prop where
  orderly : ∀ e ∈ entity.walk, e.Orderly
  texts : ∀ e ∈ entity.walk, ∀ t ∈ e.texts, OneLine t

theorem Tidy.of_mem {entity visited : Entity} (h : Tidy entity) (hv : visited ∈ entity.walk) :
    Tidy visited :=
  ⟨fun e he => h.orderly e (Entity.walk_subset hv he),
    fun e he => h.texts e (Entity.walk_subset hv he)⟩

end HeaderSynopsis.Writing
