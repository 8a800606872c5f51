import HeaderSynopsis.Proofs.Generation.Surroundings
import HeaderSynopsis.Proofs.Manifest.LoadedTree
import HeaderSynopsis.Proofs.Writing.Scopes

namespace HeaderSynopsis.Writing

open Declaration Generation

def WholeLines (ws : List Write) : Prop := ws = [] ∨ ∃ vs, ws = vs ++ [.lineBreak]

namespace WholeLines

theorem nil : WholeLines [] := Or.inl rfl

theorem append {ws vs : List Write} (h : WholeLines ws) (h' : WholeLines vs) :
    WholeLines (ws ++ vs) := by
  rcases h' with rfl | ⟨last, rfl⟩
  · rwa [List.append_nil]
  · exact Or.inr ⟨ws ++ last, (List.append_assoc _ _ _).symm⟩

theorem flatMap {α : Type} {parts : List α} {writes : α → List Write}
    (h : ∀ part ∈ parts, WholeLines (writes part)) : WholeLines (parts.flatMap writes) := by
  induction parts with
  | nil => exact nil
  | cons part rest ih =>
    rw [List.flatMap_cons]
    exact (h part List.mem_cons_self).append (ih fun p hp => h p (List.mem_cons_of_mem _ hp))

end WholeLines

theorem wholeLines_written {decide : Entity → Detail} {entity : Entity}
    (hf : entity.kind.word ≠ "file") : WholeLines (written decide entity) := by
  by_cases hd : decide entity = .omitted
  · rw [written_of_omitted hd]
    exact .nil
  · exact Or.inr (written_endsLine hd hf)

theorem wholeLines_template (template : Option TemplateHead) :
    WholeLines ((template.map TemplateHead.writes).getD []) := by
  cases template with
  | none => exact .nil
  | some head =>
    cases head with
    | primary parameters => exact Or.inr ⟨_, rfl⟩
    | specialization special =>
      exact Or.inr ⟨[.keyword "template", .space, .punctuation "<", .punctuation ">"], rfl⟩

/-- Whatever may hold others begins with whole lines. -/
theorem wholeLines_opening {entity : Entity} (ha : entity.kind.acceptsChildren = true) :
    WholeLines (entity.head ++ entity.opening) := by
  by_cases hf : entity.kind.word = "file"
  · have hfile : entity.signature ++ entity.opening = [] := by
      obtain ⟨_, _, kind, _, _, _⟩ := entity
      cases kind with
      | file => rfl
      | _ => exact absurd hf (by simp [EntityKind.word])
    rw [Entity.head, List.append_assoc, hfile, List.append_nil]
    exact wholeLines_template entity.template
  · have hs : entity.IsScope := by
      refine ⟨?_, Entity.isContainer_of_acceptsChildren ha⟩
      cases hk : entity.kind <;> simp_all [EntityKind.word, EntityKind.acceptsChildren]
    have hbrace : Entity.openBrace = [.space, .punctuation "\x7b", .indent] ++ [.lineBreak] := rfl
    rw [Entity.opening_of_isScope hs, hbrace, ← List.append_assoc, ← List.append_assoc]
    exact Or.inr ⟨_, rfl⟩

/-- In an orderly tree whole lines stand before every entity that is reached. -/
theorem wholeLines_writtenBefore {decide : Entity → Detail} {root entity : Entity}
    {position : Position} (h : ∀ e ∈ root.walk, e.Orderly)
    (hreaches : Reaches decide root position entity) :
    WholeLines (writtenBefore decide root position) := by
  induction position generalizing root with
  | nil => exact .nil
  | cons index rest ih =>
    obtain ⟨-, child, hchild, hbelow⟩ := reaches_cons.mp hreaches
    have hm := List.mem_of_getElem? hchild
    have horder := h root root.self_mem_walk
    have hopening := wholeLines_opening (horder.leaf (List.ne_nil_of_mem hm))
    have hsiblings : WholeLines ((root.children.take index).flatMap (written decide)) :=
      .flatMap fun sibling hsibling =>
        wholeLines_written (horder.noFile sibling (List.mem_of_mem_take hsibling))
    rw [writtenBefore_cons hchild]
    exact (hopening.append hsiblings).append
      (ih (fun e he => h e (Entity.mem_walk_of_child hm he)) hbelow)

end HeaderSynopsis.Writing
