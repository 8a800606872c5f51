import HeaderSynopsis.Generation.Generator
import HeaderSynopsis.Proofs.Declaration.Tree

namespace HeaderSynopsis.Generation

open Declaration Writing

variable {σ : Type} (g : Generator σ)

def generateInside (entity : Entity) (detail : Detail) (s : σ) : Outcome σ :=
  if detail.isWritten then
    if detail = .definition ∧ entity.isContainer then
      (generateAll g entity.children (g.writeAll (entity.head ++ entity.opening) s)).andThen
        fun s => ⟨g.writeAll (entity.closing ++ entity.lineEnd) s, none⟩
    else ⟨g.writeAll (entity.head ++ entity.declarationEnd ++ entity.lineEnd) s, none⟩
  else ⟨s, none⟩

theorem generate_eq_scope (entity : Entity) :
    generate g entity = scope g entity.isContainer entity (generateInside g entity) := by
  have hinside : (fun (detail : Detail) (s : σ) =>
      if detail.isWritten then
        let s := g.writeAll entity.head s
        if entity.isContainer && detail = .definition then
          (generateAll g entity.children (g.writeAll entity.opening s)).andThen fun s =>
            ⟨g.writeAll entity.lineEnd (g.writeAll entity.closing s), none⟩
        else ⟨g.writeAll entity.lineEnd (g.writeAll entity.declarationEnd s), none⟩
      else ⟨s, none⟩) = generateInside g entity := by
    funext detail s
    simp only [generateInside, Generator.writeAll_append, Bool.and_eq_true, decide_eq_true_eq,
      and_comm]
  rw [← hinside]
  cases entity
  rfl

variable {g} {entity : Entity} {detail : Detail}

theorem generateInside_of_omitted (hw : detail.isWritten = false) :
    generateInside g entity detail = fun s => ⟨s, none⟩ := by
  funext s
  simp [generateInside, hw]

theorem generateInside_of_definition (hd : detail = .definition ∧ entity.isContainer) :
    generateInside g entity detail = fun s =>
      (generateAll g entity.children (g.writeAll (entity.head ++ entity.opening) s)).andThen
        fun s => ⟨g.writeAll (entity.closing ++ entity.lineEnd) s, none⟩ := by
  funext s
  have hw : detail.isWritten = true := by
    rw [hd.1]
    rfl
  rw [generateInside, if_pos hw, if_pos hd]

theorem generateInside_of_declaration (hw : detail.isWritten = true)
    (hd : ¬(detail = .definition ∧ entity.isContainer)) :
    generateInside g entity detail = fun s =>
      ⟨g.writeAll (entity.head ++ entity.declarationEnd ++ entity.lineEnd) s, none⟩ := by
  funext s
  rw [generateInside, if_pos hw, if_neg hd]

/-- Generators that take the same decisions about a tree, and do the same otherwise, generate the
same. -/
theorem generate_congr {g' : Generator σ}
    (he : ∀ e ∈ entity.walk, ∀ container s, g.enter container e s = g'.enter container e s)
    (hl : g.leave = g'.leave) (hw : g.write = g'.write) :
    generate g entity = generate g' entity := by
  have hwrites : g.writeAll = g'.writeAll := by
    unfold Generator.writeAll
    rw [hw]
  induction entity using Entity.tree_induction with
  | node entity ih =>
    have hall : generateAll g entity.children = generateAll g' entity.children := by
      have hbelow : ∀ child ∈ entity.children, generate g child = generate g' child :=
        fun child hc => ih child hc fun e hm => he e (Entity.mem_walk_of_child hc hm)
      generalize entity.children = children at hbelow
      induction children with
      | nil => rfl
      | cons child rest ihrest =>
        rw [List.forall_mem_cons] at hbelow
        funext s
        rw [generateAll, generateAll, hbelow.1, ihrest hbelow.2]
    have hinside : generateInside g entity = generateInside g' entity := by
      funext detail s
      rw [generateInside, generateInside, hwrites, hall]
    funext s
    rw [generate_eq_scope, generate_eq_scope, hinside, scope, scope,
      he entity entity.self_mem_walk, hl]

end HeaderSynopsis.Generation
