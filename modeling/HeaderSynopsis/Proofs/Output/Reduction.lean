import HeaderSynopsis.Proofs.Output.Rendering

/-!
A selection can be applied to the tree instead of to the generator. What it omits is deleted, and
what it reduces to a declaration becomes an entity that has nothing but a declaration. Main result:
rendering with the selection is rendering the reduced tree without it.
-/

namespace HeaderSynopsis.Declaration

namespace EntityKind

def declared : EntityKind → EntityKind
  | classType keyword isFinal bases _ => .classType keyword isFinal bases true
  | enumeration isScoped underlying _ => .enumeration isScoped underlying true
  | functionDecl function =>
      .functionDecl { function with
        body := if function.body.isDefinition then .declaration else function.body }
  | kind => kind

def isDeclaredAlone : EntityKind → Bool
  | file | classType .. | enumeration .. => true
  | _ => false

theorem word_eq_file {kind : EntityKind} : kind.word = "file" ↔ kind = .file := by
  cases kind <;> simp [word]

end EntityKind

end HeaderSynopsis.Declaration

namespace HeaderSynopsis.Output

open Declaration Writing Generation

namespace Selection

/-- Whether an entity is omitted, by its identity or by its kind. -/
def Excludes (selection : Selection) (entity : Entity) : Prop :=
  entity.id ∈ selection.omitted ∨ entity.kind.word ∈ selection.omittedKinds

instance (selection : Selection) (entity : Entity) : Decidable (selection.Excludes entity) :=
  inferInstanceAs (Decidable (_ ∨ _))

mutual

/-- An entity that is not omitted, with the selection applied to it and everything below it. -/
def reduced (selection : Selection) : Entity → Entity
  | ⟨id, name, kind, template, comment, children⟩ =>
      if id ∈ selection.declarations then
        ⟨id, name, kind.declared, template, comment,
          if kind.isDeclaredAlone then [] else reducedAll selection children⟩
      else ⟨id, name, kind, template, comment, reducedAll selection children⟩

def reducedAll (selection : Selection) : List Entity → List Entity
  | [] => []
  | entity :: rest =>
      if selection.Excludes entity then reducedAll selection rest
      else reduced selection entity :: reducedAll selection rest

end

variable {selection : Selection} {entity : Entity}

theorem limit_of_excludes (h : selection.Excludes entity) : selection.limit entity = .omitted :=
  if_pos h

theorem limit_of_declarations (h : ¬selection.Excludes entity)
    (hd : entity.id ∈ selection.declarations) : selection.limit entity = .declaration :=
  (if_neg h).trans (if_pos hd)

theorem limit_of_notMem (h : ¬selection.Excludes entity)
    (hd : entity.id ∉ selection.declarations) : selection.limit entity = .definition :=
  (if_neg h).trans (if_neg hd)

/-- Whatever is not excluded may be written. -/
theorem limit_ne_omitted (h : ¬selection.Excludes entity) : selection.limit entity ≠ .omitted := by
  by_cases hd : entity.id ∈ selection.declarations
  · rw [limit_of_declarations h hd]
    exact Detail.noConfusion
  · rw [limit_of_notMem h hd]
    exact Detail.noConfusion

theorem not_excludes_of_limit (h : selection.limit entity ≠ .omitted) :
    ¬selection.Excludes entity := by
  intro he
  exact h (limit_of_excludes he)

end Selection

structure Impartial {σ : Type} (g : Generator σ) : Prop where
  decides : g.Decides fun _ => .definition
  enter_eq : ∀ container container' entity entity' s, entity.id = entity'.id →
    entity.occupiesLine = entity'.occupiesLine →
    g.enter container entity s = g.enter container' entity' s
  leave_eq : ∀ entity s, g.leave entity s = s

theorem Layout.generator_impartial (indentation : Indentation) :
    Impartial (Layout.generator indentation) where
  decides := Layout.generator_decides indentation
  enter_eq _ _ _ _ _ _ _ := rfl
  leave_eq _ _ := rfl

theorem Markup.generator_impartial (indentation : Indentation) :
    Impartial (Markup.generator indentation) where
  decides := Markup.generator_decides indentation
  enter_eq _ _ entity entity' s hid hline := by
    simp only [Markup.generator, Markup.enter, hid, hline]
  leave_eq _ _ := rfl

section

variable {σ : Type} {g : Generator σ} {decide : Entity → Detail} {entity : Entity}

theorem attendAll_showings_omitted (hd : decide entity = .omitted) (s : σ) :
    g.attendAll (showings decide entity) s = (g.enter entity.isContainer entity s).2 := by
  rw [showings_of_omitted hd]
  rfl

/-- What comes of the definition of a container. -/
theorem attendAll_showings_definition (hl : ∀ entity s, g.leave entity s = s)
    (hd : decide entity = .definition) (hc : entity.isContainer = true) (s : σ) :
    g.attendAll (showings decide entity) s =
      g.writeAll (entity.closing ++ entity.lineEnd)
        (g.attendAll (entity.children.flatMap (showings decide))
          (g.writeAll (entity.head ++ entity.opening)
            (g.enter entity.isContainer entity s).2)) := by
  rw [showings_of_definition hd hc, Generator.attendAll_cons]
  simp only [Generator.attendAll_append, Generator.attendAll_map_write, Generator.attendAll_cons,
    Generator.attendAll_nil, Generator.attend, hl]

/-- What comes of anything else that is written. -/
theorem attendAll_showings_declaration (hl : ∀ entity s, g.leave entity s = s)
    (hd : decide entity ≠ .omitted)
    (hc : ¬(decide entity = .definition ∧ entity.isContainer = true)) (s : σ) :
    g.attendAll (showings decide entity) s =
      g.writeAll (entity.head ++ entity.declarationEnd ++ entity.lineEnd)
        (g.enter entity.isContainer entity s).2 := by
  rw [showings_of_declaration hd hc, Generator.attendAll_cons, Generator.attendAll_append,
    Generator.attendAll_map_write]
  split
  · exact hl _ _
  · rfl

end

namespace Selection

variable (selection : Selection) (entity : Entity)

theorem reduced_of_declarations (hd : entity.id ∈ selection.declarations) :
    selection.reduced entity = { entity with
      kind := entity.kind.declared
      children :=
        if entity.kind.isDeclaredAlone then [] else selection.reducedAll entity.children } := by
  obtain ⟨id, name, kind, template, comment, children⟩ := entity
  rw [reduced, if_pos hd]

theorem reduced_of_notMem (hd : entity.id ∉ selection.declarations) :
    selection.reduced entity = { entity with
      children := selection.reducedAll entity.children } := by
  obtain ⟨id, name, kind, template, comment, children⟩ := entity
  rw [reduced, if_neg hd]

end Selection

section

variable (entity : Entity) (children : List Entity)

/-- Reducing an entity to its declaration leaves everything before its body alone. -/
theorem declared_head :
    { entity with kind := entity.kind.declared, children := children : Entity }.head =
      entity.head := by
  obtain ⟨_, _, kind, _, _, _⟩ := entity
  cases kind <;> rfl

theorem declared_declarationEnd :
    { entity with kind := entity.kind.declared, children := children : Entity }.declarationEnd =
      entity.declarationEnd := by
  obtain ⟨_, _, kind, _, _, _⟩ := entity
  cases kind with
  | functionDecl function =>
    dsimp only [Entity.declarationEnd, EntityKind.declared]
    cases function.body <;> rfl
  | _ => rfl

theorem declared_occupiesLine :
    { entity with kind := entity.kind.declared, children := children : Entity }.occupiesLine =
      entity.occupiesLine := by
  obtain ⟨_, _, kind, _, _, _⟩ := entity
  cases kind <;> rfl

theorem declared_lineEnd :
    { entity with kind := entity.kind.declared, children := children : Entity }.lineEnd =
      entity.lineEnd := by
  rw [Entity.lineEnd, Entity.lineEnd, declared_occupiesLine]

/-- A mere declaration is no container, unless it is a file or a namespace. -/
theorem declared_isContainer (hf : entity.kind.word ≠ "file")
    (hn : entity.kind.word ≠ "namespace") :
    { entity with kind := entity.kind.declared, children := children : Entity }.isContainer =
      false := by
  obtain ⟨_, _, kind, _, _, _⟩ := entity
  cases kind with
  | file => exact absurd rfl hf
  | namespaceScope => exact absurd rfl hn
  | functionDecl function =>
    dsimp only [Entity.isContainer, EntityKind.declared]
    cases function.body <;> rfl
  | _ => rfl

end

section

variable {σ : Type} {g : Generator σ} {selection : Selection} {entity : Entity}

theorem narrow_enter (h : ¬selection.Excludes entity) (container : Bool) (s : σ) :
    ((selection.narrow g).enter container entity s).2 = (g.enter container entity s).2 := by
  rw [Selection.enter_narrow_of_ne g (Selection.limit_ne_omitted h)]

theorem narrow_enter_of_excludes (h : selection.Excludes entity) (container : Bool) (s : σ) :
    ((selection.narrow g).enter container entity s).2 = s := by
  rw [Selection.enter_narrow_of_omitted g (Selection.limit_of_excludes h)]

/-- Children that each come to the same reduced beforehand do so one after the other, where the
omitted ones come to nothing. -/
theorem attendAll_reducedAll {children : List Entity}
    (hc : ∀ child ∈ children, ¬selection.Excludes child → ∀ s,
      (selection.narrow g).attendAll (showings selection.limit child) s =
        g.attendAll (showings (fun _ => .definition) (selection.reduced child)) s) (s : σ) :
    (selection.narrow g).attendAll (children.flatMap (showings selection.limit)) s =
      g.attendAll ((selection.reducedAll children).flatMap (showings fun _ => .definition)) s := by
  induction children generalizing s with
  | nil => rfl
  | cons child rest ih =>
    have hrest := ih fun c hm => hc c (List.mem_cons_of_mem _ hm)
    rw [List.flatMap_cons, Generator.attendAll_append, Selection.reducedAll]
    by_cases he : selection.Excludes child
    · rw [if_pos he, attendAll_showings_omitted (Selection.limit_of_excludes he),
        narrow_enter_of_excludes he, hrest]
    · rw [if_neg he, List.flatMap_cons, Generator.attendAll_append,
        hc child List.mem_cons_self he, hrest]

/-- Without its children a file comes to its head. -/
theorem attendAll_emptied (hg : Impartial g) (hf : entity.kind = .file) (s : σ) :
    g.attendAll (showings (fun _ => .definition)
        { entity with kind := entity.kind.declared, children := [] }) s =
      g.writeAll (entity.head ++ entity.declarationEnd ++ entity.lineEnd)
        (g.enter entity.isContainer entity s).2 := by
  obtain ⟨id, name, kind, template, comment, children⟩ := entity
  subst hf
  have henter := hg.enter_eq true true ⟨id, name, .file, template, comment, []⟩
    ⟨id, name, .file, template, comment, children⟩ s rfl rfl
  rw [attendAll_showings_definition hg.leave_eq rfl rfl]
  change _ = g.writeAll (_ ++ [] ++ []) _
  rw [List.append_nil]
  exact congrArg (fun o => g.writeAll _ o.2) henter

/-- Anything but a file or a namespace comes to its declaration when it is reduced to it. -/
theorem attendAll_declared (hg : Impartial g) (hf : entity.kind.word ≠ "file")
    (hn : entity.kind.word ≠ "namespace") (children : List Entity) (s : σ) :
    g.attendAll (showings (fun _ => .definition)
        { entity with kind := entity.kind.declared, children := children }) s =
      g.writeAll (entity.head ++ entity.declarationEnd ++ entity.lineEnd)
        (g.enter entity.isContainer entity s).2 := by
  have hcontainer := declared_isContainer entity children hf hn
  have henter := hg.enter_eq false entity.isContainer
    { entity with kind := entity.kind.declared, children := children } entity s rfl
    (declared_occupiesLine entity children)
  rw [attendAll_showings_declaration hg.leave_eq Detail.noConfusion (by simp [hcontainer]),
    declared_head, declared_declarationEnd, declared_lineEnd, hcontainer, henter]

/-- Showing a tree to a narrowed generator is showing the reduced tree to the generator itself. -/
theorem attendAll_reduced (hg : Impartial g) (hk : ¬selection.Excludes entity)
    (hn : ∀ visited ∈ entity.walk, visited.kind.word = "namespace" →
      visited.id ∉ selection.declarations) (s : σ) :
    (selection.narrow g).attendAll (showings selection.limit entity) s =
      g.attendAll (showings (fun _ => .definition) (selection.reduced entity)) s := by
  induction entity using Entity.tree_induction generalizing s with
  | node entity ih =>
    have hl : ∀ entity s, (selection.narrow g).leave entity s = s := hg.leave_eq
    have hchildren := attendAll_reducedAll (g := g) fun child hc hk =>
      ih child hc hk fun visited hv => hn visited (Entity.mem_walk_of_child hc hv)
    by_cases hd : entity.id ∈ selection.declarations
    · -- A declaration is written without its children, and the reduced entity has no body to
      -- write them in.
      have hlimit := Selection.limit_of_declarations hk hd
      have hne : selection.limit entity ≠ .omitted := hlimit ▸ Detail.noConfusion
      have hscope : entity.kind.word ≠ "namespace" := fun h =>
        hn entity entity.self_mem_walk h hd
      rw [attendAll_showings_declaration hl hne (by simp [hlimit]), narrow_enter hk,
        Selection.reduced_of_declarations _ _ hd]
      by_cases hf : entity.kind.word = "file"
      · -- Only a file is still a container, and there is nothing to it but its children.
        have hfile := EntityKind.word_eq_file.mp hf
        rw [if_pos (hfile ▸ rfl)]
        exact (attendAll_emptied hg hfile s).symm
      · exact (attendAll_declared hg hf hscope _ s).symm
    · -- The entity stays what it is, around the children that are left.
      have hlimit := Selection.limit_of_notMem hk hd
      rw [Selection.reduced_of_notMem _ _ hd]
      have henter := hg.enter_eq entity.isContainer entity.isContainer entity
        { entity with children := selection.reducedAll entity.children } s rfl rfl
      cases hc : entity.isContainer with
      | true =>
        have hcontainer : { entity with
            children := selection.reducedAll entity.children : Entity }.isContainer = true := hc
        rw [attendAll_showings_definition hl hlimit hc, narrow_enter hk, hchildren,
          attendAll_showings_definition hg.leave_eq rfl hcontainer]
        exact congrArg (fun o => g.writeAll _ (g.attendAll _ (g.writeAll _ o.2))) henter
      | false =>
        have hleaf : { entity with
            children := selection.reducedAll entity.children : Entity }.isContainer = false := hc
        have hne : selection.limit entity ≠ .omitted := hlimit ▸ Detail.noConfusion
        rw [attendAll_showings_declaration hl hne (by simp [hc]), narrow_enter hk,
          attendAll_showings_declaration hg.leave_eq Detail.noConfusion (by simp [hleaf])]
        exact congrArg (fun o => g.writeAll _ o.2) henter

/-- A narrowed generator leaves for a tree what the generator itself leaves for the reduced tree. -/
theorem Impartial.generate_reduced (hg : Impartial g) (hk : ¬selection.Excludes entity)
    (hn : ∀ visited ∈ entity.walk, visited.kind.word = "namespace" →
      visited.id ∉ selection.declarations) (s : σ) :
    generate (selection.narrow g) entity s = generate g (selection.reduced entity) s := by
  rw [(selection.narrow_decides hg.decides).generate_eq, hg.decides.generate_eq,
    attendAll_reduced hg hk hn]

end

/-- With a selection that reduces no namespace to its declaration, text and HTML of a tree are those
of the reduced tree. Of an omitted tree there is no text. -/
theorem render_eq_render_reduced (indentation : Indentation) (selection : Selection)
    (entity : Entity) :
    (selection.Excludes entity → renderText indentation selection entity = "") ∧
    (¬selection.Excludes entity →
      (∀ visited ∈ entity.walk, visited.kind.word = "namespace" →
        visited.id ∉ selection.declarations) →
      renderText indentation selection entity =
        (generate (Layout.generator indentation) (selection.reduced entity) {}).state.text ∧
      renderHtml indentation selection entity =
        (generate (Markup.generator indentation) (selection.reduced entity) {}).state.finish) := by
  refine ⟨fun hk => ?_, fun hk hn => ⟨?_, ?_⟩⟩
  · rw [renderText_eq, written_of_omitted (Selection.limit_of_excludes hk)]
    rfl
  · rw [renderText, (Layout.generator_impartial indentation).generate_reduced hk hn]
  · rw [renderHtml, (Markup.generator_impartial indentation).generate_reduced hk hn]

def shapeFile : Entity :=
  { Entity.ofKind .file "shape.hpp" with
    children := [
      { Entity.ofKind (.classType .classKey false [] false) "Shape" with
        children := [
          Entity.ofKind (.accessLabel .publicAccess) "",
          Entity.ofKind (.functionDecl { body := .statements ["draw();"] }) "Shape"] }] }

theorem render_eq_render_reduced_shapeFile :
    let omitting : Selection := { omittedKinds := ["file"] }
    let forward : Selection := { declarations := [⟨"Shape"⟩] }
    omitting.Excludes shapeFile ∧ renderText .standard omitting shapeFile = "" ∧
    ¬forward.Excludes shapeFile ∧
    (∀ visited ∈ shapeFile.walk, visited.kind.word = "namespace" →
      visited.id ∉ forward.declarations) ∧
    renderText .standard forward shapeFile =
      (generate (Layout.generator .standard) (forward.reduced shapeFile) {}).state.text ∧
    renderHtml .standard forward shapeFile =
      (generate (Markup.generator .standard) (forward.reduced shapeFile) {}).state.finish := by
  intro omitting forward
  have homitted : omitting.Excludes shapeFile := by decide
  have hkept : ¬forward.Excludes shapeFile := by decide
  have hscopes : ∀ visited ∈ shapeFile.walk, visited.kind.word = "namespace" →
      visited.id ∉ forward.declarations := by decide
  exact ⟨homitted, (render_eq_render_reduced .standard omitting shapeFile).1 homitted,
    hkept, hscopes, (render_eq_render_reduced .standard forward shapeFile).2 hkept hscopes⟩

example : renderText .standard { declarations := [⟨"Shape"⟩] } shapeFile = "class Shape;\n" := by
  decide +kernel

end HeaderSynopsis.Output
