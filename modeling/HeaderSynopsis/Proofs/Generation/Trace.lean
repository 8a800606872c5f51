import HeaderSynopsis.Generation.Generator
import HeaderSynopsis.Proofs.Declaration.Tree

namespace HeaderSynopsis.Generation

open Declaration Writing

theorem Detail.isWritten_iff {detail : Detail} : detail.isWritten = true ↔ detail ≠ .omitted :=
  decide_eq_true_iff

/-- Something that a generator is shown. -/
inductive Showing where
  | enter (container : Bool) (entity : Entity)
  | leave (entity : Entity)
  | write (write : Write)

def Showing.write? : Showing → Option Write
  | .write w => some w
  | _ => none

def showingsInside (detail : Detail) (entity : Entity) (inner : List Showing) : List Showing :=
  if detail = .definition ∧ entity.isContainer then
    (entity.head ++ entity.opening).map .write ++ inner ++
      (entity.closing ++ entity.lineEnd).map .write
  else (entity.head ++ entity.declarationEnd ++ entity.lineEnd).map .write

mutual

def showings (decide : Entity → Detail) : Entity → List Showing
  | entity@⟨_, _, _, _, _, children⟩ =>
      .enter entity.isContainer entity ::
        if (decide entity).isWritten then
          showingsInside (decide entity) entity (showingsAll decide children) ++
            if entity.isContainer then [.leave entity] else []
        else []

def showingsAll (decide : Entity → Detail) : List Entity → List Showing
  | [] => []
  | entity :: rest => showings decide entity ++ showingsAll decide rest

end

theorem showingsAll_eq (decide : Entity → Detail) (entities : List Entity) :
    showingsAll decide entities = entities.flatMap (showings decide) := by
  induction entities with
  | nil => rfl
  | cons entity rest ih => rw [showingsAll, ih, List.flatMap_cons]

theorem showings_eq (decide : Entity → Detail) (entity : Entity) :
    showings decide entity =
      .enter entity.isContainer entity ::
        if (decide entity).isWritten then
          showingsInside (decide entity) entity (entity.children.flatMap (showings decide)) ++
            if entity.isContainer then [.leave entity] else []
        else [] := by
  cases entity
  rw [showings, showingsAll_eq]

/-- What is shown of an entity depends only on the decisions about what is visited from it. -/
theorem showings_congr {decide other : Entity → Detail} {entity : Entity}
    (h : ∀ e ∈ entity.walk, decide e = other e) :
    showings decide entity = showings other entity := by
  induction entity using Entity.tree_induction with
  | node entity ih =>
    have hchildren : entity.children.flatMap (showings decide) =
        entity.children.flatMap (showings other) := by
      simp only [List.flatMap]
      refine congrArg List.flatten (List.map_congr_left fun child hm => ih child hm fun e he => ?_)
      exact h e (Entity.mem_walk_of_child hm he)
    rw [showings_eq, showings_eq, hchildren, h entity entity.self_mem_walk]

theorem showings_of_omitted {decide : Entity → Detail} {entity : Entity}
    (hd : decide entity = .omitted) :
    showings decide entity = [.enter entity.isContainer entity] := by
  rw [showings_eq, hd]
  rfl

/-- The definition of a container is shown around its children. -/
theorem showings_of_definition {decide : Entity → Detail} {entity : Entity}
    (hd : decide entity = .definition) (hc : entity.isContainer = true) :
    showings decide entity =
      .enter entity.isContainer entity ::
        ((entity.head ++ entity.opening).map .write ++
          entity.children.flatMap (showings decide) ++
          (entity.closing ++ entity.lineEnd).map .write ++ [.leave entity]) := by
  have hw : Detail.isWritten .definition = true := rfl
  rw [showings_eq, hd, if_pos hw, showingsInside, if_pos ⟨rfl, hc⟩, if_pos hc]

/-- Everything else is shown without its children. -/
theorem showings_of_declaration {decide : Entity → Detail} {entity : Entity}
    (hd : decide entity ≠ .omitted)
    (hc : ¬(decide entity = .definition ∧ entity.isContainer = true)) :
    showings decide entity =
      .enter entity.isContainer entity ::
        ((entity.head ++ entity.declarationEnd ++ entity.lineEnd).map .write ++
          if entity.isContainer then [.leave entity] else []) := by
  rw [showings_eq, showingsInside, if_neg hc, if_pos (Detail.isWritten_iff.mpr hd)]

/-- What holds of entities that are omitted or shown without their children holds of every entity
as soon as it passes from the children to the definition of a container. -/
@[elab_as_elim]
theorem decision_induction (decide : Entity → Detail) {motive : Entity → Prop}
    (omitted : ∀ entity, decide entity = .omitted → motive entity)
    (definition : ∀ entity, decide entity = .definition → entity.isContainer = true →
      (∀ child ∈ entity.children, motive child) → motive entity)
    (declaration : ∀ entity, decide entity ≠ .omitted →
      ¬(decide entity = .definition ∧ entity.isContainer = true) → motive entity)
    (entity : Entity) : motive entity := by
  induction entity using Entity.tree_induction with
  | node entity ih =>
    by_cases ho : decide entity = .omitted
    · exact omitted entity ho
    by_cases hd : decide entity = .definition ∧ entity.isContainer
    · exact definition entity hd.1 hd.2 ih
    · exact declaration entity ho hd

def writesOf (shown : List Showing) : List Write := shown.filterMap Showing.write?

@[simp]
theorem writesOf_append (shown later : List Showing) :
    writesOf (shown ++ later) = writesOf shown ++ writesOf later := by
  simp only [writesOf, List.filterMap_append]

@[simp]
theorem writesOf_enter (container : Bool) (entity : Entity) (later : List Showing) :
    writesOf (.enter container entity :: later) = writesOf later := rfl

@[simp]
theorem writesOf_leave (entity : Entity) : writesOf [.leave entity] = [] := rfl

@[simp]
theorem writesOf_map_write (ws : List Write) : writesOf (ws.map .write) = ws := by
  induction ws with
  | nil => rfl
  | cons w ws ih => exact congrArg (w :: ·) ih

def written (decide : Entity → Detail) (entity : Entity) : List Write :=
  writesOf (showings decide entity)

theorem writesOf_flatMap_showings (decide : Entity → Detail) (entities : List Entity) :
    writesOf (entities.flatMap (showings decide)) = entities.flatMap (written decide) := by
  induction entities with
  | nil => rfl
  | cons entity rest ih => rw [List.flatMap_cons, writesOf_append, ih, List.flatMap_cons, written]

theorem written_congr {decide other : Entity → Detail} {entity : Entity}
    (h : ∀ e ∈ entity.walk, decide e = other e) : written decide entity = written other entity := by
  rw [written, showings_congr h, written]

theorem written_of_omitted {decide : Entity → Detail} {entity : Entity}
    (hd : decide entity = .omitted) : written decide entity = [] := by
  rw [written, showings_of_omitted hd]
  rfl

theorem written_of_definition {decide : Entity → Detail} {entity : Entity}
    (hd : decide entity = .definition) (hc : entity.isContainer = true) :
    written decide entity =
      entity.head ++ entity.opening ++ entity.children.flatMap (written decide) ++
        (entity.closing ++ entity.lineEnd) := by
  rw [written, showings_of_definition hd hc]
  simp only [writesOf_enter, writesOf_append, writesOf_map_write, writesOf_leave, List.append_nil,
    writesOf_flatMap_showings]

theorem written_of_declaration {decide : Entity → Detail} {entity : Entity}
    (hd : decide entity ≠ .omitted)
    (hc : ¬(decide entity = .definition ∧ entity.isContainer = true)) :
    written decide entity = entity.head ++ entity.declarationEnd ++ entity.lineEnd := by
  rw [written, showings_of_declaration hd hc, writesOf_enter, writesOf_append, writesOf_map_write]
  cases entity.isContainer
  · exact List.append_nil _
  · exact List.append_nil _

namespace Generator

variable {σ : Type} (g : Generator σ)

def attend : Showing → σ → σ
  | .enter container entity, s => (g.enter container entity s).2
  | .leave entity, s => g.leave entity s
  | .write w, s => g.write w s

def attendAll (shown : List Showing) (s : σ) : σ := shown.foldl (fun s o => g.attend o s) s

@[simp]
theorem attendAll_nil (s : σ) : g.attendAll [] s = s := rfl

@[simp]
theorem attendAll_cons (o : Showing) (rest : List Showing) (s : σ) :
    g.attendAll (o :: rest) s = g.attendAll rest (g.attend o s) := rfl

theorem attendAll_append (shown later : List Showing) (s : σ) :
    g.attendAll (shown ++ later) s = g.attendAll later (g.attendAll shown s) := by
  simp only [attendAll, List.foldl_append]

theorem attendAll_map_write (ws : List Write) (s : σ) :
    g.attendAll (ws.map .write) s = g.writeAll ws s := by
  simp only [attendAll, writeAll, List.foldl_map]
  rfl

/-- Only the steps of writing matter to a generator that is not changed by other things. -/
theorem attendAll_eq_writeAll (he : ∀ container entity s, (g.enter container entity s).2 = s)
    (hl : ∀ entity s, g.leave entity s = s) (shown : List Showing) (s : σ) :
    g.attendAll shown s = g.writeAll (writesOf shown) s := by
  induction shown generalizing s with
  | nil => rfl
  | cons o rest ih =>
    rw [attendAll_cons, ih]
    cases o with
    | enter container entity => exact congrArg (g.writeAll _) (he container entity s)
    | leave entity => exact congrArg (g.writeAll _) (hl entity s)
    | write w => rfl

def Decides (decide : Entity → Detail) : Prop :=
  ∀ container entity s, (g.enter container entity s).1 = some (decide entity)

variable {g}

theorem Decides.enter_eq {decide : Entity → Detail} (hg : g.Decides decide) (container : Bool)
    (entity : Entity) (s : σ) :
    g.enter container entity s = (some (decide entity), (g.enter container entity s).2) :=
  Prod.ext (hg container entity s) rfl

theorem generateAll_eq_attendAll {decide : Entity → Detail} (children : List Entity)
    (hc : ∀ child ∈ children, ∀ s,
      generate g child s = ⟨g.attendAll (showings decide child) s, none⟩) (s : σ) :
    generateAll g children s = ⟨g.attendAll (children.flatMap (showings decide)) s, none⟩ := by
  induction children generalizing s with
  | nil => rfl
  | cons child rest ih =>
    have hrest := ih fun c hm => hc c (List.mem_cons_of_mem _ hm)
    rw [generateAll, hc child List.mem_cons_self, List.flatMap_cons, attendAll_append]
    exact hrest _

/-- A generator with decisions of its own takes notice of exactly what `showings` lists. -/
theorem Decides.generate_eq {decide : Entity → Detail} (hg : g.Decides decide) (entity : Entity)
    (s : σ) : generate g entity s = ⟨g.attendAll (showings decide entity) s, none⟩ := by
  induction entity using Entity.tree_induction generalizing s with
  | node entity ih =>
    have hall := generateAll_eq_attendAll entity.children ih
    rw [showings_eq, attendAll_cons]
    -- `generate` matches on the fields, so they are taken apart for its equation and no longer.
    obtain ⟨id, name, kind, template, comment, children⟩ := entity
    rw [generate, scope, hg.enter_eq]
    dsimp only [attend] at hall ⊢
    generalize Entity.mk id name kind template comment children = entity at hall ⊢
    generalize (g.enter entity.isContainer entity s).2 = s'
    cases hd : decide entity with
    | omitted => simp [Detail.isWritten]
    | declaration =>
      cases hc : entity.isContainer <;>
        simp [Detail.isWritten, showingsInside, attendAll_append, attend, attendAll_map_write,
          Outcome.afterwards]
    | definition =>
      cases hc : entity.isContainer <;>
        simp [Detail.isWritten, showingsInside, hc, attendAll_append, attend,
          attendAll_map_write, Outcome.afterwards, Outcome.andThen, hall]

end Generator

end HeaderSynopsis.Generation
