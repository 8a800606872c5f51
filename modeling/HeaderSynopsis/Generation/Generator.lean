import HeaderSynopsis.Writing.Entity

/-!
Generators receive what is written about a tree of entities, and decide for each entity how much of
it they want to see. `generate` shows a tree to a generator.
-/

namespace HeaderSynopsis.Generation

open Declaration Writing

inductive Detail where
  -- Nothing, and nothing of what is inside it either.
  | omitted
  | declaration
  | definition
deriving DecidableEq, Repr

def Detail.min : Detail → Detail → Detail
  | .omitted, _ | _, .omitted => .omitted
  | .declaration, _ | _, .declaration => .declaration
  | .definition, .definition => .definition

theorem Detail.min_comm (a b : Detail) : a.min b = b.min a := by
  cases a <;> cases b <;> rfl

theorem Detail.min_assoc (a b c : Detail) : (a.min b).min c = a.min (b.min c) := by
  cases a <;> cases b <;> cases c <;> rfl

@[simp]
theorem Detail.min_self (a : Detail) : a.min a = a := by
  cases a <;> rfl

@[simp]
theorem Detail.min_definition (a : Detail) : a.min .definition = a := by
  cases a <;> rfl

@[simp]
theorem Detail.min_omitted (a : Detail) : a.min .omitted = .omitted := by
  cases a <;> rfl

@[simp]
theorem Detail.omitted_min (a : Detail) : Detail.omitted.min a = .omitted := by
  cases a <;> rfl

/-- The smaller of two amounts is nothing only if one of them is. -/
theorem Detail.min_eq_omitted_iff {a b : Detail} :
    a.min b = .omitted ↔ a = .omitted ∨ b = .omitted := by
  cases a <;> cases b <;> simp [Detail.min]

def Detail.isWritten (detail : Detail) : Bool := detail ≠ .omitted

structure Generator (σ : Type) where
  -- Decides about an entity that is, or is not, a container. Without a decision the whole
  -- generation stops.
  enter : (container : Bool) → Entity → σ → Option Detail × σ
  -- Takes notice of the end of a container that was not omitted.
  leave : Entity → σ → σ
  write : Write → σ → σ

namespace Generator

variable {σ : Type} (g : Generator σ)

def writeAll (writes : List Write) (s : σ) : σ := writes.foldl (fun s w => g.write w s) s

@[simp]
theorem writeAll_nil (s : σ) : g.writeAll [] s = s := rfl

@[simp]
theorem writeAll_cons (w : Write) (ws : List Write) (s : σ) :
    g.writeAll (w :: ws) s = g.writeAll ws (g.write w s) := rfl

theorem writeAll_append (ws vs : List Write) (s : σ) :
    g.writeAll (ws ++ vs) s = g.writeAll vs (g.writeAll ws s) := by
  simp [writeAll, List.foldl_append]

end Generator

structure Outcome (σ : Type) where
  state : σ
  stoppedAt : Option Id := none

namespace Outcome

variable {σ : Type}

def andThen (o : Outcome σ) (next : σ → Outcome σ) : Outcome σ :=
  match o.stoppedAt with
  | none => next o.state
  | some _ => o

def afterwards (o : Outcome σ) (change : σ → σ) : Outcome σ := { o with state := change o.state }

end Outcome

/-- Shows an entity to a generator around `inside`, which learns the decision. A container that is
not omitted is ended afterwards, also if the generation stopped inside it. -/
def scope {σ : Type} (g : Generator σ) (container : Bool) (entity : Entity)
    (inside : Detail → σ → Outcome σ) (s : σ) : Outcome σ :=
  match g.enter container entity s with
  | (none, s) => ⟨s, some entity.id⟩
  | (some detail, s) =>
      let o := inside detail s
      if container && detail.isWritten then o.afterwards (g.leave entity) else o

mutual

/-- Shows an entity and what is inside it to a generator. Children are shown only in the definition
of a container. -/
def generate {σ : Type} (g : Generator σ) : Entity → σ → Outcome σ
  | entity@⟨_, _, _, _, _, children⟩ =>
      scope g entity.isContainer entity fun detail s =>
        if detail.isWritten then
          let s := g.writeAll entity.head s
          if entity.isContainer && detail = .definition then
            (generateAll g children (g.writeAll entity.opening s)).andThen fun s =>
              ⟨g.writeAll entity.lineEnd (g.writeAll entity.closing s), none⟩
          else ⟨g.writeAll entity.lineEnd (g.writeAll entity.declarationEnd s), none⟩
        else ⟨s, none⟩

def generateAll {σ : Type} (g : Generator σ) : List Entity → σ → Outcome σ
  | [], s => ⟨s, none⟩
  | entity :: rest, s => (generate g entity s).andThen (generateAll g rest)

end

end HeaderSynopsis.Generation
