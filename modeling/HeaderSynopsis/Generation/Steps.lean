import HeaderSynopsis.Generation.Generator

namespace HeaderSynopsis.Generation

open Declaration Writing

inductive Step where
  -- Notes the decision of the scope.
  | query
  -- Writes, unless the scope's entity is omitted.
  | write (writes : List Write)
  -- Generates an entity, whatever was decided about the scope's.
  | generate (entity : Entity)
  -- Opens a scope inside, whatever was decided about the outer one's entity.
  | nested (container : Bool) (entity : Entity) (steps : List Step)

abbrev Noted (σ : Type) := σ × List Detail

def Outcome.withNotes {σ : Type} (o : Outcome σ) (notes : List Detail) : Outcome (Noted σ) :=
  ⟨(o.state, notes), o.stoppedAt⟩

def Generator.noted {σ : Type} (g : Generator σ) : Generator (Noted σ) where
  enter container entity s :=
    let (detail, inner) := g.enter container entity s.1
    (detail, inner, s.2)
  leave entity s := (g.leave entity s.1, s.2)
  write w s := (g.write w s.1, s.2)

mutual

def Step.run {σ : Type} (g : Generator σ) (detail : Detail) : Step → Noted σ → Outcome (Noted σ)
  | .query, s => ⟨(s.1, s.2 ++ [detail]), none⟩
  | .write writes, s => if detail.isWritten then ⟨(g.writeAll writes s.1, s.2), none⟩ else ⟨s, none⟩
  | .generate entity, s => (Generation.generate g entity s.1).withNotes s.2
  | .nested container entity steps, s =>
      scope g.noted container entity (fun detail s => Step.runAll g detail steps s) s

def Step.runAll {σ : Type} (g : Generator σ) (detail : Detail) :
    List Step → Noted σ → Outcome (Noted σ)
  | [], s => ⟨s, none⟩
  | step :: rest, s => (Step.run g detail step s).andThen (Step.runAll g detail rest)

end

def runScope {σ : Type} (g : Generator σ) (container : Bool) (entity : Entity) (steps : List Step)
    (s : σ) : Outcome (Noted σ) :=
  scope g.noted container entity (fun detail s => Step.runAll g detail steps s) (s, [])

end HeaderSynopsis.Generation
