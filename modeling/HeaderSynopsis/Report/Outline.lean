import HeaderSynopsis.Manifest.Loaded
import HeaderSynopsis.Report.Line

namespace HeaderSynopsis.Report

open Declaration Manifest

structure Node where
  -- How many entities below the file it is inside.
  depth : Nat
  id : Id
  kind : String
  container : Bool
  template : Bool
  comment : Option String

structure Outline where
  fileName : String
  comment : Option String
  nodes : List Node

def Node.ofEntity (depth : Nat) (entity : Entity) : Node :=
  ⟨depth, entity.id, entity.kind.word, entity.isContainer, entity.template.isSome, entity.comment⟩

mutual

def nodesOf (depth : Nat) : Entity → List Node
  | entity@⟨_, _, _, _, _, children⟩ =>
      Node.ofEntity depth entity :: nodesOfAll (depth + 1) children

def nodesOfAll (depth : Nat) : List Entity → List Node
  | [] => []
  | entity :: rest => nodesOf depth entity ++ nodesOfAll depth rest

end

def Outline.ofManifest (manifest : Loaded) : Outline :=
  ⟨manifest.file.name, manifest.file.comment, nodesOfAll 0 manifest.file.children⟩

namespace Node

def margin (node : Node) : String := String.join (List.replicate node.depth "  ")

def headline (node : Node) : String :=
  node.margin ++ node.kind ++ " " ++ node.id.text ++
    (if node.template then " <template>" else "") ++ if node.container then " \x7b\x7d" else ""

def lines (node : Node) : List Line :=
  .preformatted node.headline ::
    (Text.lines (node.comment.getD "")).map fun line =>
      .preformatted (node.margin ++ "  // " ++ line)

end Node

/-- The outline under the name of the file. The comment of the file stays in one piece. -/
def Outline.lines (outline : Outline) : List Line :=
  [.title outline.fileName] ++
    outline.comment.toList.map (fun comment => .preformatted ("// " ++ comment)) ++
    outline.nodes.flatMap Node.lines

end HeaderSynopsis.Report
