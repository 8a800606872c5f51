namespace HeaderSynopsis.Declaration

structure Id where
  text : String
deriving DecidableEq, Repr

def segmentFromEnd : List Char → List Char
  | [] => []
  | ':' :: ':' :: _ => []
  | c :: rest => c :: segmentFromEnd rest

namespace Id

def unqualified (id : Id) : String :=
  String.ofList (segmentFromEnd id.text.toList.reverse).reverse

/-- The identity of what is called `name` inside this entity. The empty identity adds nothing. -/
def child (id : Id) (name : String) : Id :=
  if id.text = "" then ⟨name⟩ else ⟨id.text ++ "::" ++ name⟩

@[simp]
theorem child_empty (name : String) : child ⟨""⟩ name = ⟨name⟩ := by
  simp [child]

end Id

/-- A link from a piece of text to one or more declarations. Several targets stand for an overload
set or for several declarations of one thing. -/
structure Reference where
  targets : List Id
  name : String
deriving DecidableEq, Repr

namespace Reference

def toTargets (targets : List Id) : Reference :=
  ⟨targets, (targets.head?.map Id.unqualified).getD ""⟩

def toTarget (target : Id) : Reference := toTargets [target]

end Reference

end HeaderSynopsis.Declaration
