import HeaderSynopsis.Declaration.Entity
import HeaderSynopsis.Writing.Write

namespace HeaderSynopsis.Declaration

open Writing

def LiteralKind.tokenKind : LiteralKind → TokenKind
  | .int => .intLiteral
  | .float => .floatLiteral
  | .string | .char => .strLiteral
  | .bool => .keyword

def Expression.writes : Expression → List Write
  | .literal kind text => [.token kind.tokenKind text]
  | .verbatim spelling => verbatimWrites spelling

def boundWrites (size : Option Expression) : List Write :=
  [.punctuation "["] ++ ((size.map Expression.writes).getD []) ++ [.punctuation "]"]

def equalsWrites : List Write := [.space, .punctuation "=", .space]

def initializerWrites : Option Expression → List Write
  | none => []
  | some value => equalsWrites ++ value.writes

def qualified (word : String) (behind : Bool) (inner : List Write) : List Write :=
  if behind then inner ++ [.space, .keyword word] else [.keyword word, .space] ++ inner

mutual

def CppType.parts : CppType → List Write × List Write
  | .builtin spelling => ([.keyword spelling], [])
  | .named target => ([.link target], [])
  | .verbatim spelling => (verbatimWrites spelling, [])
  | .const inner =>
      (qualified "const" inner.isPointer (inner.parts.1 ++ inner.parts.2), [])
  | .volatile inner =>
      (qualified "volatile" inner.isPointer (inner.parts.1 ++ inner.parts.2), [])
  | .pointer inner => (inner.parts.1 ++ inner.parts.2 ++ [.punctuation "*"], [])
  | .lvalueRef inner => (inner.parts.1 ++ inner.parts.2 ++ [.punctuation "&"], [])
  | .rvalueRef inner => (inner.parts.1 ++ inner.parts.2 ++ [.punctuation "&&"], [])
  | .array element size => (element.parts.1, boundWrites size ++ element.parts.2)
  | .instantiation template arguments =>
      ([.link template, .punctuation "<"] ++
        separated (TemplateArgument.allWrites arguments) ++ [.punctuation ">"], [])

def TemplateArgument.allWrites : List TemplateArgument → List (List Write)
  | [] => []
  | argument :: rest => argument.writes :: TemplateArgument.allWrites rest

def TemplateArgument.writes : TemplateArgument → List Write
  | .type type => type.parts.1 ++ type.parts.2
  | .value value => value.writes
  | .template template => [.link template]

end

def CppType.writes (type : CppType) : List Write := type.parts.1 ++ type.parts.2

def argumentWrites (arguments : List TemplateArgument) : List Write :=
  separated (TemplateArgument.allWrites arguments)

def nameWrites (name : String) : List Write :=
  if name = "" then [] else [.space, .identifier name]

def packWrites (pack : Bool) : List Write := if pack then [.punctuation "..."] else []

def declaratorWrites (type : CppType) (name : Option String) (pack : Bool) : List Write :=
  type.parts.1 ++ packWrites pack ++ nameWrites (name.getD "") ++ type.parts.2

def Parameter.writes (parameter : Parameter) : List Write :=
  declaratorWrites parameter.type parameter.name parameter.pack ++
    initializerWrites parameter.default

def defaultWrites {α : Type} (writes : α → List Write) : Option α → List Write
  | none => []
  | some value => equalsWrites ++ writes value

mutual

def TemplateParameter.writes : TemplateParameter → List Write
  | .type name keyword variadic default =>
      [.keyword keyword.word] ++ packWrites variadic ++ nameWrites name ++
        defaultWrites CppType.writes default
  | .value name holds variadic default =>
      holds.writes ++ packWrites variadic ++ nameWrites name ++ initializerWrites default
  | .template name parameters variadic default =>
      [.keyword "template", .space, .punctuation "<"] ++
        separated (TemplateParameter.allWrites parameters) ++
        [.punctuation ">", .space, .keyword "class"] ++ packWrites variadic ++ nameWrites name ++
        defaultWrites (fun template => [.link template]) default

def TemplateParameter.allWrites : List TemplateParameter → List (List Write)
  | [] => []
  | parameter :: rest => parameter.writes :: TemplateParameter.allWrites rest

end

def templateWrites (parameters : List TemplateParameter) : List Write :=
  [.keyword "template", .space, .punctuation "<"] ++
    separated (TemplateParameter.allWrites parameters) ++ [.punctuation ">"]

end HeaderSynopsis.Declaration
