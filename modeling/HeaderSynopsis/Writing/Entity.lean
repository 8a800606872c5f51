import HeaderSynopsis.Writing.Types

namespace HeaderSynopsis.Declaration

open Writing

/-- The template head on a line of its own. A full specialization has no parameters. -/
def TemplateHead.writes : TemplateHead → List Write
  | .primary parameters => templateWrites parameters ++ [.lineBreak]
  | .specialization _ =>
      [.keyword "template", .space, .punctuation "<", .punctuation ">", .lineBreak]

def specializationWrites : Option TemplateHead → List Write
  | some (.specialization special) =>
      [.punctuation "<"] ++ argumentWrites special.arguments ++ [.punctuation ">"]
  | _ => []

def leadingWords (words : List (Bool × String)) : List Write :=
  words.flatMap fun (kept, word) => if kept then [.keyword word, .space] else []

def trailingWords (words : List (Bool × String)) : List Write :=
  words.flatMap fun (kept, word) => if kept then [.space, .keyword word] else []

def variadicWrites (parameters : List Parameter) (variadic : Bool) : List Write :=
  if variadic then
    (if parameters.isEmpty then [] else commaWrites) ++ [.punctuation "..."]
  else []

/-- The signature of a function; `name` are the steps for its name. -/
def FunctionDecl.writes (function : FunctionDecl) (name : List Write) : List Write :=
  leadingWords [(function.isStatic, "static"), (function.isConstexpr, "constexpr"),
    (function.isVirtual, "virtual"), (function.isExplicit, "explicit")] ++
  ((function.result.map fun result => result.writes ++ [.space]).getD []) ++ name ++
  [.punctuation "("] ++ separated (function.parameters.map Parameter.writes) ++
  variadicWrites function.parameters function.variadic ++ [.punctuation ")"] ++
  trailingWords [(function.isConst, "const"), (function.isNoexcept, "noexcept"),
    (function.isOverride, "override"), (function.isFinal, "final")]

def continuedWrites : List String → List Write
  | [] => []
  | [line] => if line = "" then [] else [.preprocessor line]
  | line :: rest =>
      (if line = "" then [] else [.preprocessor line, .space]) ++
        [.preprocessor "\\", .lineBreak] ++ continuedWrites rest

/-- What a macro stands for, after a blank; nothing if it is empty. -/
def replacementWrites (replacement : String) : List Write :=
  if replacement = "" then [] else [.space] ++ continuedWrites (Text.lines replacement)

def macroParameterWrites : Option (List String) → List Write
  | none => []
  | some names =>
      [.preprocessor "("] ++
        [.preprocessor ","].intercalate (names.map fun name => [.preprocessor name]) ++
        [.preprocessor ")"]

def baseWrites (bases : List BaseClass) : List Write :=
  if bases.isEmpty then []
  else
    [.space, .punctuation ":", .space] ++
      separated (bases.map fun base =>
        leadingWords [(base.isVirtual, "virtual")] ++
          ((base.access.map fun access => [.keyword access.word, .space]).getD []) ++
          base.type.writes)

namespace Entity

def specializedName (entity : Entity) : List Write :=
  [.identifier entity.name] ++ specializationWrites entity.template

def signature (entity : Entity) : List Write :=
  match entity.kind with
  | .file => []
  | .inclusion target system =>
      [.preprocessor "#include", .space,
        .preprocessor (if system then "<" ++ target ++ ">" else "\"" ++ target ++ "\"")]
  | .macroDefinition parameters replacement =>
      [.preprocessor "#define", .space, .preprocessor entity.name] ++
        macroParameterWrites parameters ++ replacementWrites replacement
  | .namespaceScope isInline =>
      leadingWords [(isInline, "inline")] ++ [.keyword "namespace"] ++ nameWrites entity.name
  | .namespaceAlias target =>
      [.keyword "namespace", .space, .identifier entity.name] ++ equalsWrites ++ [.link target]
  | .usingDirective target =>
      [.keyword "using", .space, .keyword "namespace", .space, .link target]
  | .usingDeclaration target => [.keyword "using", .space, .link target]
  | .typeAlias aliased =>
      [.keyword "using", .space, .identifier entity.name] ++ equalsWrites ++ aliased.writes
  | .enumeration isScoped underlying _ =>
      [.keyword "enum"] ++ trailingWords [(isScoped, "class")] ++ nameWrites entity.name ++
        ((underlying.map fun type => [.space, .punctuation ":", .space] ++ type.writes).getD [])
  | .enumerator value => [.identifier entity.name] ++ initializerWrites value
  | .classType keyword _ _ _ =>
      [.keyword keyword.word] ++
        if entity.name = "" then [] else [.space] ++ entity.specializedName
  | .accessLabel access => [.unindent, .keyword access.word, .punctuation ":"]
  | .variableDecl type default storage isConstexpr =>
      ((storage.word?.map fun word => [.keyword word, .space]).getD []) ++
        leadingWords [(isConstexpr, "constexpr")] ++
        declaratorWrites type (some entity.name) false ++ initializerWrites default
  | .fieldDecl type default isMutable bits =>
      leadingWords [(isMutable, "mutable")] ++ declaratorWrites type (some entity.name) false ++
        ((bits.map fun n =>
          [.space, .punctuation ":", .space, .token .intLiteral (toString n.toNat)]).getD []) ++
        initializerWrites default
  | .functionDecl function => function.writes entity.specializedName

def head (entity : Entity) : List Write :=
  ((entity.template.map TemplateHead.writes).getD []) ++ entity.signature

def openBrace : List Write := [.space, .punctuation "\x7b", .indent, .lineBreak]

def statementWrites (lines : List String) : List Write :=
  lines.flatMap fun line => verbatimWrites line ++ [.lineBreak]

/-- What stands between the head of a definition and its children. The statements of a function
stand in for children. -/
def opening (entity : Entity) : List Write :=
  match entity.kind with
  | .namespaceScope .. | .enumeration .. => openBrace
  | .classType _ isFinal bases _ =>
      trailingWords [(isFinal, "final")] ++ baseWrites bases ++ openBrace
  | .functionDecl function =>
      if function.body.lines.isEmpty then [.space, .punctuation "\x7b"]
      else openBrace ++ statementWrites function.body.lines
  | _ => []

def closing (entity : Entity) : List Write :=
  match entity.kind with
  | .namespaceScope .. => [.unindent, .punctuation "\x7d"]
  | .classType .. | .enumeration .. => [.unindent, .punctuation "\x7d", .punctuation ";"]
  | .functionDecl function =>
      (if function.body.lines.isEmpty then [] else [.unindent]) ++ [.punctuation "\x7d"]
  | _ => []

def bodyMark : Body → List Write
  | .defaulted => equalsWrites ++ [.keyword "default"]
  | .deleted => equalsWrites ++ [.keyword "delete"]
  | .pure => equalsWrites ++ [.token .intLiteral "0"]
  | .declaration | .statements _ => []

def declarationEnd (entity : Entity) : List Write :=
  match entity.kind with
  | .file | .inclusion .. | .macroDefinition .. => []
  | .namespaceScope .. => [.space, .punctuation "\x7b", .punctuation "\x7d"]
  | .enumerator .. => [.punctuation ","]
  | .accessLabel .. => [.indent]
  | .functionDecl function => bodyMark function.body ++ [.punctuation ";"]
  | _ => [.punctuation ";"]

def lineEnd (entity : Entity) : List Write :=
  if entity.occupiesLine then [.lineBreak] else []

end Entity

end HeaderSynopsis.Declaration
