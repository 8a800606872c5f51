import HeaderSynopsis.Generation.Generator
import HeaderSynopsis.Proofs.Writing.FaintLines
import HeaderSynopsis.Proofs.Writing.Types

namespace HeaderSynopsis.Text

/-- The pieces of a spelling that begin a line of their own. The first one does not if something can
be seen before it. -/
def ownPieces (seen : Bool) (spelling : String) : List String :=
  if seen then (pieces spelling).tail else pieces spelling

def lonePieces (seen : Bool) (spelling : String) : List String := (ownPieces seen spelling).dropLast

end HeaderSynopsis.Text

namespace HeaderSynopsis.Declaration

open Generation Text

/-- The lines that an expression has to itself. There is always something before it. -/
def Expression.loneLines : Expression → List String
  | .literal .. => []
  | .verbatim spelling => lonePieces true spelling

def optionalLines (value : Option Expression) : List String :=
  (value.map Expression.loneLines).getD []

mutual

/-- The lines that a type has to itself before and behind the declared name. A qualifier before the
type can be seen. -/
def CppType.loneParts : CppType → Bool → List String × List String
  | .builtin _, _ => ([], [])
  | .named _, _ => ([], [])
  | .verbatim spelling, seen => (lonePieces seen spelling, [])
  | .const inner, seen =>
      ((inner.loneParts (seen || !inner.isPointer)).1 ++
        (inner.loneParts (seen || !inner.isPointer)).2, [])
  | .volatile inner, seen =>
      ((inner.loneParts (seen || !inner.isPointer)).1 ++
        (inner.loneParts (seen || !inner.isPointer)).2, [])
  | .pointer inner, seen => ((inner.loneParts seen).1 ++ (inner.loneParts seen).2, [])
  | .lvalueRef inner, seen => ((inner.loneParts seen).1 ++ (inner.loneParts seen).2, [])
  | .rvalueRef inner, seen => ((inner.loneParts seen).1 ++ (inner.loneParts seen).2, [])
  | .array element size, seen =>
      ((element.loneParts seen).1, optionalLines size ++ (element.loneParts seen).2)
  | .instantiation _ arguments, _ => (TemplateArgument.allLoneLines arguments, [])

def TemplateArgument.allLoneLines : List TemplateArgument → List String
  | [] => []
  | argument :: rest => argument.loneLines ++ TemplateArgument.allLoneLines rest

def TemplateArgument.loneLines : TemplateArgument → List String
  | .type type => (type.loneParts true).1 ++ (type.loneParts true).2
  | .value value => value.loneLines
  | .template _ => []

end

def CppType.loneLines (type : CppType) (seen : Bool) : List String :=
  (type.loneParts seen).1 ++ (type.loneParts seen).2

def Parameter.loneLines (parameter : Parameter) : List String :=
  parameter.type.loneLines true ++ optionalLines parameter.default

mutual

def TemplateParameter.loneLines : TemplateParameter → List String
  | .type _ _ _ default => (default.map (·.loneLines true)).getD []
  | .value _ holds _ default => holds.loneLines true ++ optionalLines default
  | .template _ parameters _ _ => TemplateParameter.allLoneLines parameters

def TemplateParameter.allLoneLines : List TemplateParameter → List String
  | [] => []
  | parameter :: rest => parameter.loneLines ++ TemplateParameter.allLoneLines rest

end

def TemplateHead.loneLines : TemplateHead → List String
  | .primary parameters => TemplateParameter.allLoneLines parameters
  | .specialization _ => []

def specializationLines : Option TemplateHead → List String
  | some (.specialization special) => TemplateArgument.allLoneLines special.arguments
  | _ => []

def FunctionDecl.hasLeadingWord (function : FunctionDecl) : Bool :=
  [function.isStatic, function.isConstexpr, function.isVirtual, function.isExplicit].any id

/-- The last line of a replacement, unless it is the first one, too. The others are continued. -/
def replacementEnd (replacement : String) : List String :=
  (lines replacement).tail.getLast?.toList

namespace Entity

def signatureLines (entity : Entity) : List String :=
  match entity.kind with
  | .typeAlias aliased => aliased.loneLines true
  | .enumeration _ underlying _ => (underlying.map (·.loneLines true)).getD []
  | .enumerator value => optionalLines value
  | .classType .. => if entity.name = "" then [] else specializationLines entity.template
  | .variableDecl type default storage isConstexpr =>
      type.loneLines (storage.word?.isSome || isConstexpr) ++ optionalLines default
  | .fieldDecl type default isMutable _ => type.loneLines isMutable ++ optionalLines default
  | .functionDecl function =>
      ((function.result.map (·.loneLines function.hasLeadingWord)).getD []) ++
        specializationLines entity.template ++ function.parameters.flatMap Parameter.loneLines
  | _ => []

/-- Those before the children of a definition: the bases of a class, and every line of a body. -/
def openingLines (entity : Entity) : List String :=
  match entity.kind with
  | .classType _ _ bases _ => bases.flatMap (·.type.loneLines true)
  | .functionDecl function => function.body.lines.flatMap pieces
  | _ => []

def endLines (entity : Entity) : List String :=
  match entity.kind with
  | .macroDefinition _ replacement => replacementEnd replacement
  | _ => []

/-- The lines that the spellings of an entity have to themselves, as far as they are shown. Those of
its children are left out. -/
def loneLines (entity : Entity) (detail : Detail) : List String :=
  if detail = .omitted then []
  else
    (entity.template.map TemplateHead.loneLines).getD [] ++ entity.signatureLines ++
      if detail = .definition ∧ entity.isContainer then entity.openingLines else entity.endLines

end Entity

theorem TemplateArgument.allLoneLines_eq (arguments : List TemplateArgument) :
    TemplateArgument.allLoneLines arguments = arguments.flatMap TemplateArgument.loneLines := by
  induction arguments with
  | nil => rfl
  | cons argument rest ih => rw [TemplateArgument.allLoneLines, ih, List.flatMap_cons]

theorem TemplateParameter.allLoneLines_eq (parameters : List TemplateParameter) :
    TemplateParameter.allLoneLines parameters =
      parameters.flatMap TemplateParameter.loneLines := by
  induction parameters with
  | nil => rfl
  | cons parameter rest ih => rw [TemplateParameter.allLoneLines, ih, List.flatMap_cons]

end HeaderSynopsis.Declaration

namespace HeaderSynopsis.Writing

open Declaration LineLook Text

-- Types and expressions may consist of texts that cannot be seen, but every bracket and every comma
-- can, so that faint lines do not get past them.

theorem leaves_equalsWrites : Leaves Any equalsWrites [] (Seen true) := .of_isSeen rfl rfl

/-- Runs of tokens with line breaks between them. A run is alone on its line if it begins one, and
the last of them is left on the current line. -/
theorem leaves_runs (runs : List String) (seen : Bool) :
    Leaves (Seen seen) ([.lineBreak].intercalate (runs.map runWrites))
      (if seen then runs.tail else runs).dropLast
      (Ends (if seen then runs.tail else runs).getLast?.toList) := by
  induction runs generalizing seen with
  | nil =>
    have hnil : Leaves (Seen seen) [] [] (Ends []) := .nil fun _ => Seen.ends
    cases seen <;> exact hnil
  | cons run rest ih =>
    have hrun := Leaves.run .tokenSeq run seen
    cases rest with
    | nil =>
      rw [List.map_singleton, List.intercalate_singleton]
      cases seen <;> exact hrun
    | cons next others =>
      -- Only the first run goes on from the line before; the one behind it begins a blank line.
      have hended := hrun.append .lineBreak
      have hrest := ih false
      rw [List.map_cons, List.map_cons, List.intercalate_cons_cons]
      cases seen <;> exact hended.append hrest

theorem leaves_verbatimWrites (spelling : String) (seen : Bool) :
    Leaves (Seen seen) (verbatimWrites spelling) (lonePieces seen spelling) Any :=
  (leaves_runs (pieces spelling) seen).weaken (fun _ => id) fun _ _ => trivial

-- Of three lines the second is always alone, the first only at the beginning of a line.
example : lonePieces true "a\n \nb" = [" "] ∧ lonePieces false "a\n \nb" = ["a", " "] := by
  decide

theorem leaves_expression (value : Expression) :
    Leaves (Seen true) value.writes value.loneLines Any := by
  cases value with
  | literal kind text => exact .of_isInline rfl
  | verbatim spelling => exact leaves_verbatimWrites spelling true

theorem leaves_boundWrites (size : Option Expression) :
    Leaves Any (boundWrites size) (optionalLines size) (Seen true) := by
  have hopen : Leaves Any [.punctuation "["] [] (Seen true) := .of_isSeen rfl rfl
  have hsize : Leaves (Seen true) ((size.map Expression.writes).getD []) (optionalLines size) Any :=
    .optional (fun _ => Seen.any) leaves_expression
  have hclose : Leaves Any [.punctuation "]"] [] (Seen true) := .of_isSeen rfl rfl
  exact (hopen.append hsize).append_nil hclose

theorem leaves_initializerWrites (value : Option Expression) :
    Leaves Any (initializerWrites value) (optionalLines value) Any := by
  cases value with
  | none => exact .nil fun _ => id
  | some value => exact leaves_equalsWrites.append (leaves_expression value)

theorem leaves_nameWrites (name : String) : Leaves Any (nameWrites name) [] Any := by
  unfold nameWrites
  split
  · exact .of_isInline rfl
  · exact .of_isInline rfl

theorem leaves_packWrites (pack : Bool) : Leaves Any (packWrites pack) [] Any := by
  cases pack with
  | false => exact .of_isInline rfl
  | true => exact .of_isInline rfl

theorem leaves_wordAndSpace {word : String} (h : isVisible word.toList = true)
    {before : LineLook → Prop} : Leaves before [.keyword word, .space] [] (Seen true) :=
  .of_isSeen rfl (by simp [Write.isSeen, Write.keyword, h])

/-- A qualifier before a type can be seen. -/
theorem leaves_qualified {word : String} (hw : isVisible word.toList = true) (behind seen : Bool)
    {inner : List Write} {lines : List String}
    (h : Leaves (Seen (seen || !behind)) inner lines Any) :
    Leaves (Seen seen) (qualified word behind inner) lines Any := by
  cases behind with
  | true =>
    rw [Bool.not_true, Bool.or_false] at h
    exact h.append_nil (.of_isInline rfl)
  | false =>
    rw [Bool.not_false, Bool.or_true] at h
    exact (leaves_wordAndSpace hw).append h

/-- An argument is written as well as the type in it, if it has one. -/
theorem leaves_argument_of {argument : TemplateArgument}
    (ht : ∀ type, argument = .type type →
      Leaves (Seen true) type.writes (type.loneLines true) Any) :
    Leaves (Seen true) argument.writes argument.loneLines Any := by
  cases argument with
  | type type => exact ht type rfl
  | value value => exact leaves_expression value
  | template target => exact .of_isInline rfl

theorem leaves_parts (type : CppType) (seen : Bool) :
    Leaves (Seen seen) type.parts.1 (type.loneParts seen).1 Any ∧
      Leaves Any type.parts.2 (type.loneParts seen).2 Any := by
  have hnone : Leaves Any [] [] Any := .nil fun _ => id
  induction type using CppType.type_induction generalizing seen with
  | builtin spelling => exact ⟨.of_isInline rfl, hnone⟩
  | named target => exact ⟨.of_isInline rfl, hnone⟩
  | verbatim spelling => exact ⟨leaves_verbatimWrites spelling seen, hnone⟩
  | const inner ih | volatile inner ih =>
    have hinner := ih (seen || !inner.isPointer)
    exact ⟨leaves_qualified rfl _ _ (hinner.1.append hinner.2), hnone⟩
  | pointer inner ih | lvalueRef inner ih | rvalueRef inner ih =>
    exact ⟨((ih seen).1.append (ih seen).2).append_nil (.of_isInline rfl), hnone⟩
  | array element size ih =>
    have hbound : Leaves Any (boundWrites size) (optionalLines size) Any :=
      (leaves_boundWrites size).weaken (fun _ => id) fun _ => Seen.any
    exact ⟨(ih seen).1, hbound.append (ih seen).2⟩
  | instantiation template arguments ih =>
    have hopen : Leaves (Seen seen) [.link template, .punctuation "<"] [] (Seen true) :=
      .of_isSeen rfl (by simp [Write.isSeen, Write.link, Write.punctuation, isVisible])
    have hitems : Leaves (Seen true) (separated (TemplateArgument.allWrites arguments))
        (TemplateArgument.allLoneLines arguments) Any := by
      rw [TemplateArgument.allWrites_eq, TemplateArgument.allLoneLines_eq]
      refine .separated fun argument ha => leaves_argument_of fun type ht => ?_
      have hi := ih type (ht ▸ ha) true
      exact hi.1.append hi.2
    exact ⟨(hopen.append hitems).append_nil (.of_isInline rfl), hnone⟩

theorem leaves_type (type : CppType) (seen : Bool) :
    Leaves (Seen seen) type.writes (type.loneLines seen) Any :=
  (leaves_parts type seen).1.append (leaves_parts type seen).2

theorem leaves_argumentWrites (arguments : List TemplateArgument) :
    Leaves (Seen true) (argumentWrites arguments) (TemplateArgument.allLoneLines arguments)
      Any := by
  rw [argumentWrites, TemplateArgument.allWrites_eq, TemplateArgument.allLoneLines_eq]
  exact .separated fun argument _ => leaves_argument_of fun type _ => leaves_type type true

theorem leaves_declaratorWrites (type : CppType) (name : Option String) (pack seen : Bool) :
    Leaves (Seen seen) (declaratorWrites type name pack) (type.loneLines seen) Any :=
  (((leaves_parts type seen).1.append_nil (leaves_packWrites pack)).append_nil
    (leaves_nameWrites _)).append (leaves_parts type seen).2

theorem leaves_parameter (parameter : Parameter) :
    Leaves (Seen true) parameter.writes parameter.loneLines Any :=
  (leaves_declaratorWrites _ _ _ true).append (leaves_initializerWrites _)

theorem leaves_defaultWrites {α : Type} {writes : α → List Write} {lines : α → List String}
    (default : Option α) (h : ∀ value, Leaves (Seen true) (writes value) (lines value) Any) :
    Leaves Any (defaultWrites writes default) ((default.map lines).getD []) Any := by
  cases default with
  | none => exact .nil fun _ => id
  | some value => exact leaves_equalsWrites.append (h value)

theorem leaves_templateOpening {before : LineLook → Prop} :
    Leaves before [.keyword "template", .space, .punctuation "<"] [] (Seen true) :=
  .of_isSeen rfl rfl

theorem leaves_templateParameter (parameter : TemplateParameter) :
    Leaves (Seen true) parameter.writes parameter.loneLines Any := by
  induction parameter using TemplateParameter.parameter_induction with
  | type name keyword variadic default =>
    have hkeyword : Leaves (Seen true) [.keyword keyword.word] [] Any := .of_isInline rfl
    exact ((hkeyword.append (leaves_packWrites variadic)).append (leaves_nameWrites name)).append
      (leaves_defaultWrites default fun type => leaves_type type true)
  | value name holds variadic default =>
    exact (((leaves_type holds true).append_nil (leaves_packWrites variadic)).append_nil
      (leaves_nameWrites name)).append (leaves_initializerWrites default)
  | template name parameters variadic default ih =>
    have hitems : Leaves (Seen true) (separated (TemplateParameter.allWrites parameters))
        (TemplateParameter.allLoneLines parameters) Any := by
      rw [TemplateParameter.allWrites_eq, TemplateParameter.allLoneLines_eq]
      exact .separated ih
    have hclose : Leaves Any [.punctuation ">", .space, .keyword "class"] [] Any :=
      .of_isInline rfl
    have hdefault : Leaves Any (defaultWrites (fun target => [.link target]) default) [] Any := by
      cases default with
      | none => exact .of_isInline rfl
      | some target => exact .of_isInline rfl
    exact ((((leaves_templateOpening.append hitems).append_nil hclose).append_nil
      (leaves_packWrites variadic)).append_nil (leaves_nameWrites name)).append_nil hdefault

theorem leaves_templateWrites (parameters : List TemplateParameter) {before : LineLook → Prop} :
    Leaves before (templateWrites parameters) (TemplateParameter.allLoneLines parameters)
      (Seen true) := by
  have hitems : Leaves (Seen true) (separated (TemplateParameter.allWrites parameters))
      (TemplateParameter.allLoneLines parameters) Any := by
    rw [TemplateParameter.allWrites_eq, TemplateParameter.allLoneLines_eq]
    exact .separated fun parameter _ => leaves_templateParameter parameter
  have hclose : Leaves Any [.punctuation ">"] [] (Seen true) := .of_isSeen rfl rfl
  exact (leaves_templateOpening.append hitems).append_nil hclose

end HeaderSynopsis.Writing
