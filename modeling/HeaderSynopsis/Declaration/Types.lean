import HeaderSynopsis.Declaration.Reference

namespace HeaderSynopsis.Declaration

inductive LiteralKind where
  | int
  | float
  | string
  | char
  | bool
deriving DecidableEq, Repr

inductive Expression where
  | literal (kind : LiteralKind) (text : String)
  | verbatim (spelling : String)
deriving DecidableEq, Repr

def Expression.int (value : Int) : Expression := .literal .int (toString value)

mutual

inductive CppType where
  -- A type spelled with keywords.
  | builtin (spelling : String)
  | named (target : Reference)
  | verbatim (spelling : String)
  | const (inner : CppType)
  | volatile (inner : CppType)
  | pointer (inner : CppType)
  | lvalueRef (inner : CppType)
  | rvalueRef (inner : CppType)
  | array (element : CppType) (size : Option Expression)
  | instantiation (template : Reference) (arguments : List TemplateArgument)

inductive TemplateArgument where
  | type (type : CppType)
  | value (value : Expression)
  | template (template : Reference)

end

def CppType.isPointer : CppType → Bool
  | .pointer _ => true
  | _ => false

inductive TypeKeyword where
  | typename
  | classKey
deriving DecidableEq, Repr

def TypeKeyword.word : TypeKeyword → String
  | .typename => "typename"
  | .classKey => "class"

inductive TemplateParameter where
  | type (name : String) (keyword : TypeKeyword) (variadic : Bool) (default : Option CppType)
  | value (name : String) (type : CppType) (variadic : Bool) (default : Option Expression)
  | template (name : String) (parameters : List TemplateParameter) (variadic : Bool)
      (default : Option Reference)

def TemplateParameter.name : TemplateParameter → String
  | .type name .. | .value name .. | .template name .. => name

structure Specialization where
  template : Reference
  arguments : List TemplateArgument

inductive TemplateHead where
  | primary (parameters : List TemplateParameter)
  | specialization (specialization : Specialization)

end HeaderSynopsis.Declaration
