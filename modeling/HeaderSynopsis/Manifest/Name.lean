namespace HeaderSynopsis.Manifest

def reservedWords : List String :=
  ["alignas", "alignof", "and", "and_eq", "asm", "auto", "bitand", "bitor", "bool", "break",
    "case", "catch", "char", "char8_t", "char16_t", "char32_t", "class", "compl", "concept",
    "const", "consteval", "constexpr", "constinit", "const_cast", "continue", "co_await",
    "co_return", "co_yield", "decltype", "default", "delete", "do", "double", "dynamic_cast",
    "else", "enum", "explicit", "export", "extern", "false", "float", "for", "friend", "goto",
    "if", "inline", "int", "long", "mutable", "namespace", "new", "noexcept", "not", "not_eq",
    "nullptr", "operator", "or", "or_eq", "private", "protected", "public", "register",
    "reinterpret_cast", "requires", "return", "short", "signed", "sizeof", "static",
    "static_assert", "static_cast", "struct", "switch", "template", "this", "thread_local",
    "throw", "true", "try", "typedef", "typeid", "typename", "union", "unsigned", "using",
    "virtual", "void", "volatile", "wchar_t", "while", "xor", "xor_eq"]

/-- A letter, digit or underscore; only ASCII ones count. -/
def isNameChar (c : Char) : Bool := c.isAlphanum || c = '_'

def isNameStart (c : Char) : Bool := c.isAlpha || c = '_'

inductive NameFault where
  | reserved
  | empty
  | badStart
  | badChar
deriving DecidableEq, Repr

def identifierFault? : List Char → Option NameFault
  | [] => some .empty
  | c :: rest =>
      if !isNameStart c then some .badStart
      else if rest.all isNameChar then none
      else some .badChar

def after? : (beginning name : List Char) → Option (List Char)
  | [], name => some name
  | _ :: _, [] => none
  | b :: beginning, c :: name => if b = c then after? beginning name else none

def operatorSymbol? (name : List Char) : Option (List Char) :=
  match after? "operator".toList name with
  | some (c :: rest) => if isNameChar c then none else some (c :: rest)
  | _ => none

def withoutTilde : List Char → List Char
  | '~' :: rest => rest
  | name => name

/-- The fault of a name: it is reserved as a whole, or neither names an operator nor is an
identifier, a destructor's tilde aside. -/
def nameFault? (name : String) : Option NameFault :=
  if name ∈ reservedWords then some .reserved
  else if (operatorSymbol? name.toList).isSome then none
  else identifierFault? (withoutTilde name.toList)

end HeaderSynopsis.Manifest
