import HeaderSynopsis.Declaration.Types

namespace HeaderSynopsis.Declaration

structure Parameter where
  name : Option String
  type : CppType
  default : Option Expression
  -- Whether it stands for any number of parameters.
  pack : Bool

inductive Body where
  | declaration
  | defaulted
  | deleted
  | pure
  -- Statements in braces, each kept as its spelling.
  | statements (lines : List String)
deriving DecidableEq, Repr

/-- A function, a member function, a constructor or a destructor. The last two have no result. -/
structure FunctionDecl where
  parameters : List Parameter := []
  result : Option CppType := none
  body : Body := .declaration
  variadic : Bool := false
  isStatic : Bool := false
  isConstexpr : Bool := false
  isVirtual : Bool := false
  isExplicit : Bool := false
  isConst : Bool := false
  isNoexcept : Bool := false
  isOverride : Bool := false
  isFinal : Bool := false

def Body.isDefinition : Body → Bool
  | .statements _ => true
  | _ => false

def Body.lines : Body → List String
  | .statements lines => lines
  | _ => []

inductive ClassKey where
  | classKey
  | structKey
  | unionKey
deriving DecidableEq, Repr

def ClassKey.word : ClassKey → String
  | .classKey => "class"
  | .structKey => "struct"
  | .unionKey => "union"

inductive Access where
  | publicAccess
  | protectedAccess
  | privateAccess
deriving DecidableEq, Repr

def Access.word : Access → String
  | .publicAccess => "public"
  | .protectedAccess => "protected"
  | .privateAccess => "private"

structure BaseClass where
  type : CppType
  access : Option Access
  isVirtual : Bool

inductive Storage where
  | automatic
  | static
  | external
  | threadLocal
deriving DecidableEq, Repr

def Storage.word? : Storage → Option String
  | .automatic => none
  | .static => some "static"
  | .external => some "extern"
  | .threadLocal => some "thread_local"

inductive EntityKind where
  | file
  | inclusion (target : String) (system : Bool)
  | macroDefinition (parameters : Option (List String)) (replacement : String)
  | namespaceScope (isInline : Bool)
  | namespaceAlias (target : Reference)
  | usingDirective (target : Reference)
  | usingDeclaration (target : Reference)
  | typeAlias (aliased : CppType)
  | enumeration (isScoped : Bool) (underlying : Option CppType) (forward : Bool)
  | enumerator (value : Option Expression)
  | classType (keyword : ClassKey) (isFinal : Bool) (bases : List BaseClass) (forward : Bool)
  | accessLabel (access : Access)
  | variableDecl (type : CppType) (default : Option Expression) (storage : Storage)
      (isConstexpr : Bool)
  | fieldDecl (type : CppType) (default : Option Expression) (isMutable : Bool)
      (bits : Option UInt32)
  | functionDecl (function : FunctionDecl)

namespace EntityKind

def word : EntityKind → String
  | file => "file"
  | inclusion .. => "include"
  | macroDefinition .. => "macro"
  | namespaceScope .. => "namespace"
  | namespaceAlias .. => "namespace_alias"
  | usingDirective .. => "using_directive"
  | usingDeclaration .. => "using_declaration"
  | typeAlias .. => "alias"
  | enumeration .. => "enum"
  | enumerator .. => "enumerator"
  | classType .. => "class"
  | accessLabel .. => "access"
  | variableDecl .. => "variable"
  | fieldDecl .. => "field"
  | functionDecl .. => "function"

def words : List String :=
  ["file", "include", "macro", "namespace", "namespace_alias", "using_directive",
    "using_declaration", "alias", "enum", "enumerator", "class", "access", "variable", "field",
    "function"]

theorem word_mem_words (kind : EntityKind) : kind.word ∈ words := by
  cases kind <;> simp [word, words]

def isAnonymous : EntityKind → Bool
  | file | inclusion .. | accessLabel .. | usingDirective .. | usingDeclaration .. => true
  | _ => false

def acceptsChildren : EntityKind → Bool
  | file | namespaceScope .. => true
  | classType _ _ _ forward | enumeration _ _ forward => !forward
  | _ => false

def mayBeUnnamed : EntityKind → Bool
  | namespaceScope .. | classType .. | enumeration .. => true
  | _ => false

end EntityKind

/-- A node of the tree of declarations. Only what holds others has children of consequence. -/
structure Entity where
  id : Id
  name : String
  kind : EntityKind
  template : Option TemplateHead
  comment : Option String
  children : List Entity

namespace Entity

/-- Whether something may be written inside the entity: its children or the body of a function. -/
def isContainer (entity : Entity) : Bool :=
  match entity.kind with
  | .file | .namespaceScope .. => true
  | .classType _ _ _ forward | .enumeration _ _ forward => !forward
  | .functionDecl function => function.body.isDefinition
  | _ => false

/-- Whether the entity ends in a line break of its own. A file only joins its children. -/
def occupiesLine (entity : Entity) : Bool :=
  match entity.kind with
  | .file => false
  | _ => true

def ofKind (kind : EntityKind) (name : String) : Entity :=
  ⟨⟨name⟩, name, kind, none, none, []⟩

mutual

def walk : Entity → List Entity
  | entity@⟨_, _, _, _, _, children⟩ => entity :: walkAll children

def walkAll : List Entity → List Entity
  | [] => []
  | entity :: rest => entity.walk ++ walkAll rest

end

theorem walkAll_append (entities later : List Entity) :
    walkAll (entities ++ later) = walkAll entities ++ walkAll later := by
  induction entities with
  | nil => rfl
  | cons entity rest ih => rw [List.cons_append, walkAll, walkAll, ih, List.append_assoc]

theorem walkAll_cons (entity : Entity) (later : List Entity) :
    walkAll (entity :: later) = entity :: walkAll (entity.children ++ later) := by
  obtain ⟨id, name, kind, template, comment, children⟩ := entity
  rw [walkAll, walk, walkAll_append, List.cons_append]

/-- The same walk with a stack. The entity on top of it is visited and makes room for its
children. -/
def walkStack : (stack : List Entity) → List Entity
  | [] => []
  | entity :: later => entity :: walkStack (entity.children ++ later)
  termination_by stack => (walkAll stack).length
  decreasing_by
    rw [walkAll_cons]
    exact Nat.lt_succ_self _

end Entity

end HeaderSynopsis.Declaration
