import HeaderSynopsis.Manifest.Warning
import HeaderSynopsis.Proofs.Generation.Invariants
import HeaderSynopsis.Proofs.Writing.Types
import Mathlib.Data.List.Basic

namespace HeaderSynopsis.Declaration

open Writing Generation

def reference? : Write → Option Reference
  | .reference targets name => some ⟨targets, name⟩
  | _ => none

def links (ws : List Write) : List Reference := ws.filterMap reference?

section

variable (ws vs : List Write) (text : String)

@[simp]
theorem links_nil : links [] = [] := rfl

@[simp]
theorem links_append : links (ws ++ vs) = links ws ++ links vs := List.filterMap_append

@[simp]
theorem links_token (kind : TokenKind) : links (.token kind text :: ws) = links ws := rfl

@[simp]
theorem links_keyword : links (.keyword text :: ws) = links ws := rfl

@[simp]
theorem links_identifier : links (.identifier text :: ws) = links ws := rfl

@[simp]
theorem links_punctuation : links (.punctuation text :: ws) = links ws := rfl

@[simp]
theorem links_preprocessor : links (.preprocessor text :: ws) = links ws := rfl

@[simp]
theorem links_link (target : Reference) : links (.link target :: ws) = target :: links ws := rfl

@[simp]
theorem links_space : links (.space :: ws) = links ws := rfl

@[simp]
theorem links_lineBreak : links (.lineBreak :: ws) = links ws := rfl

@[simp]
theorem links_indent : links (.indent :: ws) = links ws := rfl

@[simp]
theorem links_unindent : links (.unindent :: ws) = links ws := rfl

end

theorem links_flatMap {α : Type} (items : List α) (writes : α → List Write) :
    links (items.flatMap writes) = items.flatMap fun item => links (writes item) :=
  List.filterMap_flatMap

/-- What stands between items has no references. -/
theorem links_intercalate {separator : List Write} (h : links separator = [])
    (items : List (List Write)) : links (separator.intercalate items) = items.flatMap links := by
  induction items with
  | nil => rfl
  | cons item rest ih =>
    cases rest with
    | nil => simp
    | cons next rest =>
      rw [List.intercalate_cons_cons, links_append, links_append, h, ih, List.append_nil]
      rfl

@[simp]
theorem links_separated (items : List (List Write)) :
    links (separated items) = items.flatMap links :=
  links_intercalate rfl items

@[simp]
theorem links_verbatimWrites (spelling : String) : links (verbatimWrites spelling) = [] := by
  have hrun (line : String) : links (runWrites line) = [] := by
    unfold runWrites
    split <;> rfl
  rw [verbatimWrites, links_intercalate rfl, List.flatMap_map]
  exact List.flatMap_eq_nil_iff.mpr fun line _ => hrun line

@[simp]
theorem links_expression (value : Expression) : links value.writes = [] := by
  cases value with
  | literal kind text => rfl
  | verbatim spelling => exact links_verbatimWrites spelling

@[simp]
theorem links_boundWrites (size : Option Expression) : links (boundWrites size) = [] := by
  cases size <;> simp [boundWrites]

@[simp]
theorem links_equalsWrites : links equalsWrites = [] := rfl

@[simp]
theorem links_initializerWrites (value : Option Expression) :
    links (initializerWrites value) = [] := by
  cases value <;> simp [initializerWrites]

@[simp]
theorem links_qualified (word : String) (behind : Bool) (inner : List Write) :
    links (qualified word behind inner) = links inner := by
  cases behind <;> simp [qualified]

@[simp]
theorem links_nameWrites (name : String) : links (nameWrites name) = [] := by
  unfold nameWrites
  split <;> rfl

@[simp]
theorem links_packWrites (pack : Bool) : links (packWrites pack) = [] := by
  cases pack <;> rfl

theorem TemplateArgument.allReferences_eq (arguments : List TemplateArgument) :
    allReferences arguments = arguments.flatMap references := by
  induction arguments with
  | nil => rfl
  | cons argument rest ih => rw [allReferences, ih, List.flatMap_cons]

theorem TemplateParameter.allReferences_eq (parameters : List TemplateParameter) :
    allReferences parameters = parameters.flatMap references := by
  induction parameters with
  | nil => rfl
  | cons parameter rest ih => rw [allReferences, ih, List.flatMap_cons]

/-- A type is written with the references that are collected from it. They all stand before the
declared name. -/
theorem CppType.links_parts (type : CppType) :
    links type.parts.1 = type.references ∧ links type.parts.2 = [] := by
  induction type using type_induction with
  | builtin spelling => exact ⟨rfl, rfl⟩
  | named target => exact ⟨rfl, rfl⟩
  | verbatim spelling => exact ⟨links_verbatimWrites spelling, rfl⟩
  | const inner ih => simp [parts, references, ih]
  | volatile inner ih => simp [parts, references, ih]
  | pointer inner ih => simp [parts, references, ih]
  | lvalueRef inner ih => simp [parts, references, ih]
  | rvalueRef inner ih => simp [parts, references, ih]
  | array element size ih => simp [parts, references, ih]
  | instantiation template arguments ih =>
    have hargument : ∀ argument ∈ arguments, links argument.writes = argument.references := by
      intro argument hm
      cases argument with
      | type type => simp [TemplateArgument.writes, TemplateArgument.references, ih type hm]
      | value value => simp [TemplateArgument.writes, TemplateArgument.references]
      | template template => rfl
    refine ⟨?_, rfl⟩
    simp only [parts, references, List.cons_append, List.nil_append, links_link, links_punctuation,
      links_append, links_separated, links_nil, List.append_nil, TemplateArgument.allWrites_eq,
      TemplateArgument.allReferences_eq, List.flatMap_map]
    exact congrArg _ (List.flatMap_congr hargument)

@[simp]
theorem CppType.links_writes (type : CppType) : links type.writes = type.references := by
  rw [writes, links_append, type.links_parts.1, type.links_parts.2, List.append_nil]

@[simp]
theorem TemplateArgument.links_writes (argument : TemplateArgument) :
    links argument.writes = argument.references := by
  cases argument with
  | type type => exact type.links_writes
  | value value => exact links_expression value
  | template template => rfl

@[simp]
theorem links_argumentWrites (arguments : List TemplateArgument) :
    links (argumentWrites arguments) = TemplateArgument.allReferences arguments := by
  simp only [argumentWrites, links_separated, TemplateArgument.allWrites_eq,
    TemplateArgument.allReferences_eq, List.flatMap_map, TemplateArgument.links_writes]

@[simp]
theorem links_declaratorWrites (type : CppType) (name : Option String) (pack : Bool) :
    links (declaratorWrites type name pack) = type.references := by
  simp [declaratorWrites, type.links_parts]

@[simp]
theorem Parameter.links_writes (parameter : Parameter) :
    links parameter.writes = parameter.type.references := by
  simp [Parameter.writes]

theorem links_defaultWrites {α : Type} {writes : α → List Write} {references : α → List Reference}
    (h : ∀ value, links (writes value) = references value) (default : Option α) :
    links (defaultWrites writes default) = (default.map references).getD [] := by
  cases default <;> simp [defaultWrites, h]

/-- So is a template parameter. -/
@[simp]
theorem TemplateParameter.links_writes (parameter : TemplateParameter) :
    links parameter.writes = parameter.references := by
  induction parameter using parameter_induction with
  | type name keyword variadic default =>
    simp [writes, references, links_defaultWrites CppType.links_writes]
  | value name holds variadic default => simp [writes, references]
  | template name parameters variadic default ih =>
    have hdefault : links (defaultWrites (fun template => [.link template]) default) =
        default.toList := by cases default <;> rfl
    simp only [writes, references, List.cons_append, List.nil_append, links_keyword, links_space,
      links_punctuation, links_append, links_separated, links_packWrites, links_nameWrites, hdefault,
      links_nil, List.append_nil, allWrites_eq, allReferences_eq, List.flatMap_map]
    exact congrArg (· ++ _) (List.flatMap_congr ih)

theorem TemplateHead.links_writes_subset (head : TemplateHead) :
    links head.writes ⊆ head.references := by
  cases head with
  | primary parameters =>
    simp [writes, references, templateWrites, TemplateParameter.allWrites_eq,
      TemplateParameter.allReferences_eq, List.flatMap_map]
  | specialization special => exact List.nil_subset _

@[simp]
theorem links_leadingWords (words : List (Bool × String)) : links (leadingWords words) = [] := by
  rw [leadingWords, links_flatMap, List.flatMap_eq_nil_iff]
  rintro ⟨kept, word⟩ -
  cases kept <;> rfl

@[simp]
theorem links_trailingWords (words : List (Bool × String)) : links (trailingWords words) = [] := by
  rw [trailingWords, links_flatMap, List.flatMap_eq_nil_iff]
  rintro ⟨kept, word⟩ -
  cases kept <;> rfl

@[simp]
theorem links_variadicWrites (parameters : List Parameter) (variadic : Bool) :
    links (variadicWrites parameters variadic) = [] := by
  unfold variadicWrites
  split
  · split <;> rfl
  · rfl

/-- A function is written with the references in its result, its name and its parameters. -/
theorem FunctionDecl.links_writes (function : FunctionDecl) (name : List Write) :
    links (function.writes name) =
      (function.result.map CppType.references).getD [] ++ links name ++
        function.parameters.flatMap (·.type.references) := by
  have hresult : links ((function.result.map fun result => result.writes ++ [.space]).getD []) =
      (function.result.map CppType.references).getD [] := by
    cases function.result <;> simp
  simp [writes, hresult, List.flatMap_map]

@[simp]
theorem links_continuedWrites (lines : List String) : links (continuedWrites lines) = [] := by
  induction lines with
  | nil => rfl
  | cons line rest ih =>
    cases rest with
    | nil =>
      unfold continuedWrites
      split <;> rfl
    | cons next rest =>
      have hline : links (if line = "" then [] else [.preprocessor line, .space]) = [] := by
        split <;> rfl
      simp [continuedWrites, hline, ih]

@[simp]
theorem links_replacementWrites (replacement : String) :
    links (replacementWrites replacement) = [] := by
  unfold replacementWrites
  split <;> simp

@[simp]
theorem links_macroParameterWrites (names : Option (List String)) :
    links (macroParameterWrites names) = [] := by
  cases names with
  | none => rfl
  | some names =>
    have hnames : links ([.preprocessor ","].intercalate
        (names.map fun name => [.preprocessor name])) = [] := by
      rw [links_intercalate rfl, List.flatMap_map, List.flatMap_eq_nil_iff]
      exact fun name _ => rfl
    simp [macroParameterWrites, hnames]

/-- The definition of a class is written with the references in its bases. -/
@[simp]
theorem links_baseWrites (bases : List BaseClass) :
    links (baseWrites bases) = bases.flatMap (·.type.references) := by
  have hbase (base : BaseClass) : links (leadingWords [(base.isVirtual, "virtual")] ++
      ((base.access.map fun access => [.keyword access.word, .space]).getD []) ++
      base.type.writes) = base.type.references := by
    cases hb : base.access <;> simp
  unfold baseWrites
  split
  · rename_i h
    rw [List.isEmpty_iff.mp h]
    rfl
  · rw [links_append, links_separated, List.flatMap_map]
    exact List.flatMap_congr fun base _ => hbase base

namespace Entity

@[simp]
theorem links_statementWrites (lines : List String) : links (statementWrites lines) = [] := by
  rw [statementWrites, links_flatMap, List.flatMap_eq_nil_iff]
  intro line _
  simp

theorem links_specializedName_subset (entity : Entity) :
    links entity.specializedName ⊆ (entity.template.map TemplateHead.references).getD [] := by
  unfold specializedName specializationWrites
  split
  · rename_i special hs
    simp [hs, TemplateHead.references]
  · simp

theorem links_signature_subset (entity : Entity) :
    links entity.signature ⊆ entity.references := by
  have hname := entity.links_specializedName_subset
  unfold references
  cases hk : entity.kind with
  | file => simp [signature, hk]
  | inclusion target system => simp [signature, hk]
  | macroDefinition parameters replacement => simp [signature, hk]
  | namespaceScope isInline => simp [signature, hk]
  | namespaceAlias target => simp [signature, hk, EntityKind.references]
  | usingDirective target => simp [signature, hk, EntityKind.references]
  | usingDeclaration target => simp [signature, hk, EntityKind.references]
  | typeAlias aliased => simp [signature, hk, EntityKind.references]
  | enumeration isScoped underlying forward =>
    cases underlying <;> simp [signature, hk, EntityKind.references]
  | enumerator value => simp [signature, hk]
  | classType keyword isFinal bases forward =>
    -- The bases are written in the opening, after the name with its template arguments.
    have hwritten : links entity.signature ⊆ links entity.specializedName := by
      by_cases hn : entity.name = "" <;> simp [signature, hk, hn]
    exact fun _ hr => List.mem_append_left _ (hname (hwritten hr))
  | accessLabel access => simp [signature, hk]
  | variableDecl type default storage isConstexpr =>
    cases hs : storage.word? <;> simp [signature, hk, hs, EntityKind.references]
  | fieldDecl type default isMutable bits =>
    cases bits <;> simp [signature, hk, EntityKind.references]
  | functionDecl function =>
    simp only [signature, hk, FunctionDecl.links_writes, EntityKind.references]
    intro r hr
    simp only [List.mem_append] at hr ⊢
    rcases hr with (hresult | hspecial) | hparameter
    · exact Or.inr (Or.inl hresult)
    · exact Or.inl (hname hspecial)
    · exact Or.inr (Or.inr hparameter)

theorem links_head_subset (entity : Entity) : links entity.head ⊆ entity.references := by
  rw [head, links_append]
  refine List.append_subset.mpr ⟨?_, entity.links_signature_subset⟩
  unfold references
  cases entity.template with
  | none => exact List.nil_subset _
  | some head => exact fun _ hr => List.mem_append_left _ (head.links_writes_subset hr)

theorem links_opening_subset (entity : Entity) : links entity.opening ⊆ entity.references := by
  unfold references
  cases hk : entity.kind with
  | classType keyword isFinal bases forward =>
    simp [opening, hk, openBrace, EntityKind.references]
  | functionDecl function =>
    by_cases hl : function.body.lines.isEmpty = true <;> simp [opening, hk, hl, openBrace]
  | _ => simp [opening, hk, openBrace]

@[simp]
theorem links_closing (entity : Entity) : links entity.closing = [] := by
  cases hk : entity.kind with
  | functionDecl function =>
    by_cases hl : function.body.lines.isEmpty = true <;> simp [closing, hk, hl]
  | _ => simp [closing, hk]

@[simp]
theorem links_declarationEnd (entity : Entity) : links entity.declarationEnd = [] := by
  cases hk : entity.kind with
  | functionDecl function => cases hb : function.body <;> simp [declarationEnd, hk, hb, bodyMark]
  | _ => simp [declarationEnd, hk]

@[simp]
theorem links_lineEnd (entity : Entity) : links entity.lineEnd = [] := by
  unfold lineEnd
  split <;> rfl

/-- An entity is written with no reference that is not collected from it. -/
theorem links_ownWrites_subset (entity : Entity) :
    links (ownWrites entity) ⊆ entity.references := by
  simp only [ownWrites, links_append, links_closing, links_declarationEnd, links_lineEnd,
    List.append_nil]
  exact List.append_subset.mpr ⟨entity.links_head_subset, entity.links_opening_subset⟩

end Entity

end HeaderSynopsis.Declaration
