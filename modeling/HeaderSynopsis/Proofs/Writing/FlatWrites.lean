import HeaderSynopsis.Proofs.Text.Lines
import HeaderSynopsis.Proofs.Writing.Types
import HeaderSynopsis.Writing.Entity

namespace HeaderSynopsis.Declaration

def Expression.texts : Expression → List String
  | .literal _ text => [text]
  | .verbatim _ => []

mutual

def CppType.texts : CppType → List String
  | .builtin spelling => [spelling]
  | .named target => [target.name]
  | .verbatim _ => []
  | .const inner | .volatile inner | .pointer inner | .lvalueRef inner | .rvalueRef inner =>
      inner.texts
  | .array element size => element.texts ++ (size.map Expression.texts).getD []
  | .instantiation template arguments => template.name :: TemplateArgument.allTexts arguments

def TemplateArgument.allTexts : List TemplateArgument → List String
  | [] => []
  | argument :: rest => argument.texts ++ TemplateArgument.allTexts rest

def TemplateArgument.texts : TemplateArgument → List String
  | .type type => type.texts
  | .value value => value.texts
  | .template template => [template.name]

end

def Parameter.texts (parameter : Parameter) : List String :=
  parameter.name.toList ++ parameter.type.texts ++
    (parameter.default.map Expression.texts).getD []

mutual

def TemplateParameter.texts : TemplateParameter → List String
  | .type name _ _ default => name :: (default.map CppType.texts).getD []
  | .value name holds _ default =>
      name :: (holds.texts ++ (default.map Expression.texts).getD [])
  | .template name parameters _ default =>
      name :: (TemplateParameter.allTexts parameters ++ (default.map (·.name)).toList)

def TemplateParameter.allTexts : List TemplateParameter → List String
  | [] => []
  | parameter :: rest => parameter.texts ++ TemplateParameter.allTexts rest

end

def TemplateHead.texts : TemplateHead → List String
  | .primary parameters => TemplateParameter.allTexts parameters
  | .specialization special => TemplateArgument.allTexts special.arguments

def FunctionDecl.texts (function : FunctionDecl) : List String :=
  (function.result.map CppType.texts).getD [] ++ function.parameters.flatMap Parameter.texts

def EntityKind.texts : EntityKind → List String
  | .file | .namespaceScope _ | .accessLabel _ => []
  | .inclusion target _ => [target]
  | .macroDefinition parameters _ => parameters.getD []
  | .namespaceAlias target | .usingDirective target | .usingDeclaration target => [target.name]
  | .typeAlias aliased => aliased.texts
  | .enumeration _ underlying _ => (underlying.map CppType.texts).getD []
  | .enumerator value => (value.map Expression.texts).getD []
  | .classType _ _ bases _ => bases.flatMap (·.type.texts)
  | .variableDecl type default _ _ | .fieldDecl type default _ _ =>
      type.texts ++ (default.map Expression.texts).getD []
  | .functionDecl function => function.texts

def Entity.texts (entity : Entity) : List String :=
  entity.name :: ((entity.template.map TemplateHead.texts).getD [] ++ entity.kind.texts)

end HeaderSynopsis.Declaration

namespace HeaderSynopsis.Writing

open Declaration Text

def Write.isFlat : Write → Bool
  | .token _ text => OneLine text
  | .reference _ name => OneLine name
  | .space | .lineBreak => true
  | .indent | .unindent => false

def Flat (ws : List Write) : Prop := ws.all Write.isFlat = true

namespace Flat

variable {ws vs : List Write}

theorem append (h : Flat ws) (h' : Flat vs) : Flat (ws ++ vs) := by
  rw [Flat, List.all_append, Bool.and_eq_true]
  exact ⟨h, h'⟩

theorem flatMap {α : Type} {parts : List α} {writes : α → List Write}
    (h : ∀ part ∈ parts, Flat (writes part)) : Flat (parts.flatMap writes) := by
  rw [Flat, List.all_flatMap]
  exact List.all_eq_true.mpr h

theorem intercalate {sep : List Write} {items : List (List Write)} (hsep : Flat sep)
    (hitems : ∀ item ∈ items, Flat item) : Flat (sep.intercalate items) := by
  apply List.all_eq_true.mpr
  apply forall_mem_intercalate
  · exact List.all_eq_true.mp hsep
  · intro item hitem
    exact List.all_eq_true.mp (hitems item hitem)

theorem optional {α : Type} {value : Option α} {writes : α → List Write} {texts : α → List String}
    (ht : ∀ t ∈ (value.map texts).getD [], OneLine t)
    (h : ∀ a, (∀ t ∈ texts a, OneLine t) → Flat (writes a)) :
    Flat ((value.map writes).getD []) := by
  cases value with
  | none => rfl
  | some a => exact h a ht

theorem token {kind : TokenKind} {text : String} (h : OneLine text) : Flat [.token kind text] := by
  simp [Flat, Write.isFlat, h]

theorem link {target : Reference} (h : OneLine target.name) : Flat [.link target] := by
  simp [Flat, Write.isFlat, Write.link, h]

end Flat

theorem allTexts_arguments_eq (arguments : List TemplateArgument) :
    TemplateArgument.allTexts arguments = arguments.flatMap TemplateArgument.texts := by
  induction arguments with
  | nil => rfl
  | cons argument rest ih => rw [TemplateArgument.allTexts, ih, List.flatMap_cons]

theorem allTexts_parameters_eq (parameters : List TemplateParameter) :
    TemplateParameter.allTexts parameters = parameters.flatMap TemplateParameter.texts := by
  induction parameters with
  | nil => rfl
  | cons parameter rest ih => rw [TemplateParameter.allTexts, ih, List.flatMap_cons]

/-- Each of several items has only texts that all of them have. -/
theorem oneLine_of_flatMap {α : Type} {items : List α} {texts : α → List String}
    (h : ∀ t ∈ items.flatMap texts, OneLine t) {item : α} (hm : item ∈ items) :
    ∀ t ∈ texts item, OneLine t :=
  fun t ht => h t (List.mem_flatMap.mpr ⟨item, hm, ht⟩)

theorem flat_separated {α : Type} {items : List α} {writes : α → List Write}
    (h : ∀ item ∈ items, Flat (writes item)) : Flat (separated (items.map writes)) :=
  .intercalate rfl (List.forall_mem_map.mpr h)

theorem flat_verbatimWrites (spelling : String) : Flat (verbatimWrites spelling) := by
  apply List.all_eq_true.mpr
  apply forall_mem_verbatimWrites
  · rfl
  · intro run hrun _
    exact decide_eq_true (oneLine_pieces run hrun)

theorem flat_expression (value : Expression) (h : ∀ t ∈ value.texts, OneLine t) :
    Flat value.writes := by
  cases value with
  | literal kind text => exact .token (h text List.mem_cons_self)
  | verbatim spelling => exact flat_verbatimWrites spelling

theorem flat_boundWrites (size : Option Expression)
    (h : ∀ t ∈ (size.map Expression.texts).getD [], OneLine t) : Flat (boundWrites size) := by
  have hopen : Flat [.punctuation "["] := rfl
  have hclose : Flat [.punctuation "]"] := rfl
  exact (hopen.append (.optional h flat_expression)).append hclose

theorem flat_initializerWrites (value : Option Expression)
    (h : ∀ t ∈ (value.map Expression.texts).getD [], OneLine t) :
    Flat (initializerWrites value) := by
  have hequals : Flat equalsWrites := rfl
  cases value with
  | none => rfl
  | some value => exact hequals.append (flat_expression value h)

theorem flat_nameWrites {name : String} (h : OneLine name) : Flat (nameWrites name) := by
  have hspace : Flat [.space] := rfl
  unfold nameWrites
  split
  · rfl
  · exact hspace.append (.token h)

theorem flat_packWrites (pack : Bool) : Flat (packWrites pack) := by
  cases pack <;> rfl

theorem flat_wordAndSpace {word : String} (h : OneLine word) : Flat [.keyword word, .space] := by
  have hspace : Flat [.space] := rfl
  exact (Flat.token h).append hspace

theorem flat_spaceAndWord {word : String} (h : OneLine word) : Flat [.space, .keyword word] := by
  have hspace : Flat [.space] := rfl
  exact hspace.append (.token h)

theorem flat_qualified {word : String} (hword : OneLine word) (behind : Bool) {inner : List Write}
    (h : Flat inner) : Flat (qualified word behind inner) := by
  cases behind with
  | true => exact h.append (flat_spaceAndWord hword)
  | false => exact (flat_wordAndSpace hword).append h

/-- An argument is flat if the type in it is, should it have one. -/
theorem flat_argument_of {argument : TemplateArgument} (h : ∀ t ∈ argument.texts, OneLine t)
    (ht : ∀ type, argument = .type type → (∀ t ∈ type.texts, OneLine t) → Flat type.writes) :
    Flat argument.writes := by
  cases argument with
  | type type => exact ht type rfl h
  | value value => exact flat_expression value h
  | template target => exact .link (h target.name List.mem_cons_self)

theorem flat_parts (type : CppType) (h : ∀ t ∈ type.texts, OneLine t) :
    Flat type.parts.1 ∧ Flat type.parts.2 := by
  have hconst : OneLine "const" := by decide
  have hvolatile : OneLine "volatile" := by decide
  induction type using CppType.type_induction with
  | builtin spelling => exact ⟨.token (h spelling List.mem_cons_self), rfl⟩
  | named target => exact ⟨.link (h target.name List.mem_cons_self), rfl⟩
  | verbatim spelling => exact ⟨flat_verbatimWrites spelling, rfl⟩
  | const inner ih => exact ⟨flat_qualified hconst _ ((ih h).1.append (ih h).2), rfl⟩
  | volatile inner ih => exact ⟨flat_qualified hvolatile _ ((ih h).1.append (ih h).2), rfl⟩
  | pointer inner ih | lvalueRef inner ih | rvalueRef inner ih =>
    exact ⟨((ih h).1.append (ih h).2).append rfl, rfl⟩
  | array element size ih =>
    rw [CppType.texts, List.forall_mem_append] at h
    exact ⟨(ih h.1).1, (flat_boundWrites size h.2).append (ih h.1).2⟩
  | instantiation template arguments ih =>
    rw [CppType.texts, List.forall_mem_cons, allTexts_arguments_eq] at h
    have hless : Flat [.punctuation "<"] := rfl
    have hopen : Flat [.link template, .punctuation "<"] := (Flat.link h.1).append hless
    have hitems : Flat (separated (TemplateArgument.allWrites arguments)) := by
      rw [TemplateArgument.allWrites_eq]
      refine flat_separated fun argument ha => ?_
      refine flat_argument_of (oneLine_of_flatMap h.2 ha) fun type ht htexts => ?_
      have hi := ih type (ht ▸ ha) htexts
      exact hi.1.append hi.2
    exact ⟨(hopen.append hitems).append rfl, rfl⟩

theorem flat_type (type : CppType) (h : ∀ t ∈ type.texts, OneLine t) : Flat type.writes :=
  (flat_parts type h).1.append (flat_parts type h).2

theorem flat_argumentWrites (arguments : List TemplateArgument)
    (h : ∀ t ∈ TemplateArgument.allTexts arguments, OneLine t) :
    Flat (argumentWrites arguments) := by
  rw [allTexts_arguments_eq] at h
  rw [argumentWrites, TemplateArgument.allWrites_eq]
  exact flat_separated fun argument ha =>
    flat_argument_of (oneLine_of_flatMap h ha) fun type _ => flat_type type

theorem flat_declaratorWrites {type : CppType} {name : Option String} {pack : Bool}
    (ht : ∀ t ∈ type.texts, OneLine t) (hn : ∀ t ∈ name.toList, OneLine t) :
    Flat (declaratorWrites type name pack) := by
  have hname : OneLine (name.getD "") := by
    cases name with
    | none => exact List.not_mem_nil
    | some name => exact hn name List.mem_cons_self
  exact (((flat_parts type ht).1.append (flat_packWrites pack)).append
    (flat_nameWrites hname)).append (flat_parts type ht).2

theorem flat_parameter (parameter : Parameter) (h : ∀ t ∈ parameter.texts, OneLine t) :
    Flat parameter.writes := by
  rw [Parameter.texts, List.forall_mem_append, List.forall_mem_append] at h
  exact (flat_declaratorWrites h.1.2 h.1.1).append (flat_initializerWrites _ h.2)

theorem flat_defaultType (default : Option CppType)
    (h : ∀ t ∈ (default.map CppType.texts).getD [], OneLine t) :
    Flat (defaultWrites CppType.writes default) := by
  have hequals : Flat equalsWrites := rfl
  cases default with
  | none => rfl
  | some type => exact hequals.append (flat_type type h)

theorem flat_defaultTemplate (default : Option Reference)
    (h : ∀ t ∈ (default.map (·.name)).toList, OneLine t) :
    Flat (defaultWrites (fun template => [.link template]) default) := by
  have hequals : Flat equalsWrites := rfl
  cases default with
  | none => rfl
  | some target => exact hequals.append (.link (h target.name List.mem_cons_self))

theorem flat_templateParameter (parameter : TemplateParameter)
    (h : ∀ t ∈ parameter.texts, OneLine t) : Flat parameter.writes := by
  induction parameter using TemplateParameter.parameter_induction with
  | type name keyword variadic default =>
    rw [TemplateParameter.texts, List.forall_mem_cons] at h
    have hkeyword : Flat [.keyword keyword.word] := by cases keyword <;> rfl
    exact ((hkeyword.append (flat_packWrites variadic)).append (flat_nameWrites h.1)).append
      (flat_defaultType default h.2)
  | value name holds variadic default =>
    rw [TemplateParameter.texts, List.forall_mem_cons, List.forall_mem_append] at h
    exact (((flat_type holds h.2.1).append (flat_packWrites variadic)).append
      (flat_nameWrites h.1)).append (flat_initializerWrites default h.2.2)
  | template name parameters variadic default ih =>
    rw [TemplateParameter.texts, List.forall_mem_cons, List.forall_mem_append,
      allTexts_parameters_eq] at h
    have hopen : Flat [.keyword "template", .space, .punctuation "<"] := rfl
    have hclose : Flat [.punctuation ">", .space, .keyword "class"] := rfl
    have hitems : Flat (separated (TemplateParameter.allWrites parameters)) := by
      rw [TemplateParameter.allWrites_eq]
      exact flat_separated fun parameter hp => ih parameter hp (oneLine_of_flatMap h.2.1 hp)
    exact ((((hopen.append hitems).append hclose).append (flat_packWrites variadic)).append
      (flat_nameWrites h.1)).append (flat_defaultTemplate default h.2.2)

-- Entities: everything before the brace of a definition is flat, access labels aside.

theorem flat_templateHead (head : TemplateHead) (h : ∀ t ∈ head.texts, OneLine t) :
    Flat head.writes := by
  cases head with
  | specialization special => rfl
  | primary parameters =>
    rw [TemplateHead.texts, allTexts_parameters_eq] at h
    have hopen : Flat [.keyword "template", .space, .punctuation "<"] := rfl
    have hclose : Flat [.punctuation ">"] := rfl
    have hitems : Flat (separated (TemplateParameter.allWrites parameters)) := by
      rw [TemplateParameter.allWrites_eq]
      exact flat_separated fun parameter hp =>
        flat_templateParameter parameter (oneLine_of_flatMap h hp)
    exact ((hopen.append hitems).append hclose).append rfl

theorem flat_specializationWrites (template : Option TemplateHead)
    (h : ∀ t ∈ (template.map TemplateHead.texts).getD [], OneLine t) :
    Flat (specializationWrites template) := by
  match template with
  | none | some (.primary _) => rfl
  | some (.specialization special) =>
    have hopen : Flat [.punctuation "<"] := rfl
    exact (hopen.append (flat_argumentWrites special.arguments h)).append rfl

theorem flat_leadingWords {words : List (Bool × String)}
    (h : ∀ word ∈ words, OneLine word.2) : Flat (leadingWords words) := by
  refine .flatMap fun (kept, word) hm => ?_
  cases kept with
  | false => rfl
  | true => exact flat_wordAndSpace (h _ hm)

theorem flat_trailingWords {words : List (Bool × String)}
    (h : ∀ word ∈ words, OneLine word.2) : Flat (trailingWords words) := by
  refine .flatMap fun (kept, word) hm => ?_
  cases kept with
  | false => rfl
  | true => exact flat_spaceAndWord (h _ hm)

theorem flat_variadicWrites (parameters : List Parameter) (variadic : Bool) :
    Flat (variadicWrites parameters variadic) := by
  cases variadic <;> cases parameters <;> rfl

theorem flat_function (function : FunctionDecl) {name : List Write}
    (h : ∀ t ∈ function.texts, OneLine t) (hn : Flat name) : Flat (function.writes name) := by
  rw [FunctionDecl.texts, List.forall_mem_append] at h
  have hleading : Flat (leadingWords [(function.isStatic, "static"),
      (function.isConstexpr, "constexpr"), (function.isVirtual, "virtual"),
      (function.isExplicit, "explicit")]) := flat_leadingWords (by simp [OneLine])
  have htrailing : Flat (trailingWords [(function.isConst, "const"),
      (function.isNoexcept, "noexcept"), (function.isOverride, "override"),
      (function.isFinal, "final")]) := flat_trailingWords (by simp [OneLine])
  have hresult : Flat ((function.result.map fun result => result.writes ++ [.space]).getD []) :=
    .optional h.1 fun result ht => (flat_type result ht).append rfl
  have hparameters : Flat (separated (function.parameters.map Parameter.writes)) :=
    flat_separated fun parameter hp => flat_parameter parameter (oneLine_of_flatMap h.2 hp)
  have hopen : Flat [.punctuation "("] := rfl
  have hclose : Flat [.punctuation ")"] := rfl
  exact ((((((hleading.append hresult).append hn).append hopen).append hparameters).append
    (flat_variadicWrites _ _)).append hclose).append htrailing

theorem flat_continuedWrites {lines : List String} (h : ∀ line ∈ lines, OneLine line) :
    Flat (continuedWrites lines) := by
  have hspace : Flat [.space] := rfl
  have hbreak : Flat [.preprocessor "\\", .lineBreak] := rfl
  induction lines with
  | nil => rfl
  | cons line rest ih =>
    rw [List.forall_mem_cons] at h
    have hline : Flat [.preprocessor line] := .token h.1
    cases rest with
    | nil =>
      unfold continuedWrites
      split
      · rfl
      · exact hline
    | cons next others =>
      change Flat (_ ++ [.preprocessor "\\", .lineBreak] ++ continuedWrites (next :: others))
      refine (Flat.append ?_ hbreak).append (ih h.2)
      split
      · rfl
      · exact hline.append hspace

theorem flat_replacementWrites (replacement : String) : Flat (replacementWrites replacement) := by
  have hspace : Flat [.space] := rfl
  unfold replacementWrites
  split
  · rfl
  · exact hspace.append (flat_continuedWrites oneLine_lines)

theorem flat_macroParameterWrites (parameters : Option (List String))
    (h : ∀ t ∈ parameters.getD [], OneLine t) : Flat (macroParameterWrites parameters) := by
  cases parameters with
  | none => rfl
  | some names =>
    have hopen : Flat [.preprocessor "("] := rfl
    have hnames : Flat ([.preprocessor ","].intercalate
        (names.map fun name => [.preprocessor name])) := by
      refine .intercalate rfl fun item hitem => ?_
      obtain ⟨name, hn, rfl⟩ := List.mem_map.mp hitem
      exact .token (h name hn)
    exact (hopen.append hnames).append rfl

theorem flat_baseWrites (bases : List BaseClass)
    (h : ∀ t ∈ bases.flatMap (·.type.texts), OneLine t) : Flat (baseWrites bases) := by
  unfold baseWrites
  split
  · rfl
  · have hopen : Flat [.space, .punctuation ":", .space] := rfl
    refine hopen.append (flat_separated fun base hb => ?_)
    have hvirtual : Flat (leadingWords [(base.isVirtual, "virtual")]) :=
      flat_leadingWords (by simp [OneLine])
    have haccess : Flat ((base.access.map fun access =>
        [.keyword access.word, .space]).getD []) := by
      cases base.access with
      | none => rfl
      | some access => cases access <;> rfl
    exact (hvirtual.append haccess).append (flat_type base.type (oneLine_of_flatMap h hb))

theorem oneLine_toString (n : Nat) : OneLine (toString n) := by
  intro h
  rw [Nat.toString_eq_repr, Nat.toList_repr] at h
  have hdigit := Nat.isDigit_of_mem_toDigits (by decide) (by decide) h
  exact absurd hdigit (by decide)

theorem flat_specializedName {entity : Entity} (hname : OneLine entity.name)
    (htemplate : ∀ t ∈ (entity.template.map TemplateHead.texts).getD [], OneLine t) :
    Flat entity.specializedName :=
  (Flat.token hname).append (flat_specializationWrites entity.template htemplate)

/-- Only access labels change a level before their declaration ends or their definition begins. -/
theorem flat_signature {entity : Entity} (ha : entity.kind.word ≠ "access")
    (h : ∀ t ∈ entity.texts, OneLine t) : Flat entity.signature := by
  rw [Entity.texts, List.forall_mem_cons, List.forall_mem_append] at h
  obtain ⟨hname, htemplate, hkind⟩ := h
  have hcalled := flat_specializedName hname htemplate
  obtain ⟨_, name, kind, template, _, _⟩ := entity
  have hcolon : Flat [.space, .punctuation ":", .space] := rfl
  have hequals : Flat equalsWrites := rfl
  have hidentifier : Flat [.identifier name] := .token hname
  cases kind with
  | file => rfl
  | accessLabel access => exact absurd rfl ha
  | inclusion target system =>
    -- Brackets or quotes are part of the token with the name of the file.
    have hdirective : Flat [.preprocessor "#include", .space] := rfl
    have htarget : OneLine target := hkind target List.mem_cons_self
    refine hdirective.append (.token ?_)
    cases system with
    | true => exact (OneLine.append (by decide) htarget).append (by decide)
    | false => exact (OneLine.append (by decide) htarget).append (by decide)
  | macroDefinition parameters replacement =>
    have hdirective : Flat [.preprocessor "#define", .space] := rfl
    have hmacro : Flat [.preprocessor name] := .token hname
    exact ((hdirective.append hmacro).append (flat_macroParameterWrites parameters hkind)).append
      (flat_replacementWrites replacement)
  | namespaceScope isInline =>
    have hinline : Flat (leadingWords [(isInline, "inline")]) :=
      flat_leadingWords (by simp [OneLine])
    have hkeyword : Flat [.keyword "namespace"] := rfl
    exact (hinline.append hkeyword).append (flat_nameWrites hname)
  | namespaceAlias target =>
    have hkeyword : Flat [.keyword "namespace", .space] := rfl
    exact ((hkeyword.append hidentifier).append hequals).append
      (.link (hkind target.name List.mem_cons_self))
  | usingDirective target =>
    have hkeywords : Flat [.keyword "using", .space, .keyword "namespace", .space] := rfl
    exact hkeywords.append (.link (hkind target.name List.mem_cons_self))
  | usingDeclaration target =>
    have hkeyword : Flat [.keyword "using", .space] := rfl
    exact hkeyword.append (.link (hkind target.name List.mem_cons_self))
  | typeAlias aliased =>
    have hkeyword : Flat [.keyword "using", .space] := rfl
    exact ((hkeyword.append hidentifier).append hequals).append (flat_type aliased hkind)
  | enumeration isScoped underlying forward =>
    have hkeyword : Flat [.keyword "enum"] := rfl
    have hscoped : Flat (trailingWords [(isScoped, "class")]) :=
      flat_trailingWords (by simp [OneLine])
    exact ((hkeyword.append hscoped).append (flat_nameWrites hname)).append
      (.optional hkind fun type ht => hcolon.append (flat_type type ht))
  | enumerator value => exact hidentifier.append (flat_initializerWrites value hkind)
  | classType keyword isFinal bases forward =>
    have hkeyword : Flat [.keyword keyword.word] := by cases keyword <;> rfl
    have hspace : Flat [.space] := rfl
    refine hkeyword.append ?_
    split
    · rfl
    · exact hspace.append hcalled
  | variableDecl type default storage isConstexpr =>
    rw [EntityKind.texts, List.forall_mem_append] at hkind
    have hstorage : Flat ((storage.word?.map fun word => [.keyword word, .space]).getD []) := by
      cases storage <;> rfl
    have hconstexpr : Flat (leadingWords [(isConstexpr, "constexpr")]) :=
      flat_leadingWords (by simp [OneLine])
    have hdeclarator : Flat (declaratorWrites type (some name) false) :=
      flat_declaratorWrites hkind.1 (by simpa using hname)
    exact ((hstorage.append hconstexpr).append hdeclarator).append
      (flat_initializerWrites default hkind.2)
  | fieldDecl type default isMutable bits =>
    rw [EntityKind.texts, List.forall_mem_append] at hkind
    have hmutable : Flat (leadingWords [(isMutable, "mutable")]) :=
      flat_leadingWords (by simp [OneLine])
    have hdeclarator : Flat (declaratorWrites type (some name) false) :=
      flat_declaratorWrites hkind.1 (by simpa using hname)
    have hbits : Flat ((bits.map fun n =>
        [.space, .punctuation ":", .space, .token .intLiteral (toString n.toNat)]).getD []) := by
      cases bits with
      | none => rfl
      | some n => exact hcolon.append (.token (oneLine_toString n.toNat))
    exact ((hmutable.append hdeclarator).append hbits).append
      (flat_initializerWrites default hkind.2)
  | functionDecl function => exact flat_function function hkind hcalled

theorem flat_head {entity : Entity} (ha : entity.kind.word ≠ "access")
    (h : ∀ t ∈ entity.texts, OneLine t) : Flat entity.head := by
  have hsignature := flat_signature ha h
  rw [Entity.texts, List.forall_mem_cons, List.forall_mem_append] at h
  exact (Flat.optional h.2.1 flat_templateHead).append hsignature

theorem flat_declarationEnd {entity : Entity} (ha : entity.kind.word ≠ "access") :
    Flat entity.declarationEnd := by
  obtain ⟨_, name, kind, _, _, _⟩ := entity
  cases kind with
  | accessLabel access => exact absurd rfl ha
  | functionDecl function =>
    refine Flat.append ?_ rfl
    cases function.body <;> rfl
  | _ => rfl

end HeaderSynopsis.Writing
