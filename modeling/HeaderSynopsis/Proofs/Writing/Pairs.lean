import HeaderSynopsis.Proofs.Generation.Trace
import HeaderSynopsis.Proofs.Writing.Scopes

/-!
Brackets and changes of the indentation come in pairs. Every construct of a declaration is written
with steps that close what they open; the one thing that goes the other way round is the label of an
access, which is written one level below the block that it stands in. Main result: an entity is
paired as soon as its children are.
-/

namespace HeaderSynopsis.Writing

open Declaration Generation

def brackets : List (Char × Char) := [('(', ')'), ('[', ']'), ('\x7b', '\x7d'), ('<', '>')]

def isBracket (c : Char) : Bool := brackets.any fun (opener, closer) => c = opener || c = closer

def Write.isPlain : Write → Bool
  | .token .punctuation text => text.toList.all fun c => !isBracket c
  | .indent | .unindent => false
  | _ => true

/-- Steps that close whatever they open. Only `inside` a block may they leave it for a label. -/
inductive Paired : (inside : Bool) → List Write → Prop
  | nil {inside : Bool} : Paired inside []
  | plain {inside : Bool} {w : Write} (h : w.isPlain = true) : Paired inside [w]
  | append {inside : Bool} {ws vs : List Write} (h : Paired inside ws) (h' : Paired inside vs) :
      Paired inside (ws ++ vs)
  | group {inside : Bool} {ws : List Write} (opener closer : Char)
      (hpair : (opener, closer) ∈ brackets) (h : Paired inside ws) :
      Paired inside
        ([.punctuation (String.singleton opener)] ++ ws ++
          [.punctuation (String.singleton closer)])
  | block {inside : Bool} {ws : List Write} (h : Paired true ws) :
      Paired inside ([.indent] ++ ws ++ [.unindent])
  | label {ws : List Write} (h : Paired false ws) :
      Paired true ([.unindent] ++ ws ++ [.indent])

namespace Paired

variable {inside : Bool} {ws vs : List Write}

/-- Nothing is lost inside a block. -/
theorem weaken (h : Paired inside ws) : Paired true ws := by
  induction h with
  | nil => exact nil
  | plain h => exact plain h
  | append _ _ ih ih' => exact ih.append ih'
  | group opener closer hpair _ ih => exact group opener closer hpair ih
  | block _ ih => exact block ih
  | label h => exact label h

/-- Plain steps are paired wherever they stand. -/
theorem of_plain (h : ws.all Write.isPlain = true) : Paired inside ws := by
  induction ws with
  | nil => exact nil
  | cons w ws ih =>
    rw [List.all_cons, Bool.and_eq_true] at h
    exact (plain h.1).append (ih h.2)

theorem flatMap {α : Type} {parts : List α} {writes : α → List Write}
    (h : ∀ part ∈ parts, Paired inside (writes part)) : Paired inside (parts.flatMap writes) := by
  induction parts with
  | nil => exact nil
  | cons part rest ih =>
    rw [List.flatMap_cons]
    exact (h part List.mem_cons_self).append (ih fun p hp => h p (List.mem_cons_of_mem _ hp))

theorem intercalate {sep : List Write} {items : List (List Write)} (hsep : Paired inside sep)
    (hitems : ∀ item ∈ items, Paired inside item) : Paired inside (sep.intercalate items) := by
  induction items with
  | nil => exact nil
  | cons item rest ih =>
    have hitem := hitems item List.mem_cons_self
    have hrest := ih fun i hi => hitems i (List.mem_cons_of_mem _ hi)
    cases rest with
    | nil => rwa [List.intercalate_singleton]
    | cons next others =>
      rw [List.intercalate_cons_cons]
      exact (hitem.append hsep).append hrest

theorem optional {α : Type} {value : Option α} {writes : α → List Write}
    (h : ∀ a, Paired inside (writes a)) : Paired inside ((value.map writes).getD []) := by
  cases value with
  | none => exact nil
  | some a => exact h a

theorem link (target : Reference) : Paired inside [.link target] := plain rfl

/-- Steps in a pair of brackets, with others before and behind it. -/
theorem enclosed {before after : List Write} (opener closer : Char)
    (hpair : (opener, closer) ∈ brackets) (hb : Paired inside before) (h : Paired inside ws)
    (ha : Paired inside after) :
    Paired inside
      (before ++ [.punctuation (String.singleton opener)] ++ ws ++
        [.punctuation (String.singleton closer)] ++ after) := by
  have hall := (hb.append (group opener closer hpair h)).append ha
  simpa only [List.append_assoc] using hall

end Paired

section

variable {inside : Bool}

theorem paired_separated {α : Type} {items : List α} {writes : α → List Write}
    (h : ∀ item ∈ items, Paired inside (writes item)) :
    Paired inside (separated (items.map writes)) :=
  .intercalate (.of_plain rfl) (List.forall_mem_map.mpr h)

theorem paired_verbatimWrites (spelling : String) : Paired inside (verbatimWrites spelling) := by
  refine .intercalate (.of_plain rfl) fun item hitem => ?_
  obtain ⟨piece, -, rfl⟩ := List.mem_map.mp hitem
  unfold runWrites
  split
  · exact .nil
  · exact .of_plain rfl

theorem paired_expression (value : Expression) : Paired inside value.writes := by
  cases value with
  | literal kind text => cases kind <;> exact .of_plain rfl
  | verbatim spelling => exact paired_verbatimWrites spelling

theorem paired_boundWrites (size : Option Expression) : Paired inside (boundWrites size) :=
  .group '[' ']' (by decide) (.optional paired_expression)

theorem paired_defaultWrites {α : Type} {writes : α → List Write} (default : Option α)
    (h : ∀ value, Paired inside (writes value)) :
    Paired inside (defaultWrites writes default) := by
  have hequals : Paired inside equalsWrites := .of_plain rfl
  cases default with
  | none => exact .nil
  | some value => exact hequals.append (h value)

theorem paired_initializerWrites (value : Option Expression) :
    Paired inside (initializerWrites value) := by
  have hequals : Paired inside equalsWrites := .of_plain rfl
  cases value with
  | none => exact .nil
  | some value => exact hequals.append (paired_expression value)

theorem paired_nameWrites (name : String) : Paired inside (nameWrites name) := by
  unfold nameWrites
  split
  · exact .nil
  · exact .of_plain rfl

theorem paired_packWrites (pack : Bool) : Paired inside (packWrites pack) := by
  cases pack <;> exact .of_plain rfl

theorem paired_qualified (word : String) (behind : Bool) {inner : List Write}
    (h : Paired inside inner) : Paired inside (qualified word behind inner) := by
  cases behind with
  | true => exact h.append (.of_plain rfl)
  | false => exact (Paired.of_plain rfl).append h

/-- An argument is paired if the type in it is, should it have one. -/
theorem paired_argument_of {argument : TemplateArgument}
    (ht : ∀ type, argument = .type type → Paired inside type.writes) :
    Paired inside argument.writes := by
  cases argument with
  | type type => exact ht type rfl
  | value value => exact paired_expression value
  | template target => exact .link target

/-- What stands before the declared name is paired by itself, and so are the array bounds behind. -/
theorem paired_parts (type : CppType) :
    Paired inside type.parts.1 ∧ Paired inside type.parts.2 := by
  induction type using CppType.type_induction with
  | builtin spelling => exact ⟨.of_plain rfl, .nil⟩
  | named target => exact ⟨.link target, .nil⟩
  | verbatim spelling => exact ⟨paired_verbatimWrites spelling, .nil⟩
  | const inner ih => exact ⟨paired_qualified _ _ (ih.1.append ih.2), .nil⟩
  | volatile inner ih => exact ⟨paired_qualified _ _ (ih.1.append ih.2), .nil⟩
  | pointer inner ih | lvalueRef inner ih | rvalueRef inner ih =>
    exact ⟨(ih.1.append ih.2).append (.of_plain rfl), .nil⟩
  | array element size ih => exact ⟨ih.1, (paired_boundWrites size).append ih.2⟩
  | instantiation template arguments ih =>
    have hitems : Paired inside (separated (TemplateArgument.allWrites arguments)) := by
      rw [TemplateArgument.allWrites_eq]
      refine paired_separated fun argument ha => paired_argument_of fun type ht => ?_
      have hi := ih type (ht ▸ ha)
      exact hi.1.append hi.2
    exact ⟨(Paired.link template).append (.group '<' '>' (by decide) hitems), .nil⟩

theorem paired_type (type : CppType) : Paired inside type.writes :=
  (paired_parts type).1.append (paired_parts type).2

theorem paired_argumentWrites (arguments : List TemplateArgument) :
    Paired inside (argumentWrites arguments) := by
  rw [argumentWrites, TemplateArgument.allWrites_eq]
  exact paired_separated fun argument _ => paired_argument_of fun type _ => paired_type type

theorem paired_declaratorWrites (type : CppType) (name : Option String) (pack : Bool) :
    Paired inside (declaratorWrites type name pack) :=
  (((paired_parts type).1.append (paired_packWrites pack)).append (paired_nameWrites _)).append
    (paired_parts type).2

theorem paired_parameter (parameter : Parameter) : Paired inside parameter.writes :=
  (paired_declaratorWrites _ _ _).append (paired_initializerWrites _)

theorem paired_templateParameter (parameter : TemplateParameter) :
    Paired inside parameter.writes := by
  induction parameter using TemplateParameter.parameter_induction with
  | type name keyword variadic default =>
    have hkeyword : Paired inside [.keyword keyword.word] := .of_plain rfl
    exact ((hkeyword.append (paired_packWrites variadic)).append (paired_nameWrites name)).append
      (paired_defaultWrites default paired_type)
  | value name holds variadic default =>
    exact (((paired_type holds).append (paired_packWrites variadic)).append
      (paired_nameWrites name)).append (paired_initializerWrites default)
  | template name parameters variadic default ih =>
    have hword : Paired inside [.keyword "template", .space] := .of_plain rfl
    have hkeyword : Paired inside [.space, .keyword "class"] := .of_plain rfl
    have hitems : Paired inside (separated (TemplateParameter.allWrites parameters)) := by
      rw [TemplateParameter.allWrites_eq]
      exact paired_separated ih
    have hlist : Paired inside (_ ++ [.punctuation "<"] ++ _ ++ [.punctuation ">"] ++ _) :=
      .enclosed '<' '>' (by decide) hword hitems hkeyword
    have hrest := ((hlist.append (paired_packWrites variadic)).append
      (paired_nameWrites name)).append (paired_defaultWrites default .link)
    simpa only [TemplateParameter.writes, List.append_assoc, List.cons_append, List.nil_append]
      using hrest

-- Entities, access labels aside.

theorem paired_templateHead (head : TemplateHead) : Paired inside head.writes := by
  have hword : Paired inside [.keyword "template", .space] := .of_plain rfl
  have hbreak : Paired inside [.lineBreak] := .of_plain rfl
  cases head with
  | specialization special => exact .enclosed '<' '>' (by decide) hword .nil hbreak
  | primary parameters =>
    have hitems : Paired inside (separated (TemplateParameter.allWrites parameters)) := by
      rw [TemplateParameter.allWrites_eq]
      exact paired_separated fun parameter _ => paired_templateParameter parameter
    exact .enclosed '<' '>' (by decide) hword hitems hbreak

theorem paired_specializationWrites (template : Option TemplateHead) :
    Paired inside (specializationWrites template) := by
  unfold specializationWrites
  split
  · exact .group '<' '>' (by decide) (paired_argumentWrites _)
  · exact .nil

theorem paired_specializedName (entity : Entity) : Paired inside entity.specializedName :=
  (Paired.of_plain rfl).append (paired_specializationWrites entity.template)

theorem paired_leadingWords (words : List (Bool × String)) :
    Paired inside (leadingWords words) := by
  refine .flatMap fun (kept, word) _ => ?_
  cases kept <;> exact .of_plain rfl

theorem paired_trailingWords (words : List (Bool × String)) :
    Paired inside (trailingWords words) := by
  refine .flatMap fun (kept, word) _ => ?_
  cases kept <;> exact .of_plain rfl

theorem paired_variadicWrites (parameters : List Parameter) (variadic : Bool) :
    Paired inside (variadicWrites parameters variadic) := by
  unfold variadicWrites
  split
  · split <;> exact .of_plain rfl
  · exact .nil

theorem paired_function (function : FunctionDecl) {name : List Write}
    (hn : Paired inside name) : Paired inside (function.writes name) := by
  have hresult : Paired inside
      ((function.result.map fun result => result.writes ++ [.space]).getD []) :=
    .optional fun result => (paired_type result).append (.of_plain rfl)
  have hparameters : Paired inside (separated (function.parameters.map Parameter.writes)) :=
    paired_separated fun parameter _ => paired_parameter parameter
  have hleading : Paired inside (leadingWords [(function.isStatic, "static"),
      (function.isConstexpr, "constexpr"), (function.isVirtual, "virtual"),
      (function.isExplicit, "explicit")]) := paired_leadingWords _
  have hinner := hparameters.append
    (paired_variadicWrites function.parameters function.variadic)
  have htrailing : Paired inside (trailingWords [(function.isConst, "const"),
      (function.isNoexcept, "noexcept"), (function.isOverride, "override"),
      (function.isFinal, "final")]) := paired_trailingWords _
  have hall : Paired inside (_ ++ [.punctuation "("] ++ _ ++ [.punctuation ")"] ++ _) :=
    .enclosed '(' ')' (by decide) ((hleading.append hresult).append hn) hinner htrailing
  simpa only [FunctionDecl.writes, List.append_assoc] using hall

theorem paired_continuedWrites (lines : List String) : Paired inside (continuedWrites lines) := by
  induction lines with
  | nil => exact .nil
  | cons line rest ih =>
    cases rest with
    | nil =>
      unfold continuedWrites
      split
      · exact .nil
      · exact .of_plain rfl
    | cons next others =>
      have hline : Paired inside (if line = "" then [] else [.preprocessor line, .space]) := by
        split
        · exact .nil
        · exact .of_plain rfl
      exact (hline.append (.of_plain rfl)).append ih

theorem paired_replacementWrites (replacement : String) :
    Paired inside (replacementWrites replacement) := by
  unfold replacementWrites
  split
  · exact .nil
  · exact (Paired.of_plain rfl).append (paired_continuedWrites _)

theorem paired_macroParameterWrites (parameters : Option (List String)) :
    Paired inside (macroParameterWrites parameters) := by
  cases parameters with
  | none => exact .nil
  | some names =>
    -- The parentheses of a macro belong to the preprocessor and are no punctuation.
    have hnames : Paired inside ([.preprocessor ","].intercalate
        (names.map fun name => [.preprocessor name])) :=
      .intercalate (.of_plain rfl) (List.forall_mem_map.mpr fun name _ => .of_plain rfl)
    exact ((Paired.of_plain rfl).append hnames).append (.of_plain rfl)

theorem paired_baseWrites (bases : List BaseClass) : Paired inside (baseWrites bases) := by
  unfold baseWrites
  split
  · exact .nil
  · refine (Paired.of_plain rfl).append (paired_separated fun base _ => ?_)
    have haccess : Paired inside
        ((base.access.map fun access => [.keyword access.word, .space]).getD []) :=
      .optional fun access => .of_plain rfl
    exact ((paired_leadingWords _).append haccess).append (paired_type base.type)

theorem paired_beforeBrace (entity : Entity) : Paired inside entity.beforeBrace := by
  obtain ⟨_, _, kind, _, _, _⟩ := entity
  cases kind with
  | classType keyword isFinal bases forward =>
    exact (paired_trailingWords _).append (paired_baseWrites bases)
  | _ => exact .nil

theorem paired_signature {entity : Entity} (ha : entity.kind.word ≠ "access") :
    Paired inside entity.signature := by
  obtain ⟨_, name, kind, template, _, _⟩ := entity
  cases kind with
  | file => exact .nil
  | inclusion target system => exact .of_plain rfl
  | macroDefinition parameters replacement =>
    exact ((Paired.of_plain rfl).append (paired_macroParameterWrites parameters)).append
      (paired_replacementWrites replacement)
  | namespaceScope isInline =>
    exact ((paired_leadingWords _).append (.of_plain rfl)).append (paired_nameWrites name)
  | namespaceAlias target => exact .of_plain rfl
  | usingDirective target => exact .of_plain rfl
  | usingDeclaration target => exact .of_plain rfl
  | typeAlias aliased => exact (Paired.of_plain rfl).append (paired_type aliased)
  | enumeration isScoped underlying forward =>
    have hkeyword : Paired inside [.keyword "enum"] := .of_plain rfl
    exact ((hkeyword.append (paired_trailingWords _)).append (paired_nameWrites name)).append
      (.optional fun type => (Paired.of_plain rfl).append (paired_type type))
  | enumerator value => exact (Paired.of_plain rfl).append (paired_initializerWrites value)
  | classType keyword isFinal bases forward =>
    refine (Paired.of_plain rfl).append ?_
    split
    · exact .nil
    · exact (Paired.of_plain rfl).append (paired_specializedName _)
  | accessLabel access => exact absurd rfl ha
  | variableDecl type default storage isConstexpr =>
    have hstorage : Paired inside ((storage.word?.map fun word => [.keyword word, .space]).getD [])
      := .optional fun word => .of_plain rfl
    exact ((hstorage.append (paired_leadingWords _)).append
      (paired_declaratorWrites type (some name) false)).append (paired_initializerWrites default)
  | fieldDecl type default isMutable bits =>
    have hbits : Paired inside ((bits.map fun n =>
        [.space, .punctuation ":", .space, .token .intLiteral (toString n.toNat)]).getD []) :=
      .optional fun n => .of_plain rfl
    exact (((paired_leadingWords _).append (paired_declaratorWrites type (some name) false)).append
      hbits).append (paired_initializerWrites default)
  | functionDecl function => exact paired_function function (paired_specializedName _)

theorem paired_statementWrites (lines : List String) :
    Paired inside (Entity.statementWrites lines) :=
  .flatMap fun line _ => (paired_verbatimWrites line).append (.of_plain rfl)

theorem paired_lineEnd (entity : Entity) : Paired inside entity.lineEnd := by
  unfold Entity.lineEnd
  split
  · exact .of_plain rfl
  · exact .nil

theorem paired_closingMark (entity : Entity) : Paired inside entity.closingMark := by
  unfold Entity.closingMark
  split
  · exact .nil
  · exact .of_plain rfl

theorem paired_head {entity : Entity} (ha : entity.kind.word ≠ "access") :
    Paired inside entity.head :=
  (Paired.optional paired_templateHead).append (paired_signature ha)

theorem paired_declarationEnd {entity : Entity} (ha : entity.kind.word ≠ "access") :
    Paired inside entity.declarationEnd := by
  obtain ⟨_, _, kind, _, _, _⟩ := entity
  cases kind with
  | file => exact .nil
  | inclusion => exact .nil
  | macroDefinition => exact .nil
  | namespaceScope =>
    have hspace : Paired inside [.space] := .of_plain rfl
    exact .enclosed '\x7b' '\x7d' (by decide) hspace .nil .nil
  | accessLabel => exact absurd rfl ha
  | functionDecl function =>
    have hmark : Paired inside (Entity.bodyMark function.body) := by
      cases function.body <;> exact .of_plain rfl
    exact hmark.append (.of_plain rfl)
  | _ => exact .of_plain rfl

/-- Steps in braces, one level deeper. -/
theorem Paired.braced {before inner after : List Write} (hb : Paired inside before)
    (h : Paired true inner) (ha : Paired inside after) :
    Paired inside
      (before ++ Entity.openBrace ++ inner ++ [.unindent, .punctuation "\x7d"] ++ after) := by
  have hspace : Paired inside [.space] := .of_plain rfl
  have hblock : Paired inside ([.indent] ++ ([.lineBreak] ++ inner) ++ [.unindent]) :=
    .block ((Paired.of_plain rfl).append h)
  have hall : Paired inside
      (_ ++ [.punctuation "\x7b"] ++ _ ++ [.punctuation "\x7d"] ++ _) :=
    .enclosed '\x7b' '\x7d' (by decide) (hb.append hspace) hblock ha
  simpa only [Entity.openBrace, List.append_assoc, List.cons_append, List.nil_append] using hall

/-- A mere declaration is paired. That of an access needs a block to stand in. -/
theorem paired_declared {entity : Entity} (ha : entity.kind.word = "access" → inside = true) :
    Paired inside (entity.head ++ entity.declarationEnd ++ entity.lineEnd) := by
  refine Paired.append ?_ (paired_lineEnd entity)
  by_cases haccess : entity.kind.word = "access"
  · obtain rfl := ha haccess
    have htemplate : Paired true ((entity.template.map TemplateHead.writes).getD []) :=
      .optional paired_templateHead
    have hlabel : Paired true (entity.signature ++ entity.declarationEnd) := by
      obtain ⟨_, _, kind, _, _, _⟩ := entity
      cases kind with
      | accessLabel access =>
        have hwords : Paired false [.keyword access.word, .punctuation ":"] := .of_plain rfl
        exact .label hwords
      | _ => exact absurd haccess (by simp [EntityKind.word])
    rw [Entity.head, List.append_assoc]
    exact htemplate.append hlabel
  · exact (paired_head haccess).append (paired_declarationEnd haccess)

/-- The definition of a container is paired as soon as what stands in it is. -/
theorem paired_defined {entity : Entity} (hc : entity.isContainer = true) {inner : List Write}
    (h : Paired (inside || entity.IsScope) inner) :
    Paired inside
      (entity.head ++ entity.opening ++ inner ++ (entity.closing ++ entity.lineEnd)) := by
  have haccess : entity.kind.word ≠ "access" := by
    intro ha
    unfold Entity.isContainer at hc
    cases hk : entity.kind <;> simp_all [EntityKind.word]
  have hhead : Paired inside entity.head := paired_head haccess
  have hend : Paired inside entity.lineEnd := paired_lineEnd entity
  have hplain (hs : ¬entity.IsScope) : Paired inside inner := by
    simpa [hs] using h
  -- A container is the file, a scope in braces, or a function, whose braces may be empty.
  by_cases hf : entity.kind.word = "file"
  · have hinner := hplain fun hs => hs.ne_file hf
    obtain ⟨_, _, kind, _, _, _⟩ := entity
    cases kind with
    | file => exact ((hhead.append .nil).append hinner).append (Paired.nil.append hend)
    | _ => exact absurd hf (by simp [EntityKind.word])
  rcases Entity.isScope_of_isContainer hc hf with hs | ⟨function, hk⟩
  · have hall := Paired.braced (hhead.append (paired_beforeBrace entity)) h.weaken
      ((paired_closingMark entity).append hend)
    rw [Entity.opening_of_isScope hs, Entity.closing_of_isScope hs]
    simpa only [List.append_assoc] using hall
  · have hinner := hplain fun hs => by
      have hw := hs.1
      rw [hk] at hw
      exact absurd hw (by simp [EntityKind.word])
    unfold Entity.opening Entity.closing
    rw [hk]
    dsimp only
    split
    · -- Without statements there is nothing but the braces themselves.
      have hspace : Paired inside [.space] := .of_plain rfl
      have hall : Paired inside
          (_ ++ [.punctuation "\x7b"] ++ _ ++ [.punctuation "\x7d"] ++ _) :=
        .enclosed '\x7b' '\x7d' (by decide) (hhead.append hspace) hinner hend
      simpa only [List.append_assoc, List.cons_append, List.nil_append] using hall
    · have hall := Paired.braced hhead
        ((paired_statementWrites function.body.lines).append hinner.weaken) hend
      simpa only [List.append_assoc, List.cons_append, List.nil_append] using hall

end

/-- Whatever is decided about an orderly tree, it is written with steps that are paired. -/
theorem paired_written {decide : Entity → Detail} {entity : Entity} {inside : Bool}
    (h : ∀ e ∈ entity.walk, e.Orderly) (ha : entity.kind.word = "access" → inside = true) :
    Paired inside (written decide entity) := by
  induction entity using decision_induction decide generalizing inside with
  | omitted entity hd =>
    rw [written_of_omitted hd]
    exact .nil
  | definition entity hd hc ih =>
    rw [written_of_definition hd hc]
    refine paired_defined hc (.flatMap fun child hm => ih child hm ?_ fun haccess => ?_)
    · exact fun e he => h e (Entity.mem_walk_of_child hm he)
    · -- Labels stand in classes, and a class is a scope.
      have hclass := (h entity entity.self_mem_walk).access child hm haccess
      have hs : entity.IsScope := ⟨by simp [hclass], hc⟩
      simp [hs]
  | declaration entity ho hd =>
    rw [written_of_declaration ho hd]
    exact paired_declared ha

end HeaderSynopsis.Writing
