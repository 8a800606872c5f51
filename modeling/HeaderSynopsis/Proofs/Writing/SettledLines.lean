import HeaderSynopsis.Proofs.Generation.Visits
import HeaderSynopsis.Proofs.Writing.LineState
import HeaderSynopsis.Proofs.Writing.LoneLines

namespace HeaderSynopsis.Writing

open Declaration Generation LineLook Text

-- Entities begin on a blank line and leave one behind.

theorem leaves_templateHead (template : Option TemplateHead) :
    Leaves (Seen false) ((template.map TemplateHead.writes).getD [])
      ((template.map TemplateHead.loneLines).getD []) (Seen false) := by
  have hbreak : Leaves (Seen true) [.lineBreak] [] (Seen false) := .lineBreak_seen true
  match template with
  | none => exact .nil fun _ => id
  | some (.primary parameters) => exact (leaves_templateWrites parameters).append_nil hbreak
  | some (.specialization _) =>
    have hempty : Leaves (Seen false)
        [.keyword "template", .space, .punctuation "<", .punctuation ">"] [] (Seen true) :=
      .of_isSeen rfl rfl
    exact hempty.append hbreak

theorem leaves_specializationWrites (template : Option TemplateHead) :
    Leaves Any (specializationWrites template) (specializationLines template) Any := by
  match template with
  | none | some (.primary _) => exact .nil fun _ => id
  | some (.specialization special) =>
    have hopen : Leaves Any [.punctuation "<"] [] (Seen true) := .of_isSeen rfl rfl
    exact (hopen.append (leaves_argumentWrites special.arguments)).append_nil (.of_isInline rfl)

theorem leaves_leadingWords {words : List (Bool × String)}
    (hw : ∀ word ∈ words, isVisible word.2.toList = true) (seen : Bool) :
    Leaves (Seen seen) (leadingWords words) [] (Seen (seen || words.any Prod.fst)) := by
  induction words generalizing seen with
  | nil =>
    rw [List.any_nil, Bool.or_false]
    exact .nil fun _ => id
  | cons word rest ih =>
    obtain ⟨kept, word⟩ := word
    rw [List.forall_mem_cons] at hw
    cases kept with
    | false => exact ih hw.2 seen
    | true =>
      have hrest := ih hw.2 true
      rw [Bool.true_or] at hrest
      rw [List.any_cons, Bool.true_or, Bool.or_true]
      exact (leaves_wordAndSpace hw.1).append hrest

theorem leaves_leadingWord {word : String} (hw : isVisible word.toList = true)
    (kept seen : Bool) :
    Leaves (Seen seen) (leadingWords [(kept, word)]) [] (Seen (seen || kept)) := by
  have hwords : ∀ w ∈ [(kept, word)], isVisible w.2.toList = true :=
    List.forall_mem_singleton.mpr hw
  have hleaves := leaves_leadingWords hwords seen
  rwa [List.any_cons, List.any_nil, Bool.or_false] at hleaves

theorem leaves_trailingWords (words : List (Bool × String)) :
    Leaves Any (trailingWords words) [] Any := by
  apply Leaves.of_isInline
  rw [trailingWords, List.all_flatMap, List.all_eq_true]
  rintro ⟨kept, word⟩ _
  cases kept <;> rfl

theorem leaves_specializedName (entity : Entity) :
    Leaves Any entity.specializedName (specializationLines entity.template) Any := by
  have hname : Leaves Any [.identifier entity.name] [] Any := .of_isInline rfl
  exact hname.append (leaves_specializationWrites entity.template)

theorem leaves_variadicWrites (parameters : List Parameter) (variadic : Bool) :
    Leaves Any (variadicWrites parameters variadic) [] Any := by
  apply Leaves.of_isInline
  cases variadic with
  | false => rfl
  | true => cases parameters <;> rfl

theorem leaves_function (function : FunctionDecl) {name : List Write} {lines : List String}
    (hn : Leaves Any name lines Any) :
    Leaves (Seen false) (function.writes name)
      ((function.result.map (·.loneLines function.hasLeadingWord)).getD [] ++ lines ++
        function.parameters.flatMap Parameter.loneLines) Any := by
  have hwords : Leaves (Seen false)
      (leadingWords [(function.isStatic, "static"), (function.isConstexpr, "constexpr"),
        (function.isVirtual, "virtual"), (function.isExplicit, "explicit")]) []
      (Seen function.hasLeadingWord) := leaves_leadingWords (by simp [isVisible]) false
  have hresult : Leaves (Seen function.hasLeadingWord)
      ((function.result.map fun result => result.writes ++ [.space]).getD [])
      ((function.result.map (·.loneLines function.hasLeadingWord)).getD []) Any :=
    .optional (fun _ => Seen.any) fun result =>
      (leaves_type result function.hasLeadingWord).append_nil (.of_isInline rfl)
  have hopen : Leaves Any [.punctuation "("] [] (Seen true) := .of_isSeen rfl rfl
  have hparameters : Leaves (Seen true) (separated (function.parameters.map Parameter.writes))
      (function.parameters.flatMap Parameter.loneLines) Any :=
    .separated fun parameter _ => leaves_parameter parameter
  have hclose : Leaves Any [.punctuation ")"] [] Any := .of_isInline rfl
  exact (((((((hwords.append hresult).append hn).append_nil hopen).append hparameters).append_nil
    (leaves_variadicWrites _ _)).append_nil hclose).append_nil (leaves_trailingWords _))

/-- The line break behind a backslash ends a line that can be seen, so that only the last line of a
replacement may have a line to itself. -/
theorem leaves_continuedWrites (lines : List String) (seen : Bool) :
    Leaves (Seen seen) (continuedWrites lines) []
      (Ends (if seen then lines.tail else lines).getLast?.toList) := by
  induction lines generalizing seen with
  | nil =>
    have hnil : Leaves (Seen seen) [] [] (Ends []) := .nil fun _ => Seen.ends
    cases seen <;> exact hnil
  | cons line rest ih =>
    cases rest with
    | nil =>
      have hline := Leaves.run .preprocessor line seen
      cases seen <;> exact hline
    | cons next others =>
      have hline : Leaves (Seen seen) (if line = "" then [] else [.preprocessor line, .space]) []
          Any := by
        split
        · exact .of_isInline rfl
        · exact .of_isInline rfl
      have hmark : Leaves Any [.preprocessor "\\"] [] (Seen true) := .of_isSeen rfl rfl
      have hended := hline.append (hmark.append (.lineBreak_seen true))
      have hrest := hended.append (ih false)
      -- The equations of `continuedWrites` overlap; for two lines or more only the last one fits.
      change Leaves (Seen seen) (_ ++ [.preprocessor "\\", .lineBreak] ++
        continuedWrites (next :: others)) [] _
      cases seen <;> exact hrest

theorem leaves_replacementWrites (replacement : String) :
    Leaves (Seen true) (replacementWrites replacement) [] (Ends (replacementEnd replacement)) := by
  unfold replacementWrites
  split
  · rename_i hempty
    rw [hempty]
    exact .nil fun _ => Seen.ends
  · have hspace : Leaves (Seen true) [.space] [] (Seen true) := .of_visible rfl
    exact hspace.append (leaves_continuedWrites (lines replacement) true)

theorem leaves_macroParameterWrites (parameters : Option (List String)) :
    Leaves (Seen true) (macroParameterWrites parameters) [] (Seen true) := by
  apply Leaves.of_visible
  cases parameters with
  | none => rfl
  | some names =>
    have hnames : ∀ w ∈ [Write.preprocessor ","].intercalate
        (names.map fun name => [.preprocessor name]), w.isInline = true := by
      apply forall_mem_intercalate
      · exact List.forall_mem_singleton.mpr rfl
      · exact List.forall_mem_map.mpr fun _ _ => List.forall_mem_singleton.mpr rfl
    rw [macroParameterWrites, List.all_append, List.all_append, List.all_eq_true.mpr hnames]
    rfl

theorem leaves_baseWrites (bases : List BaseClass) :
    Leaves Any (baseWrites bases) (bases.flatMap (·.type.loneLines true)) Any := by
  unfold baseWrites
  split
  · rename_i hempty
    rw [List.isEmpty_iff.mp hempty]
    exact .nil fun _ => id
  · have hopen : Leaves Any [.space, .punctuation ":", .space] [] (Seen true) := .of_isSeen rfl rfl
    refine hopen.append (.separated fun base _ => ?_)
    have hvirtual : Leaves (Seen true) (leadingWords [(base.isVirtual, "virtual")]) [] (Seen true) :=
      leaves_leadingWord rfl base.isVirtual true
    have haccess : Leaves (Seen true) ((base.access.map fun access =>
        [.keyword access.word, .space]).getD []) [] (Seen true) := by
      apply Leaves.of_visible
      cases base.access <;> rfl
    exact (hvirtual.append haccess).append (leaves_type base.type true)

def afterSignature : EntityKind → LineLook → Prop
  | .file => Seen false
  | .inclusion .. | .accessLabel _ => Seen true
  | .macroDefinition _ replacement => Ends (replacementEnd replacement)
  | _ => Any

theorem leaves_signature (entity : Entity) :
    Leaves (Seen false) entity.signature entity.signatureLines (afterSignature entity.kind) := by
  obtain ⟨_, name, kind, template, _, _⟩ := entity
  cases kind with
  | file => exact .nil fun _ => id
  | inclusion target system =>
    have hwords : Leaves (Seen false) [.preprocessor "#include", .space,
        .preprocessor (if system then "<" ++ target ++ ">" else "\"" ++ target ++ "\"")] []
        (Seen true) := .of_isSeen rfl (by simp [Write.isSeen, Write.preprocessor, isVisible])
    exact hwords
  | macroDefinition parameters replacement =>
    have hname : Leaves (Seen false) [.preprocessor "#define", .space, .preprocessor name] []
        (Seen true) := .of_isSeen rfl (by simp [Write.isSeen, Write.preprocessor, isVisible])
    exact (hname.append (leaves_macroParameterWrites parameters)).append
      (leaves_replacementWrites replacement)
  | namespaceScope isInline =>
    have hwords : Leaves (Seen false) (leadingWords [(isInline, "inline")]) [] (Seen isInline) :=
      leaves_leadingWord rfl isInline false
    have hkeyword : Leaves (Seen isInline) [.keyword "namespace"] [] Any := .of_isInline rfl
    exact (hwords.append hkeyword).append (leaves_nameWrites name)
  | namespaceAlias target => exact .of_isInline rfl
  | usingDirective target => exact .of_isInline rfl
  | usingDeclaration target => exact .of_isInline rfl
  | typeAlias aliased =>
    have hname : Leaves (Seen false) [.keyword "using", .space, .identifier name] [] Any :=
      .of_isInline rfl
    exact (hname.append leaves_equalsWrites).append (leaves_type aliased true)
  | enumeration isScoped underlying forward =>
    have hkeyword : Leaves (Seen false) [.keyword "enum"] [] Any := .of_isInline rfl
    have hcolon : Leaves Any [.space, .punctuation ":", .space] [] (Seen true) := .of_isSeen rfl rfl
    exact ((hkeyword.append (leaves_trailingWords _)).append (leaves_nameWrites name)).append
      (.optional (fun _ => id) fun type => hcolon.append (leaves_type type true))
  | enumerator value =>
    have hname : Leaves (Seen false) [.identifier name] [] Any := .of_isInline rfl
    exact hname.append (leaves_initializerWrites value)
  | classType keyword isFinal bases forward =>
    have hkeyword : Leaves (Seen false) [.keyword keyword.word] [] Any := .of_isInline rfl
    change Leaves (Seen false) (_ ++ if name = "" then _ else _) (if name = "" then _ else _) Any
    split
    · exact hkeyword.append (.nil fun _ => id)
    · have hspace : Leaves Any [.space] [] Any := .of_isInline rfl
      exact hkeyword.append (hspace.append (leaves_specializedName _))
  | accessLabel access =>
    -- The level is lowered first, while the line is still blank.
    have hword : Leaves (Seen false) [.keyword access.word, .punctuation ":"] [] (Seen true) :=
      .of_isSeen rfl (by simp [Write.isSeen, Write.punctuation, isVisible])
    exact (Leaves.unindent false).append hword
  | variableDecl type default storage isConstexpr =>
    have hstorage : Leaves (Seen false)
        ((storage.word?.map fun word => [.keyword word, .space]).getD []) []
        (Seen storage.word?.isSome) := by
      cases storage with
      | automatic => exact .nil fun _ => id
      | static => exact .of_isSeen rfl rfl
      | external => exact .of_isSeen rfl rfl
      | threadLocal => exact .of_isSeen rfl rfl
    have hwords : Leaves (Seen storage.word?.isSome) (leadingWords [(isConstexpr, "constexpr")]) []
        (Seen (storage.word?.isSome || isConstexpr)) :=
      leaves_leadingWord rfl isConstexpr storage.word?.isSome
    exact ((hstorage.append hwords).append (leaves_declaratorWrites type (some name) false _)).append
      (leaves_initializerWrites default)
  | fieldDecl type default isMutable bits =>
    have hwords : Leaves (Seen false) (leadingWords [(isMutable, "mutable")]) []
        (Seen isMutable) := leaves_leadingWord rfl isMutable false
    have hbits : Leaves Any ((bits.map fun n =>
        [.space, .punctuation ":", .space, .token .intLiteral (toString n.toNat)]).getD []) []
        Any := by
      cases bits with
      | none => exact .nil fun _ => id
      | some n => exact .of_isInline rfl
    exact ((hwords.append (leaves_declaratorWrites type (some name) false isMutable)).append_nil
      hbits).append (leaves_initializerWrites default)
  | functionDecl function => exact leaves_function function (leaves_specializedName _)

theorem leaves_head (entity : Entity) :
    Leaves (Seen false) entity.head
      ((entity.template.map TemplateHead.loneLines).getD [] ++ entity.signatureLines)
      (afterSignature entity.kind) :=
  (leaves_templateHead entity.template).append (leaves_signature entity)

theorem leaves_openBrace : Leaves Any Entity.openBrace [] (Seen false) := by
  have hbrace : Leaves Any [.space, .punctuation "\x7b", .indent] [] (Seen true) :=
    .of_isSeen rfl rfl
  exact hbrace.append (.lineBreak_seen true)

/-- Every line of a statement is alone on its line. -/
theorem leaves_statementWrites (statements : List String) :
    Leaves (Seen false) (Entity.statementWrites statements) (statements.flatMap pieces)
      (Seen false) := by
  refine .flatMap fun statement _ => ?_
  have hlines : (pieces statement).dropLast ++ (pieces statement).getLast?.toList =
      pieces statement := by
    cases hlast : (pieces statement).getLast? with
    | none =>
      rw [List.getLast?_eq_none_iff.mp hlast]
      rfl
    | some last => exact List.dropLast_append_getLast? last hlast
  have hstatement := (leaves_runs (pieces statement) false).append .lineBreak
  exact hlines ▸ hstatement

/-- Whether the opening of a definition does not end its line: only that of an empty body does not. -/
def staysOnLine (entity : Entity) : Bool :=
  match entity.kind with
  | .functionDecl function => function.body.lines.isEmpty
  | _ => false

theorem leaves_opening {entity : Entity} (hc : entity.isContainer = true) :
    Leaves (afterSignature entity.kind) entity.opening entity.openingLines
      (Seen (staysOnLine entity)) := by
  obtain ⟨_, name, kind, _, _, _⟩ := entity
  cases kind with
  | file => exact .nil fun _ => id
  | namespaceScope isInline => exact leaves_openBrace
  | enumeration isScoped underlying forward => exact leaves_openBrace
  | classType keyword isFinal bases forward =>
    exact ((leaves_trailingWords _).append (leaves_baseWrites bases)).append_nil leaves_openBrace
  | functionDecl function =>
    unfold Entity.opening Entity.openingLines staysOnLine
    dsimp only
    -- The braces of an empty body stay on one line; every statement of another one ends its line.
    cases function.body.lines with
    | nil => exact .of_isSeen rfl rfl
    | cons statement rest => exact leaves_openBrace.append (leaves_statementWrites _)
  | _ => exact absurd hc Bool.false_ne_true

/-- The closing goes on on the line of the opening, or begins a line of its own. -/
theorem leaves_closing (entity : Entity) (seen : Bool)
    (hs : seen = true → entity.occupiesLine = true) :
    Leaves (Seen seen) (entity.closing ++ entity.lineEnd) [] (Seen false) := by
  have hbreak : Leaves (Seen true) [.lineBreak] [] (Seen false) := .lineBreak_seen true
  have hbrace : Leaves (Seen seen) [.punctuation "\x7d"] [] (Seen true) := .of_isSeen rfl rfl
  have hend : Leaves (Seen seen) [.punctuation "\x7d", .punctuation ";"] [] (Seen true) :=
    .of_isSeen rfl rfl
  obtain ⟨_, name, kind, _, _, _⟩ := entity
  cases kind with
  | file =>
    cases seen with
    | false => exact .nil fun _ => id
    | true => exact absurd (hs rfl) Bool.false_ne_true
  | namespaceScope isInline => exact ((Leaves.unindent seen).append hbrace).append hbreak
  | enumeration isScoped underlying forward =>
    exact ((Leaves.unindent seen).append hend).append hbreak
  | classType keyword isFinal bases forward =>
    exact ((Leaves.unindent seen).append hend).append hbreak
  | functionDecl function =>
    have hlevel : Leaves (Seen seen) (if function.body.lines.isEmpty then [] else [.unindent]) []
        (Seen seen) := by
      split
      · exact .nil fun _ => id
      · exact .unindent seen
    exact (hlevel.append hbrace).append hbreak
  | _ => exact .lineBreak_seen seen

theorem leaves_end (entity : Entity) :
    Leaves (afterSignature entity.kind) (entity.declarationEnd ++ entity.lineEnd) entity.endLines
      (Seen false) := by
  have hbreak : Leaves (Seen true) [.lineBreak] [] (Seen false) := .lineBreak_seen true
  have hend : Leaves Any [.punctuation ";"] [] (Seen true) := .of_isSeen rfl rfl
  obtain ⟨_, name, kind, _, _, _⟩ := entity
  cases kind with
  | file => exact .nil fun _ => id
  | inclusion target system => exact hbreak
  | macroDefinition parameters replacement => exact .lineBreak
  | namespaceScope isInline =>
    have hbraces : Leaves Any [.space, .punctuation "\x7b", .punctuation "\x7d"] [] (Seen true) :=
      .of_isSeen rfl rfl
    exact hbraces.append hbreak
  | enumerator value =>
    have hcomma : Leaves Any [.punctuation ","] [] (Seen true) := .of_isSeen rfl rfl
    exact hcomma.append hbreak
  | accessLabel access =>
    have hlevel : Leaves (Seen true) [.indent] [] (Seen true) := .of_visible rfl
    exact hlevel.append hbreak
  | functionDecl function =>
    have hmark : Leaves Any (Entity.bodyMark function.body) [] Any := by
      apply Leaves.of_isInline
      cases function.body <;> rfl
    exact (hmark.append hend).append hbreak
  | _ => exact hend.append hbreak

theorem occupiesLine_of_staysOnLine {entity : Entity} (hs : staysOnLine entity = true) :
    entity.occupiesLine = true := by
  obtain ⟨_, name, kind, _, _, _⟩ := entity
  cases kind with
  | functionDecl function => rfl
  | _ => exact absurd hs Bool.false_ne_true

/-- Only what holds others by its kind has children, and its opening ends its line. -/
theorem children_eq_nil_of_staysOnLine {entity : Entity} (h : entity.Orderly)
    (hs : staysOnLine entity = true) : entity.children = [] := by
  by_contra hne
  have ha := h.leaf hne
  obtain ⟨_, name, kind, _, _, _⟩ := entity
  cases kind with
  | functionDecl function => exact absurd ha Bool.false_ne_true
  | _ => exact absurd hs Bool.false_ne_true

/-- Whatever is decided about a tree, it is written from a blank line to a blank line. The faint
lines are those among the lines that the spellings of the entities shown have to themselves. -/
theorem leaves_written (decide : Entity → Detail) {entity : Entity}
    (h : ∀ e ∈ entity.walk, e.Orderly) :
    Leaves (Seen false) (written decide entity)
      ((visits decide entity).flatMap fun e => e.loneLines (decide e)) (Seen false) := by
  induction entity using decision_induction decide with
  | omitted entity hd =>
    rw [written_of_omitted hd, visits_eq, hd, List.flatMap_cons, Entity.loneLines, hd]
    exact .nil fun _ => id
  | definition entity hd hc ih =>
    have hopen := (leaves_head entity).append (leaves_opening hc)
    have hchildren : Leaves (Seen false) (entity.children.flatMap (written decide))
        (entity.children.flatMap fun child =>
          (visits decide child).flatMap fun e => e.loneLines (decide e)) (Seen false) :=
      .flatMap fun child hm => ih child hm fun e he => h e (Entity.mem_walk_of_child hm he)
    have hlines : entity.loneLines .definition =
        (entity.template.map TemplateHead.loneLines).getD [] ++ entity.signatureLines ++
          entity.openingLines := by
      rw [Entity.loneLines, if_neg Detail.noConfusion, if_pos ⟨rfl, hc⟩]
    rw [written_of_definition hd hc, visits_eq, if_pos ⟨hd, hc⟩, List.flatMap_cons,
      List.flatMap_assoc, hd, hlines]
    cases hs : staysOnLine entity with
    | false =>
      rw [hs] at hopen
      exact (hopen.append hchildren).append_nil (leaves_closing entity false Bool.noConfusion)
    | true =>
      -- The body of a function is empty, and so is what the opening and the closing stand around.
      have hnone := children_eq_nil_of_staysOnLine (h entity entity.self_mem_walk) hs
      rw [hs] at hopen
      rw [hnone, List.flatMap_nil, List.flatMap_nil, List.append_nil, List.append_nil]
      exact hopen.append_nil (leaves_closing entity true fun _ => occupiesLine_of_staysOnLine hs)
  | declaration entity ho hd =>
    have hlines : entity.loneLines (decide entity) =
        (entity.template.map TemplateHead.loneLines).getD [] ++ entity.signatureLines ++
          entity.endLines := by
      rw [Entity.loneLines, if_neg ho, if_neg hd]
    rw [written_of_declaration ho hd, visits_eq, if_neg hd, List.flatMap_singleton, hlines,
      List.append_assoc]
    exact (leaves_head entity).append (leaves_end entity)

def LineLook.state : LineLook → LineState
  | .blank => .blank
  | .hollow => .hollow
  | .faint _ | .visible => .begun

theorem state_put (text : String) (line : LineLook) :
    (line.put text).state = line.state.put text := by
  have hput : (if isVisible text.toList then LineLook.visible
      else if text = "" then .hollow else .faint text).state =
        if text = "" then .hollow else .begun := by
    by_cases hempty : text = ""
    · rw [hempty]
      rfl
    · -- Some text is on the line then, whether it can be seen or not.
      by_cases hv : isVisible text.toList = true
      · simp [hv, hempty, state]
      · simp [hv, hempty, state]
  cases line with
  | blank => exact hput
  | hollow => exact hput
  | visible => rfl
  | faint before =>
    rw [LineLook.put]
    split
    · rfl
    · rfl

/-- Steps that can be taken one way can be taken the other way. -/
theorem run?_of_survey {ws : List Write} {s s' : Survey} (h : Survey.run? ws s = some s') :
    LineState.run? ws s.line.state = some s'.line.state := by
  induction ws generalizing s with
  | nil =>
    obtain rfl := Option.some.inj h
    rfl
  | cons w ws ih =>
    obtain ⟨s₁, hnext, hrun⟩ := Option.bind_eq_some_iff.mp h
    -- The state of the line is what the survey knows of it, without the text.
    have hstep : LineState.next? w s.line.state = some s₁.line.state := by
      have hput (text : String) (hs : some (s.put text) = some s₁) :
          some (s.line.state.put text) = some s₁.line.state := by
        obtain rfl := Option.some.inj hs
        exact congrArg some (state_put text s.line).symm
      cases w with
      | token kind text => exact hput text hnext
      | reference targets name => exact hput name hnext
      | space =>
        rw [← hput " " hnext]
        cases s.line <;> rfl
      | indent =>
        obtain rfl := Option.some.inj hnext
        rfl
      | unindent =>
        rw [Survey.next?] at hnext
        split at hnext
        · cases hnext
        · rename_i hline
          obtain rfl := Option.some.inj hnext
          cases hl : s.line <;> simp_all [LineState.next?, state]
      | lineBreak =>
        obtain ⟨ended, hended, rfl⟩ := Option.map_eq_some_iff.mp hnext
        cases hl : s.line <;> simp_all [LineState.next?, state, ended?]
    rw [LineState.run?, hstep]
    exact ih hrun

/-- Where the steps can be taken, they can be taken from a line with some text, too, and lead to the
same line or to one with some text. -/
theorem run?_begun {ws : List Write} {s s' : LineState} (h : LineState.run? ws s = some s') :
    ∃ t, LineState.run? ws .begun = some t ∧ (t = s' ∨ LineState.Begun t) := by
  -- Both runs are followed at once, from lines that are related in this way already.
  suffices hboth : ∀ t, t = s ∨ LineState.Begun t →
      ∃ t', LineState.run? ws t = some t' ∧ (t' = s' ∨ LineState.Begun t') from
    hboth .begun (Or.inr rfl)
  induction ws generalizing s with
  | nil =>
    obtain rfl := Option.some.inj h
    exact fun t ht => ⟨t, rfl, ht⟩
  | cons w ws ih =>
    intro t ht
    obtain ⟨s₁, hnext, hrun⟩ := Option.bind_eq_some_iff.mp h
    obtain ⟨t₁, hnext', ht₁⟩ : ∃ t₁, LineState.next? w t = some t₁ ∧
        (t₁ = s₁ ∨ LineState.Begun t₁) := by
      rcases ht with rfl | rfl
      · exact ⟨s₁, hnext, Or.inl rfl⟩
      · cases w with
        | lineBreak =>
          rw [LineState.next?] at hnext
          split at hnext
          · cases hnext
          · exact ⟨.blank, rfl, Or.inl (Option.some.inj hnext)⟩
        | _ => exact ⟨.begun, rfl, Or.inr rfl⟩
    obtain ⟨t', hrun', ht'⟩ := ih hrun t₁ ht₁
    exact ⟨t', by rw [LineState.run?, hnext', Option.bind_some, hrun'], ht'⟩

theorem leads_of_leaves {ws : List Write} {lines : List String} {seen : Bool}
    (h : Leaves (Seen false) ws lines (Seen seen)) :
    Leads LineState.Settled ws LineState.Settled := by
  obtain ⟨line, hsurvey, hline⟩ := h {} rfl
  have hrun : LineState.run? ws .blank = some line.state := run?_of_survey hsurvey
  have hsettled : LineState.Settled line.state := by
    rw [Seen] at hline
    rw [hline]
    cases seen <;> exact LineState.noConfusion
  intro s hs
  cases s with
  | blank => exact ⟨line.state, hrun, hsettled⟩
  | hollow => exact absurd rfl hs
  | begun =>
    obtain ⟨t, hrun', rfl | rfl⟩ := run?_begun hrun
    · exact ⟨_, hrun', hsettled⟩
    · exact ⟨_, hrun', LineState.noConfusion⟩

/-- Whatever is decided, writing an entity never ends a hollow line nor lowers its level, and leaves
no hollow line behind. -/
theorem leads_written (decide : Entity → Detail) (entity : Entity) :
    Leads LineState.Settled (written decide entity) LineState.Settled := by
  induction entity using decision_induction decide with
  | omitted entity hd =>
    rw [written_of_omitted hd]
    exact .nil fun _ => id
  | definition entity hd hc ih =>
    have hopen := leads_of_leaves ((leaves_head entity).append (leaves_opening hc))
    have hclose := leads_of_leaves (leaves_closing entity false Bool.noConfusion)
    rw [written_of_definition hd hc]
    exact (hopen.append (.flatMap ih)).append hclose
  | declaration entity ho hd =>
    rw [written_of_declaration ho hd, List.append_assoc]
    exact leads_of_leaves ((leaves_head entity).append (leaves_end entity))

end HeaderSynopsis.Writing
