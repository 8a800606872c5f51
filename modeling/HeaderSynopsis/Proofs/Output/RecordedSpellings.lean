import HeaderSynopsis.Generation.Steps
import HeaderSynopsis.Proofs.Generation.Openings
import HeaderSynopsis.Proofs.Output.BareText

namespace HeaderSynopsis.Output

open Declaration Writing Generation Text

/-- Events that show a text in runs of tokens and line breaks. -/
structure Spells (events : List Event) (text : String) : Prop where
  steps : ∀ event ∈ events, event = .write .lineBreak ∨
    ∃ run, event = .write (.token .tokenSeq run) ∧ run ≠ "" ∧ OneLine run
  text : (recordedText events).toList = dropReturns text.toList

def unbroken : List Write → List Write
  | [] => []
  | .token .preprocessor "\\" :: .lineBreak :: rest => unbroken rest
  | w :: rest => w :: unbroken rest

def joinedLines : List String → List Write
  | [] => []
  | [line] => if line = "" then [] else [.preprocessor line]
  | line :: rest => (if line = "" then [] else [.preprocessor line, .space]) ++ joinedLines rest

def Continued (ws : List Write) : Prop :=
  ∀ before after, ws = before ++ .lineBreak :: after →
    before.getLast? = some (.preprocessor "\\")

structure Continues (ws : List Write) (lines : List String) : Prop where
  breaks : ws.count .lineBreak + 1 = lines.length
  continued : Continued ws
  joined : unbroken ws = .space :: joinedLines lines

-- The text of a spelling.

theorem stepsText_intercalate (lines : List (List Write)) :
    stepsText ([.lineBreak].intercalate lines) = "\n".intercalate (lines.map stepsText) := by
  induction lines with
  | nil => rfl
  | cons line rest ih =>
    cases rest with
    | nil => simp
    | cons next others =>
      rw [List.intercalate_cons_cons, stepsText_append, stepsText_append, ih, List.map_cons,
        List.map_cons, List.map_cons, String.intercalate_cons_cons]
      rfl

theorem stepsText_runWrites (run : String) : stepsText (runWrites run) = run := by
  unfold runWrites
  split
  · rename_i h
    exact h.symm
  · rw [stepsText_cons]
    exact String.append_empty

theorem stepsText_verbatimWrites (text : String) :
    (stepsText (verbatimWrites text)).toList = dropReturns text.toList := by
  have hruns : ((pieces text).map runWrites).map stepsText = pieces text := by
    rw [List.map_map]
    exact (List.map_congr_left fun run _ => stepsText_runWrites run).trans (List.map_id _)
  have hparts : (pieces text).map String.toList = (splitFeeds text.toList).map dropReturn := by
    rw [pieces, List.map_map]
    exact List.map_congr_left fun part _ => String.toList_ofList
  calc (stepsText (verbatimWrites text)).toList
      = ("\n".intercalate (pieces text)).toList := by
        rw [verbatimWrites, stepsText_intercalate, hruns]
    _ = ['\n'].intercalate ((splitFeeds text.toList).map dropReturn) := by
        rw [String.toList_intercalate, hparts]
        rfl
    _ = dropReturns text.toList := intercalate_dropReturn text.toList

/-- The steps of a spelling, as they are recorded, show it. -/
theorem spells_verbatimWrites (text : String) :
    Spells ((verbatimWrites text).map Event.write) text := by
  constructor
  · rw [List.forall_mem_map]
    apply forall_mem_verbatimWrites
    · exact .inl rfl
    · intro run hrun hne
      exact .inr ⟨run, rfl, hne, oneLine_pieces run hrun⟩
  · have hrecorded : recordedText ((verbatimWrites text).map Event.write) =
        stepsText (verbatimWrites text) := by
      rw [recordedText, stepsText, List.map_map]
      rfl
    rw [hrecorded, stepsText_verbatimWrites]

-- The lines of a macro.

theorem continued_of_notMem {ws : List Write} (h : .lineBreak ∉ ws) : Continued ws := by
  intro before after hsplit
  rw [hsplit] at h
  exact absurd (List.mem_append_right _ List.mem_cons_self) h

theorem continued_backslash : Continued [.preprocessor "\\", .lineBreak] := by
  intro before after hsplit
  cases before with
  | nil => cases hsplit
  | cons w before =>
    cases before with
    | nil => cases hsplit; rfl
    | cons next before => simp at hsplit

theorem Continued.append {ws vs : List Write} (hw : Continued ws) (hv : Continued vs) :
    Continued (ws ++ vs) := by
  intro before after hsplit
  rcases List.append_eq_append_iff.mp hsplit with ⟨between, rfl, hbetween⟩ | ⟨between, hws, hafter⟩
  · -- The line break is among the later steps, where the backslash comes before it.
    rw [List.getLast?_append, hv between after hbetween]
    rfl
  · cases between with
    | nil =>
      have hfirst := hv [] after hafter.symm
      cases hfirst
    | cons w between =>
      obtain ⟨rfl, -⟩ := List.cons.inj hafter
      exact hw before between hws

/-- A line that is not the last one is continued. -/
theorem continuedWrites_cons (line next : String) (others : List String) :
    continuedWrites (line :: next :: others) =
      (if line = "" then [] else [.preprocessor line, .space]) ++
        [.preprocessor "\\", .lineBreak] ++ continuedWrites (next :: others) := rfl

theorem lineBreak_notMem_line (line : String) :
    Write.lineBreak ∉ (if line = "" then [] else [.preprocessor line, .space] : List Write) := by
  split
  · exact List.not_mem_nil
  · simp [Write.preprocessor]

theorem count_continuedWrites {lines : List String} (h : lines ≠ []) :
    (continuedWrites lines).count .lineBreak + 1 = lines.length := by
  induction lines with
  | nil => exact absurd rfl h
  | cons line rest ih =>
    cases rest with
    | nil =>
      rw [continuedWrites]
      split
      · rfl
      · rfl
    | cons next others =>
      have hline := List.count_eq_zero.mpr (lineBreak_notMem_line line)
      have hcontinuation : [Write.preprocessor "\\", .lineBreak].count .lineBreak = 1 := rfl
      have hrest := ih (List.cons_ne_nil next others)
      rw [continuedWrites_cons, List.count_append, List.count_append, hline, hcontinuation,
        List.length_cons, ← hrest]
      omega

theorem continued_continuedWrites (lines : List String) : Continued (continuedWrites lines) := by
  induction lines with
  | nil => exact continued_of_notMem List.not_mem_nil
  | cons line rest ih =>
    cases rest with
    | nil =>
      apply continued_of_notMem
      rw [continuedWrites]
      split
      · exact List.not_mem_nil
      · simp [Write.preprocessor]
    | cons next others =>
      rw [continuedWrites_cons]
      apply Continued.append
      · exact (continued_of_notMem (lineBreak_notMem_line line)).append continued_backslash
      · exact ih

theorem unbroken_continuedWrites (lines : List String) :
    unbroken (continuedWrites lines) = joinedLines lines := by
  induction lines with
  | nil => rfl
  | cons line rest ih =>
    cases rest with
    | nil =>
      rw [continuedWrites, joinedLines]
      split
      · rfl
      · simp [unbroken, Write.preprocessor]
    | cons next others =>
      have hjoined : joinedLines (line :: next :: others) =
          (if line = "" then [] else [.preprocessor line, .space]) ++
            joinedLines (next :: others) := rfl
      rw [continuedWrites_cons, hjoined, ← ih]
      split
      · rfl
      · simp [unbroken, Write.preprocessor]

/-- Lines are shown behind a blank if there are any. -/
theorem continues_continuedWrites {lines : List String} (h : lines ≠ []) :
    Continues ([.space] ++ continuedWrites lines) lines where
  breaks := by
    rw [List.count_append, ← count_continuedWrites h]
    simp
  continued := by
    apply Continued.append
    · exact continued_of_notMem (by simp)
    · exact continued_continuedWrites lines
  joined := by
    rw [← unbroken_continuedWrites, List.singleton_append]
    simp [unbroken]

-- What is recorded of an entity that is not omitted.

def firstWrites (detail : Detail) (entity : Entity) : List Write :=
  if detail = .definition ∧ entity.isContainer then entity.head ++ entity.opening
  else entity.head ++ entity.declarationEnd ++ entity.lineEnd

def macroHead (entity : Entity) (parameters : Option (List String)) : List Write :=
  ((entity.template.map TemplateHead.writes).getD []) ++
    [.preprocessor "#define", .space, .preprocessor entity.name] ++ macroParameterWrites parameters

namespace Recorder

variable {r : Recorder} {entity : Entity} {detail : Detail}

theorem enter_generator (h : r.decision entity.id = some detail) (container : Bool) :
    r.generator.enter container entity #[] =
      (some detail, #[Event.of (.enter container entity)]) := by
  rw [← h]
  cases container with
  | false => rfl
  | true => rfl

/-- Events that are recorded stay in the record. -/
theorem keeps_prefix (r : Recorder) (events : List Event) :
    r.generator.Keeps (fun _ => True) fun s => events <+: s.toList := by
  have hpush (s : Array Event) (event : Event) (h : events <+: s.toList) :
      events <+: (s.push event).toList := by
    rw [Array.toList_push]
    exact List.prefix_append_of_prefix h
  exact ⟨fun _ _ s h => hpush s _ h, fun _ s h => hpush s _ h, fun _ s _ h => hpush s _ h⟩

/-- What is ended if it is a container has one event more then. -/
theorem toList_leave (r : Recorder) (container : Bool) (entity : Entity) (s : Array Event) :
    (if container then r.generator.leave entity s else s).toList =
      s.toList ++ if container then [.containerEnd entity.id] else [] := by
  cases container with
  | false => exact (List.append_nil _).symm
  | true => exact Array.toList_push

/-- A mere declaration is recorded as a whole. -/
theorem record_of_declaration (h : r.decision entity.id = some detail) (hw : detail ≠ .omitted)
    (hd : ¬(detail = .definition ∧ entity.isContainer)) :
    (r.record entity).1 =
      Event.of (.enter entity.isContainer entity) ::
        (entity.head ++ entity.declarationEnd ++ entity.lineEnd).map Event.write ++
        if entity.isContainer then [.containerEnd entity.id] else [] := by
  rw [record, generate_of_declaration (enter_generator h _) hw hd]
  dsimp only
  rw [toList_leave, toList_writeAll]
  rfl

/-- The record begins with what is written before the children. -/
theorem firstWrites_prefix_record (h : r.decision entity.id = some detail)
    (hw : detail ≠ .omitted) :
    Event.of (.enter entity.isContainer entity) :: (firstWrites detail entity).map Event.write <+:
      (r.record entity).1 := by
  by_cases hd : detail = .definition ∧ entity.isContainer
  · rw [firstWrites, if_pos hd]
    obtain ⟨rfl, hc⟩ := hd
    apply (r.keeps_prefix _).generate_of_definition (enter_generator h _) hc
    rw [toList_writeAll]
    exact List.prefix_refl _
  · rw [firstWrites, if_neg hd, record_of_declaration h hw hd]
    exact List.prefix_append _ _

/-- A scope records what is written in it. -/
theorem runScope_write (h : r.decision entity.id = some detail) (hw : detail ≠ .omitted)
    (container : Bool) (ws : List Write) :
    (runScope r.generator container entity [.write ws] #[]).state.1.toList =
      Event.of (.enter container entity) :: ws.map Event.write ++
        if container then [.containerEnd entity.id] else [] := by
  have henter : r.generator.noted.enter container entity (#[], []) =
      (some detail, #[Event.of (.enter container entity)], []) := by
    change (let (decision, next) := r.generator.enter container entity #[]
      (decision, next, [])) = _
    rw [enter_generator h container]
  have hwritten : detail.isWritten = true := Detail.isWritten_iff.mpr hw
  have hinside (s : Noted (Array Event)) : Step.runAll r.generator detail [.write ws] s =
      ⟨(r.generator.writeAll ws s.1, s.2), none⟩ := by
    rw [Step.runAll, Step.run, if_pos hwritten]
    rfl
  have hstate : (runScope r.generator container entity [.write ws] #[]).state.1 =
      let written := r.generator.writeAll ws #[Event.of (.enter container entity)]
      if container then r.generator.leave entity written else written := by
    rw [runScope, scope, henter]
    dsimp only
    rw [hinside, hwritten, Bool.and_true]
    cases container with
    | false => rfl
    | true => rfl
  rw [hstate]
  dsimp only
  rw [toList_leave, toList_writeAll]
  rfl

/-- Steps at the beginning of an entity are recorded where they stand in it. -/
theorem split_firstWrites_prefix_record (h : r.decision entity.id = some detail)
    (hw : detail ≠ .omitted) {before ws after : List Write}
    (hb : firstWrites detail entity = before ++ ws ++ after) :
    Event.of (.enter entity.isContainer entity) ::
      (before.map Event.write ++ ws.map Event.write ++ after.map Event.write) <+:
        (r.record entity).1 := by
  have hprefix := firstWrites_prefix_record h hw
  rwa [hb, List.map_append, List.map_append] at hprefix

/-- The statements of a function stand behind its brace. -/
theorem firstWrites_of_statements {function : FunctionDecl} {before after : List String}
    {text : String} (hkind : entity.kind = .functionDecl function)
    (hbody : function.body = .statements (before ++ text :: after)) :
    entity.isContainer = true ∧ firstWrites .definition entity =
      entity.head ++ Entity.openBrace ++ Entity.statementWrites before ++ verbatimWrites text ++
        .lineBreak :: Entity.statementWrites after := by
  have hcontainer : entity.isContainer = true := by
    rw [Entity.isContainer, hkind]
    dsimp only
    rw [hbody]
    rfl
  have hopening : entity.opening =
      Entity.openBrace ++ Entity.statementWrites (before ++ text :: after) := by
    rw [Entity.opening, hkind]
    dsimp only
    rw [hbody]
    exact if_neg (by simp [Body.lines])
  have hstatements : Entity.statementWrites (before ++ text :: after) =
      Entity.statementWrites before ++
        (verbatimWrites text ++ .lineBreak :: Entity.statementWrites after) := by
    simp [Entity.statementWrites]
  refine ⟨hcontainer, ?_⟩
  rw [firstWrites, if_pos ⟨rfl, hcontainer⟩, hopening, hstatements]
  simp only [List.append_assoc]

/-- A macro is recorded with its replacement in front of its line break. -/
theorem record_of_macro (h : r.decision entity.id = some detail) (hw : detail ≠ .omitted)
    {parameters : Option (List String)} {text : String} (hne : text ≠ "")
    (hkind : entity.kind = .macroDefinition parameters text) :
    (r.record entity).1 = Event.of (.enter false entity) ::
      (macroHead entity parameters ++ ([Write.space] ++ continuedWrites (Text.lines text)) ++
        [Write.lineBreak]).map Event.write := by
  have hcontainer : entity.isContainer = false := by rw [Entity.isContainer, hkind]
  have hends : entity.declarationEnd ++ entity.lineEnd = [.lineBreak] := by
    rw [Entity.declarationEnd, Entity.lineEnd, Entity.occupiesLine, hkind]
    rfl
  have hhead : entity.head =
      macroHead entity parameters ++ ([.space] ++ continuedWrites (Text.lines text)) := by
    rw [Entity.head, Entity.signature, hkind, macroHead]
    dsimp only
    rw [replacementWrites, if_neg hne]
    simp only [List.append_assoc]
  rw [record_of_declaration h hw (by simp [hcontainer]), hcontainer, List.append_assoc, hends,
    hhead]
  exact List.append_nil _

/-- Whatever a recorder decides about other entities, it shows a type, an expression or a statement
of an entity as it is spelled, in runs of tokens with line breaks between them. The replacement of a
macro is continued from line to line. -/
theorem record_spells (h : r.decision entity.id = some detail) (hw : detail ≠ .omitted)
    (text : String) :
    (∀ ws, ws = (CppType.verbatim text).writes ∨ ws = (Expression.verbatim text).writes →
      ∃ events, Spells events text ∧
        (∀ container before after,
          (runScope r.generator container entity
              [.write (before ++ ws ++ after)] #[]).state.1.toList =
            Event.of (.enter container entity) ::
              (before.map Event.write ++ events ++ after.map Event.write) ++
              if container then [.containerEnd entity.id] else []) ∧
        ∀ before after, firstWrites detail entity = before ++ ws ++ after →
          Event.of (.enter entity.isContainer entity) ::
            (before.map Event.write ++ events ++ after.map Event.write) <+: (r.record entity).1) ∧
    (∀ function before after, entity.kind = .functionDecl function →
      function.body = .statements (before ++ text :: after) → detail = .definition →
      ∃ events, Spells events text ∧
        Event.of (.enter true entity) ::
          ((entity.head ++ Entity.openBrace ++ Entity.statementWrites before).map Event.write ++
            events ++ (Write.lineBreak :: Entity.statementWrites after).map Event.write) <+:
          (r.record entity).1) ∧
    ∀ parameters, text ≠ "" → entity.kind = .macroDefinition parameters text →
      ∃ ws, Continues ws (Text.lines text) ∧
        (r.record entity).1 =
          Event.of (.enter false entity) ::
            (macroHead entity parameters ++ ws ++ [Write.lineBreak]).map Event.write := by
  refine ⟨?_, ?_, ?_⟩
  · intro ws hws
    have hverbatim : ws = verbatimWrites text := by
      rcases hws with rfl | rfl
      · exact List.append_nil _
      · rfl
    refine ⟨ws.map Event.write, ?_, ?_, ?_⟩
    · rw [hverbatim]
      exact spells_verbatimWrites text
    · intro container before after
      rw [runScope_write h hw, List.map_append, List.map_append]
    · intro before after hb
      exact split_firstWrites_prefix_record h hw hb
  · rintro function before after hkind hbody rfl
    obtain ⟨hcontainer, hb⟩ := firstWrites_of_statements hkind hbody
    have hprefix := split_firstWrites_prefix_record h hw hb
    rw [hcontainer] at hprefix
    exact ⟨_, spells_verbatimWrites text, hprefix⟩
  · intro parameters hne hkind
    exact ⟨_, continues_continuedWrites (lines_ne_nil hne), record_of_macro h hw hne hkind⟩

/-- A text of three lines as a type, as the body of a function and as the replacement of a macro. -/
theorem record_spells_begin :
    let r : Recorder := {}
    let text := "begin\r\n\nend"
    (∃ events, Spells events text ∧
      Event.leaf ⟨"T"⟩ ::
        (([.keyword "using", .space, .identifier "T", .space, .punctuation "=", .space] :
            List Write).map Event.write ++ events ++
          ([.punctuation ";", .lineBreak] : List Write).map Event.write) <+:
        (r.record (Entity.ofKind (.typeAlias (.verbatim text)) "T")).1) ∧
    (∃ events, Spells events text ∧
      Event.containerBegin ⟨"f"⟩ ::
        (([.identifier "f", .punctuation "(", .punctuation ")", .space, .punctuation "\x7b",
            .indent, .lineBreak] : List Write).map Event.write ++ events ++ [.write .lineBreak]) <+:
        (r.record (Entity.ofKind (.functionDecl { body := .statements [text] }) "f")).1) ∧
    ∃ ws, Continues ws ["begin", "", "end"] ∧
      (r.record (Entity.ofKind (.macroDefinition none text) "M")).1 =
        Event.leaf ⟨"M"⟩ ::
          ([.preprocessor "#define", .space, .preprocessor "M"] ++ ws ++
            [.lineBreak] : List Write).map Event.write := by
  intro r text
  have hwritten : Detail.definition ≠ .omitted := by decide
  have hlines : Text.lines text = ["begin", "", "end"] := by decide +kernel
  refine ⟨?_, ?_, ?_⟩
  · let entity := Entity.ofKind (.typeAlias (.verbatim text)) "T"
    have hdecision : r.decision entity.id = some .definition := rfl
    obtain ⟨events, hspells, -, hrecord⟩ :=
      (record_spells hdecision hwritten text).1 _ (.inl rfl)
    refine ⟨events, hspells, ?_⟩
    apply hrecord [.keyword "using", .space, .identifier "T", .space, .punctuation "=", .space]
      [.punctuation ";", .lineBreak]
    decide +kernel
  · let entity := Entity.ofKind (.functionDecl { body := .statements [text] }) "f"
    have hdecision : r.decision entity.id = some .definition := rfl
    exact (record_spells hdecision hwritten text).2.1 _ [] [] rfl rfl rfl
  · let entity := Entity.ofKind (.macroDefinition none text) "M"
    have hdecision : r.decision entity.id = some .definition := rfl
    have hmacro := (record_spells hdecision hwritten text).2.2 none (by decide) rfl
    rwa [hlines] at hmacro

end Recorder

end HeaderSynopsis.Output
