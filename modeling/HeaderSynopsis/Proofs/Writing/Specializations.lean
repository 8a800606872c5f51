import HeaderSynopsis.Output.Layout
import HeaderSynopsis.Proofs.Generation.Openings
import HeaderSynopsis.Proofs.Writing.Types

namespace HeaderSynopsis.Writing

open Declaration

def Write.isIdentifier : Write → Bool
  | .token .identifier _ => true
  | _ => false

def Nameless (ws : List Write) : Prop := ∀ w ∈ ws, w.isIdentifier = false

namespace Nameless

variable {ws vs : List Write}

theorem nil : Nameless [] := fun _ h => absurd h List.not_mem_nil

theorem cons {w : Write} (hw : w.isIdentifier = false) (h : Nameless ws) : Nameless (w :: ws) :=
  List.forall_mem_cons.mpr ⟨hw, h⟩

theorem append (h : Nameless ws) (h' : Nameless vs) : Nameless (ws ++ vs) :=
  List.forall_mem_append.mpr ⟨h, h'⟩

theorem intercalate {sep : List Write} {items : List (List Write)} (hsep : Nameless sep)
    (hitems : ∀ item ∈ items, Nameless item) : Nameless (sep.intercalate items) :=
  forall_mem_intercalate hsep hitems

theorem optional {α : Type} {value : Option α} {writes : α → List Write}
    (h : ∀ a, Nameless (writes a)) : Nameless ((value.map writes).getD []) := by
  cases value with
  | none => exact nil
  | some a => exact h a

end Nameless

theorem nameless_verbatimWrites (spelling : String) : Nameless (verbatimWrites spelling) :=
  forall_mem_verbatimWrites rfl fun _ _ _ => rfl

theorem nameless_expression (value : Expression) : Nameless value.writes := by
  cases value with
  | literal kind text => cases kind <;> exact .cons rfl .nil
  | verbatim spelling => exact nameless_verbatimWrites spelling

theorem nameless_boundWrites (size : Option Expression) : Nameless (boundWrites size) := by
  have hopen : Nameless [.punctuation "["] := .cons rfl .nil
  have hclose : Nameless [.punctuation "]"] := .cons rfl .nil
  exact (hopen.append (.optional nameless_expression)).append hclose

theorem nameless_qualified (word : String) (behind : Bool) {inner : List Write}
    (h : Nameless inner) : Nameless (qualified word behind inner) := by
  cases behind with
  | true => exact h.append (.cons rfl (.cons rfl .nil))
  | false => exact .cons rfl (.cons rfl h)

/-- The names of types are written as references, so that no part of a type is an identifier. -/
theorem nameless_parts (type : CppType) : Nameless type.parts.1 ∧ Nameless type.parts.2 := by
  have hmark (text : String) : Nameless [.punctuation text] := .cons rfl .nil
  induction type using CppType.type_induction with
  | builtin spelling => exact ⟨.cons rfl .nil, .nil⟩
  | named target => exact ⟨.cons rfl .nil, .nil⟩
  | verbatim spelling => exact ⟨nameless_verbatimWrites spelling, .nil⟩
  | const inner ih => exact ⟨nameless_qualified _ _ (ih.1.append ih.2), .nil⟩
  | volatile inner ih => exact ⟨nameless_qualified _ _ (ih.1.append ih.2), .nil⟩
  | pointer inner ih | lvalueRef inner ih | rvalueRef inner ih =>
    exact ⟨(ih.1.append ih.2).append (hmark _), .nil⟩
  | array element size ih => exact ⟨ih.1, (nameless_boundWrites size).append ih.2⟩
  | instantiation template arguments ih =>
    have hitems : Nameless (separated (TemplateArgument.allWrites arguments)) := by
      rw [TemplateArgument.allWrites_eq]
      apply Nameless.intercalate
      · exact .cons rfl (.cons rfl .nil)
      · intro item hitem
        obtain ⟨argument, hargument, rfl⟩ := List.mem_map.mp hitem
        cases argument with
        | type type => exact (ih type hargument).1.append (ih type hargument).2
        | value value => exact nameless_expression value
        | template target => exact .cons rfl .nil
    have hopen : Nameless [.link template, .punctuation "<"] := .cons rfl (hmark _)
    exact ⟨(hopen.append hitems).append (hmark _), .nil⟩

theorem nameless_type (type : CppType) : Nameless type.writes :=
  (nameless_parts type).1.append (nameless_parts type).2

theorem nameless_leadingWords (words : List (Bool × String)) : Nameless (leadingWords words) := by
  intro w hw
  obtain ⟨⟨kept, word⟩, -, hw⟩ := List.mem_flatMap.mp hw
  cases kept with
  | false => exact absurd hw List.not_mem_nil
  | true =>
    have hword : Nameless [.keyword word, .space] := .cons rfl (.cons rfl .nil)
    exact hword w hw

/-- The first identifier among some steps, with the steps before it and behind it. -/
structure FirstIdentifier (ws before : List Write) (name : String) (after : List Write) : Prop where
  split : ws = before ++ .identifier name :: after
  nameless : Nameless before

end HeaderSynopsis.Writing

namespace HeaderSynopsis.Declaration

open Writing Generation Output

def argumentList (arguments : List TemplateArgument) : List Write :=
  .punctuation "<" ::
    [.punctuation ",", .space].intercalate (arguments.map TemplateArgument.writes) ++
      [.punctuation ">"]

def emptyHead : List Write :=
  [.keyword "template", .space, .punctuation "<", .punctuation ">", .lineBreak]

theorem specializationWrites_eq (special : Specialization) :
    specializationWrites (some (.specialization special)) = argumentList special.arguments := by
  rw [specializationWrites, argumentWrites, TemplateArgument.allWrites_eq]
  rfl

/-- What is written around the name of a function does not depend on the name, and there is no
identifier before it. -/
theorem FunctionDecl.exists_around_name (function : FunctionDecl) :
    ∃ before after, Nameless before ∧ ∀ name, function.writes name = before ++ name ++ after := by
  let leading := leadingWords [(function.isStatic, "static"), (function.isConstexpr, "constexpr"),
    (function.isVirtual, "virtual"), (function.isExplicit, "explicit")]
  let result := (function.result.map fun result => result.writes ++ [.space]).getD []
  have hresult : Nameless result := by
    apply Nameless.optional
    intro type
    exact (nameless_type type).append (.cons rfl .nil)
  refine ⟨leading ++ result, [.punctuation "("] ++
    separated (function.parameters.map Parameter.writes) ++
    variadicWrites function.parameters function.variadic ++ [.punctuation ")"] ++
    trailingWords [(function.isConst, "const"), (function.isNoexcept, "noexcept"),
      (function.isOverride, "override"), (function.isFinal, "final")],
    (nameless_leadingWords _).append hresult, ?_⟩
  intro name
  simp only [FunctionDecl.writes, leading, result, List.append_assoc]

/-- Neither the bounds of an array nor an initial value nor the end of a declaration begins like
template arguments. -/
theorem not_argumentList_prefix (type : CppType) (default : Option Expression)
    (arguments : List TemplateArgument) (later : List Write) :
    ¬argumentList arguments <+:
      type.parts.2 ++ initializerWrites default ++ .punctuation ";" :: later := by
  rintro ⟨rest, h⟩
  have hhead := congrArg List.head? h
  cases type <;> cases default <;>
    simp [argumentList, CppType.parts, boundWrites, initializerWrites, equalsWrites,
      Write.punctuation] at hhead

namespace Entity

variable {entity : Entity} {special : Specialization}

theorem head_of_specialization (h : entity.template = some (.specialization special)) :
    entity.head = emptyHead ++ entity.signature := by
  rw [head, h]
  rfl

/-- A class or function has the arguments right behind its name, which is its first identifier. -/
theorem firstIdentifier_signature (h : entity.template = some (.specialization special))
    (hname : entity.name ≠ "") (hkind : entity.kind.word ∈ ["class", "function"]) :
    ∃ before after, FirstIdentifier entity.signature before entity.name
      (argumentList special.arguments ++ after) := by
  have hspecialized :
      entity.specializedName = .identifier entity.name :: argumentList special.arguments := by
    rw [specializedName, h, specializationWrites_eq]
    rfl
  cases hk : entity.kind with
  | classType keyword isFinal bases forward =>
    refine ⟨[.keyword keyword.word, .space], [], ?_, .cons rfl (.cons rfl .nil)⟩
    rw [signature, hk]
    dsimp only
    rw [if_neg hname, hspecialized, List.append_nil]
    rfl
  | functionDecl function =>
    obtain ⟨before, after, hbefore, hwrites⟩ := function.exists_around_name
    refine ⟨before, after, ?_, hbefore⟩
    rw [signature, hk]
    dsimp only
    rw [hwrites, hspecialized, List.append_assoc]
    rfl
  | _ => simp [hk, EntityKind.word] at hkind

/-- Behind the name of a variable, its first identifier, there are no arguments. -/
theorem firstIdentifier_variable (hname : entity.name ≠ "") (hkind : entity.kind.word = "variable")
    (arguments : List TemplateArgument) :
    ∃ before after,
      FirstIdentifier (entity.signature ++ entity.declarationEnd ++ entity.lineEnd) before
        entity.name after ∧
      ¬argumentList arguments <+: after := by
  cases hk : entity.kind with
  | variableDecl type default storage isConstexpr =>
    let leading : List Write :=
      (storage.word?.map fun word => [.keyword word, .space]).getD [] ++
        leadingWords [(isConstexpr, "constexpr")]
    have hleading : Nameless leading := by
      apply Nameless.append
      · apply Nameless.optional
        intro word
        exact .cons rfl (.cons rfl .nil)
      · exact nameless_leadingWords _
    have hspace : Nameless [.space] := .cons rfl .nil
    have hwrites : entity.signature ++ entity.declarationEnd ++ entity.lineEnd =
        leading ++ type.parts.1 ++ [.space] ++ .identifier entity.name ::
          (type.parts.2 ++ initializerWrites default ++ .punctuation ";" :: [.lineBreak]) := by
      simp [signature, declarationEnd, lineEnd, occupiesLine, hk, declaratorWrites, packWrites,
        nameWrites, hname, leading]
    exact ⟨_, _, ⟨hwrites, (hleading.append (nameless_parts type).1).append hspace⟩,
      not_argumentList_prefix type default arguments _⟩
  | _ => simp [hk, EntityKind.word] at hkind

/-- A full specialization begins with its template head, and its name is the first identifier. The
arguments are right behind the name exactly if the entity is no variable. -/
theorem arguments_behind_name_iff (hkind : entity.kind.word ∈ ["class", "function", "variable"])
    (hname : entity.name ≠ "") (htemplate : entity.template = some (.specialization special))
    {σ : Type} (g : Generator σ) {s : σ} {detail : Detail}
    (hdetail : (g.enter entity.isContainer entity s).1 = some detail)
    (hwritten : detail ≠ .omitted) :
    ∃ rest before after,
      writesTaken g entity s = emptyHead ++ rest ∧
      FirstIdentifier rest before entity.name after ∧
      (argumentList special.arguments <+: after ↔ entity.kind.word ≠ "variable") := by
  have hhead := head_of_specialization htemplate
  by_cases hvariable : entity.kind.word = "variable"
  · -- A variable is no container, so that its declaration is all that is written.
    have hcontainer : entity.isContainer = false := by
      cases hk : entity.kind <;> simp_all [isContainer, EntityKind.word]
    obtain ⟨before, after, hfirst, hnone⟩ :=
      firstIdentifier_variable hname hvariable special.arguments
    refine ⟨_, before, after, ?_, hfirst, iff_of_false hnone (not_not_intro hvariable)⟩
    rw [writesTaken_of_declaration hdetail hwritten (by simp [hcontainer]), hhead]
    simp only [List.append_assoc]
  · have hothers : entity.kind.word ∈ ["class", "function"] := by
      simpa [hvariable] using hkind
    obtain ⟨before, after, hfirst⟩ := firstIdentifier_signature htemplate hname hothers
    obtain ⟨later, hlater⟩ := head_prefix_writesTaken hdetail hwritten
    refine ⟨entity.signature ++ later, before, argumentList special.arguments ++ after ++ later, ?_,
      ⟨?_, hfirst.nameless⟩, iff_of_true ?_ hvariable⟩
    · rw [← hlater, hhead, List.append_assoc]
    · rw [hfirst.split]
      simp only [List.append_assoc, List.cons_append]
    · rw [List.append_assoc]
      exact List.prefix_append _ _

def parseWord : Entity where
  id := ⟨"parse"⟩
  name := "parse"
  kind := .functionDecl
    { result := some (.builtin "bool")
      parameters := [⟨some "parse", .builtin "int", none, false⟩] }
  template := some (.specialization
    ⟨.toTarget ⟨"parse"⟩, [.type (.const (.builtin "char")), .value (.int 8)]⟩)
  comment := none
  children := []

theorem arguments_behind_name_iff_parseWord :
    parseWord.kind.word ∈ ["class", "function", "variable"] ∧ parseWord.name ≠ "" ∧
      ∃ rest before after,
        writesTaken bareText parseWord "" = emptyHead ++ rest ∧
        FirstIdentifier rest before "parse" after ∧
        argumentList [.type (.const (.builtin "char")), .value (.int 8)] <+: after := by
  have hkind : parseWord.kind.word ∈ ["class", "function", "variable"] := by decide
  have hname : parseWord.name ≠ "" := by decide
  have hdetail : (bareText.enter parseWord.isContainer parseWord "").1 = some .definition := rfl
  obtain ⟨rest, before, after, hwrites, hfirst, harguments⟩ :=
    arguments_behind_name_iff hkind hname rfl bareText hdetail (by decide)
  exact ⟨hkind, hname, rest, before, after, hwrites, hfirst, harguments.mpr (by decide)⟩

def digitsOfLong : Entity where
  id := ⟨"digits"⟩
  name := "digits"
  kind := .variableDecl (.builtin "int") none .automatic false
  template := some (.specialization ⟨.toTarget ⟨"digits"⟩, [.type (.builtin "long")]⟩)
  comment := none
  children := []

/-- It is written without its argument. -/
theorem argumentList_missing_digitsOfLong :
    writesTaken bareText digitsOfLong "" =
        emptyHead ++ [.keyword "int", .space, .identifier "digits", .punctuation ";", .lineBreak] ∧
      ¬.identifier "digits" :: argumentList [.type (.builtin "long")] <:+:
        writesTaken bareText digitsOfLong "" := by
  decide

end Entity

end HeaderSynopsis.Declaration
