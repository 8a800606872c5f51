import HeaderSynopsis.Proofs.Coding.Fields
import HeaderSynopsis.Proofs.Declaration.Expressions
import HeaderSynopsis.Proofs.Writing.Types

namespace HeaderSynopsis.Declaration

open Data

theorem Id.carries (id : Id) : Carries (.text id.text) decode id :=
  ⟨Datum.noConfusion, Datum.fitsWords_text id.text, rfl⟩

theorem Reference.carries (reference : Reference) :
    Carries reference.encode decode reference := by
  obtain ⟨targets, name⟩ := reference
  have hlist : Carries (.list (targets.map fun target => .text target.text))
      (Datum.list? Id.decode) targets :=
    .list fun target _ => target.carries
  have htargets : Carries (.list (targets.map fun target => .text target.text)) decodeTargets
      targets :=
    ⟨hlist.notNull, hlist.fits, hlist.reads⟩
  unfold encode
  dsimp only
  split
  · exact ⟨Datum.noConfusion, by simp, rfl⟩
  · refine .record (by simp [htargets.fits]) ?_
    rw [ofFields, Fields.required_of_lookup ?_ htargets]
    all_goals rfl

theorem Expression.carries {value : Expression} (h : value.Spelled) :
    Carries value.encode decode value := by
  cases value with
  | verbatim spelling => exact ⟨Datum.noConfusion, Datum.fitsWords_text spelling, rfl⟩
  | literal kind text =>
    cases kind with
    | bool =>
      rcases h with rfl | rfl
      · exact ⟨Datum.noConfusion, Datum.fitsWords_bool true, rfl⟩
      · exact ⟨Datum.noConfusion, Datum.fitsWords_bool false, rfl⟩
    | int => exact ⟨Datum.noConfusion, by simp [encode], rfl⟩
    | float => exact ⟨Datum.noConfusion, by simp [encode], rfl⟩
    | string => exact ⟨Datum.noConfusion, by simp [encode], rfl⟩
    | char => exact ⟨Datum.noConfusion, by simp [encode], rfl⟩

theorem decodeAll_arguments_eq (items : List Datum) :
    TemplateArgument.decodeAll items = items.mapM TemplateArgument.decode :=
  mapM_of_cons (by rw [TemplateArgument.decodeAll])
    (fun item rest => by rw [TemplateArgument.decodeAll]) items

theorem decodeField_arguments_eq (name : String) (fields : Fields) :
    TemplateArgument.decodeField name fields =
      fields.defaulted name [] (Datum.list? TemplateArgument.decode) :=
  defaulted_of_cons decodeAll_arguments_eq (by rw [TemplateArgument.decodeField])
    (fun word items rest => by rw [TemplateArgument.decodeField])
    (fun word datum rest hd => by rw [TemplateArgument.decodeField]; exact hd) fields

theorem encodeAll_arguments_eq (arguments : List TemplateArgument) :
    TemplateArgument.encodeAll arguments = arguments.map TemplateArgument.encode := by
  induction arguments with
  | nil => rfl
  | cons argument rest ih => rw [TemplateArgument.encodeAll, ih, List.map_cons]

theorem carries_arguments {arguments : List TemplateArgument}
    (h : ∀ argument ∈ arguments, Carries argument.encode TemplateArgument.decode argument) :
    Carries (.list (TemplateArgument.encodeAll arguments))
      (Datum.list? TemplateArgument.decode) arguments := by
  rw [encodeAll_arguments_eq]
  exact .list h

theorem TemplateArgument.carries_of {argument : TemplateArgument}
    (h : AllSpelled argument.expressions)
    (ht : ∀ type, argument = .type type → AllSpelled type.expressions →
      Carries type.encode CppType.decode type) :
    Carries argument.encode decode argument := by
  cases argument with
  | type type =>
    obtain ⟨-, hfits, hreads⟩ := ht type rfl h
    refine ⟨Datum.noConfusion, by simp [encode, hfits], ?_⟩
    rw [encode, decode]
    simp [hfits, hreads]
  | value value =>
    obtain ⟨-, hfits, hreads⟩ := Expression.carries (h value List.mem_cons_self)
    refine ⟨Datum.noConfusion, by simp [encode, hfits], ?_⟩
    rw [encode, decode]
    simp [hreads]
  | template target =>
    obtain ⟨-, hfits, hreads⟩ := target.carries
    refine ⟨Datum.noConfusion, by simp [encode, hfits], ?_⟩
    rw [encode, decode]
    simp [hreads]

/-- A type in a table with one field, which is never taken for a reference. -/
theorem CppType.carries_node {word : String} {datum : Datum} {type : CppType}
    (hw : word ≠ "ref") (hfits : datum.fitsWords = true)
    (hnode : Reference.ofFields [(word, datum)] = none →
      decode (.table [(word, datum)]) = some type) :
    Carries (.table [(word, datum)]) decode type := by
  refine ⟨Datum.noConfusion, by simp [hfits], hnode ?_⟩
  have hnone : ("ref" == word) = false := beq_false_of_ne hw.symm
  simp [Reference.ofFields, Fields.required, List.lookup_cons, hnone]

theorem CppType.carries (type : CppType) (h : AllSpelled type.expressions) :
    Carries type.encode decode type := by
  induction type using CppType.type_induction with
  | builtin spelling =>
    refine carries_node (by decide) (Datum.fitsWords_text spelling) fun hnone => ?_
    rw [decode, hnone]
    rfl
  | named target =>
    obtain ⟨-, hfits, hreads⟩ := target.carries
    refine ⟨Datum.noConfusion, hfits, ?_⟩
    -- Two fields make it no node.
    obtain ⟨ref, name, hform⟩ : ∃ ref name, target.encode = .table [ref, name] := ⟨_, _, rfl⟩
    rw [hform] at hreads
    rw [encode, hform, decode, hreads]
    · rfl
    · exact fun _ => Datum.noConfusion
    · intro word value heq
      injection heq with heq
      injection heq with _ heq
      contradiction
  | verbatim spelling =>
    refine ⟨Datum.noConfusion, Datum.fitsWords_text spelling, ?_⟩
    rw [encode, decode]
  | const inner ih | volatile inner ih | pointer inner ih | lvalueRef inner ih
  | rvalueRef inner ih =>
    obtain ⟨-, hfits, hreads⟩ := ih h
    refine carries_node (by decide) hfits fun hnone => ?_
    rw [decode, hnone]
    simp [hreads]
  | array element size ih =>
    rw [expressions, AllSpelled.append_iff] at h
    obtain ⟨-, hfits, hreads⟩ := ih h.1
    have hsize : ∀ x ∈ size, Carries x.encode Expression.decode x :=
      fun x hx => Expression.carries (h.2 x (Option.mem_toList.mpr hx))
    refine carries_node (by decide) (by simp [hfits, Fields.all_optionalField hsize]) fun hnone => ?_
    rw [decode, hnone]
    dsimp only
    rw [decodeArray, decodeField, if_pos rfl, hreads, Option.bind_eq_bind, Option.bind_some,
      Fields.optional_of_lookup ?_ hsize]
    · rfl
    · simp
  | instantiation template arguments ih =>
    rw [expressions, allExpressions_arguments_eq, AllSpelled.flatMap_iff] at h
    have harguments : Carries (.list (TemplateArgument.encodeAll arguments))
        (Datum.list? TemplateArgument.decode) arguments := by
      refine carries_arguments fun argument ha => TemplateArgument.carries_of (h argument ha) ?_
      intro type ht hspelled
      exact ih type (ht ▸ ha) hspelled
    have htemplate := template.carries
    refine carries_node (by decide) (by simp [htemplate.fits, harguments.fits]) fun hnone => ?_
    rw [decode, hnone]
    dsimp only
    rw [decodeInstantiation, decodeField_arguments_eq, Fields.required_of_lookup ?_ htemplate,
      Fields.defaulted_of_lookup ?_ harguments]
    all_goals rfl

theorem CppType.carries_read (type : CppType) (h : AllSpelled type.expressions) :
    Carries type.encode read type :=
  (type.carries h).fitting

theorem TemplateArgument.carries (argument : TemplateArgument)
    (h : AllSpelled argument.expressions) : Carries argument.encode decode argument :=
  carries_of h fun type _ => type.carries

theorem TypeKeyword.carries (keyword : TypeKeyword) (blank : Blank) :
    Carries (.text keyword.word) (decode blank) keyword := by
  apply Carries.word
  cases keyword <;> rfl

theorem decodeAll_parameters_eq (nested : TagForm) (items : List Datum) :
    TemplateParameter.decodeAll nested items =
      items.mapM (TemplateParameter.decode nested nested) :=
  mapM_of_cons (by rw [TemplateParameter.decodeAll])
    (fun item rest => by rw [TemplateParameter.decodeAll]) items

theorem decodeField_parameters_eq (nested : TagForm) (fields : Fields) :
    TemplateParameter.decodeField nested fields =
      fields.defaulted "params" [] (Datum.list? (TemplateParameter.decode nested nested)) :=
  defaulted_of_cons (decodeAll_parameters_eq nested) (by rw [TemplateParameter.decodeField])
    (fun word items rest => by rw [TemplateParameter.decodeField])
    (fun word datum rest hd => by rw [TemplateParameter.decodeField]; exact hd) fields

theorem encodeAll_parameters_eq (parameters : List TemplateParameter) :
    TemplateParameter.encodeAll parameters = parameters.map TemplateParameter.encode := by
  induction parameters with
  | nil => rfl
  | cons parameter rest ih => rw [TemplateParameter.encodeAll, ih, List.map_cons]

theorem TemplateParameter.carries (parameter : TemplateParameter)
    (h : AllSpelled parameter.expressions) (form nested : TagForm) :
    Carries parameter.encode (decode form nested) parameter := by
  induction parameter using TemplateParameter.parameter_induction generalizing form nested with
  | type name keyword variadic default =>
    have hdefault : ∀ type ∈ default, Carries type.encode CppType.decode type := by
      intro type ht
      rw [expressions, AllSpelled.flatMap_iff] at h
      exact type.carries (h type (Option.mem_toList.mpr ht))
    have hkind : ParameterKind.words.lookup "type" = some .type := rfl
    refine ⟨Datum.noConfusion, by simp [encode, Fields.all_optionalField hdefault], ?_⟩
    rw [encode, decode, Fields.required_of_lookup ?_ (.tag hkind form), Option.bind_eq_bind,
      Option.bind_some, ofFields, Fields.required_of_lookup ?_ (.text name),
      Fields.defaulted_of_lookup ?_ (.bool variadic)]
    simp only [Option.bind_eq_bind, Option.bind_some]
    rw [Fields.defaulted_of_lookup ?_ (keyword.carries _),
      Fields.optional_of_lookup ?_ hdefault]
    all_goals simp
  | value name holds variadic default =>
    rw [expressions, AllSpelled.append_iff] at h
    have hholds := holds.carries h.1
    have hdefault : ∀ x ∈ default, Carries x.encode Expression.decode x :=
      fun x hx => Expression.carries (h.2 x (Option.mem_toList.mpr hx))
    have hkind : ParameterKind.words.lookup "non_type" = some .value := rfl
    refine ⟨Datum.noConfusion, by simp [encode, hholds.fits, Fields.all_optionalField hdefault], ?_⟩
    rw [encode, decode, Fields.required_of_lookup ?_ (.tag hkind form), Option.bind_eq_bind,
      Option.bind_some, ofFields, Fields.required_of_lookup ?_ (.text name),
      Fields.defaulted_of_lookup ?_ (.bool variadic)]
    simp only [Option.bind_eq_bind, Option.bind_some]
    rw [Fields.required_of_lookup ?_ hholds, Fields.optional_of_lookup ?_ hdefault]
    all_goals simp
  | template name parameters variadic default ih =>
    rw [expressions, allExpressions_parameters_eq, AllSpelled.flatMap_iff] at h
    have hparameters : Carries (.list (encodeAll parameters)) (Datum.list? (decode nested nested))
        parameters := by
      rw [encodeAll_parameters_eq]
      -- Tags inside a list may be written otherwise than those outside of it.
      exact .list fun parameter hp => ih parameter hp (h parameter hp) nested nested
    have hdefault : ∀ target ∈ default, Carries target.encode Reference.decode target :=
      fun target _ => target.carries
    have hkind : ParameterKind.words.lookup "template" = some .template := rfl
    refine ⟨Datum.noConfusion,
      by simp [encode, hparameters.fits, Fields.all_optionalField hdefault], ?_⟩
    rw [encode, decode, Fields.required_of_lookup ?_ (.tag hkind form), Option.bind_eq_bind,
      Option.bind_some, ofFields, Fields.required_of_lookup ?_ (.text name),
      Fields.defaulted_of_lookup ?_ (.bool variadic)]
    simp only [Option.bind_eq_bind, Option.bind_some]
    rw [decodeField_parameters_eq, Fields.defaulted_of_lookup ?_ hparameters,
      Fields.optional_of_lookup ?_ hdefault]
    all_goals simp

theorem TemplateParameter.carries_read (parameter : TemplateParameter)
    (h : AllSpelled parameter.expressions) (form nested : TagForm) :
    Carries parameter.encode (read form nested) parameter :=
  (parameter.carries h form nested).fitting

theorem Specialization.carries (special : Specialization)
    (h : AllSpelled (TemplateArgument.allExpressions special.arguments)) :
    Carries special.encode decode special := by
  rw [allExpressions_arguments_eq, AllSpelled.flatMap_iff] at h
  have htemplate := special.template.carries
  have harguments := carries_arguments fun argument ha => argument.carries (h argument ha)
  refine .record (by simp [htemplate.fits, harguments.fits]) ?_
  rw [ofFields, Fields.required_of_lookup ?_ htemplate, decodeField_arguments_eq,
    Fields.defaulted_of_lookup ?_ harguments]
  all_goals rfl

theorem TemplateHead.carries (head : TemplateHead) (h : AllSpelled head.expressions)
    (nested : TagForm) : Carries head.encode (decode nested) head := by
  cases head with
  | primary parameters =>
    rw [expressions, allExpressions_parameters_eq, AllSpelled.flatMap_iff] at h
    have hparameters : Carries (.list (TemplateParameter.encodeAll parameters))
        (Datum.list? (TemplateParameter.read .word nested)) parameters := by
      rw [encodeAll_parameters_eq]
      exact .list fun parameter hp => parameter.carries_read (h parameter hp) .word nested
    refine ⟨Datum.noConfusion, by simp [encode, hparameters.fits], ?_⟩
    have hreads : decodeParameters nested (.list (TemplateParameter.encodeAll parameters)) =
        some parameters :=
      hparameters.reads
    change (decodeParameters nested _).map primary = _
    rw [hreads]
    rfl
  | specialization special =>
    have hspecial := special.carries h
    refine ⟨Datum.noConfusion, by simp [encode, hspecial.fits], ?_⟩
    change (Specialization.decode _).map specialization = _
    rw [hspecial.reads]
    rfl

end HeaderSynopsis.Declaration
