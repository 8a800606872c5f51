import HeaderSynopsis.Proofs.Coding.Entity

namespace HeaderSynopsis.Declaration

open Data

variable {datum : Datum}

theorem Expression.spelled_of_decode {value : Expression} (h : decode datum = some value) :
    value.Spelled := by
  unfold decode at h
  split at h
  case h_1 b =>
    obtain rfl := Option.some_inj.mp h
    cases b
    · exact Or.inr rfl
    · exact Or.inl rfl
  case h_2 n =>
    unfold ofInt? at h
    split at h
    · obtain rfl := Option.some_inj.mp h
      exact trivial
    · split at h
      · obtain rfl := Option.some_inj.mp h
        exact trivial
      · contradiction
  case h_9 => contradiction
  all_goals
    obtain rfl := Option.some_inj.mp h
    exact trivial

def CppType.PartsRead : CppType → Prop
  | .builtin _ | .named _ | .verbatim _ => True
  | .const inner | .volatile inner | .pointer inner | .lvalueRef inner | .rvalueRef inner =>
      ∃ datum, decode datum = some inner
  | .array element size => (∃ datum, decode datum = some element) ∧ AllSpelled size.toList
  | .instantiation _ arguments =>
      ∀ argument ∈ arguments, ∃ datum, TemplateArgument.decode datum = some argument

theorem spelled_of_optional {fields : Fields} {name : String} {value : Option Expression}
    (h : fields.optional name Expression.decode = some value) : AllSpelled value.toList := by
  intro x hx
  obtain ⟨datum, hread⟩ := Fields.exists_of_optional h x (Option.mem_toList.mp hx)
  exact Expression.spelled_of_decode hread

theorem decodeField_type_eq (name : String) (fields : Fields) :
    CppType.decodeField name fields = fields.required name CppType.decode := by
  induction fields with
  | nil =>
    rw [CppType.decodeField]
    rfl
  | cons field rest ih =>
    obtain ⟨word, datum⟩ := field
    rw [CppType.decodeField, ih, Fields.required, Fields.required, Fields.lookup_cons_eq]
    by_cases hw : word = name
    · simp [hw]
    · simp [hw, Ne.symm hw]

theorem CppType.partsRead_array {type : CppType} (h : decodeArray datum = some type) :
    type.PartsRead := by
  unfold decodeArray at h
  split at h
  · rw [decodeField_type_eq] at h
    obtain ⟨element, helement, h⟩ := Option.bind_eq_some_iff.mp h
    obtain ⟨size, hsize, h⟩ := Option.bind_eq_some_iff.mp h
    obtain rfl := Option.some_inj.mp h
    exact ⟨Fields.exists_of_required helement, spelled_of_optional hsize⟩
  · obtain ⟨element, helement, rfl⟩ := Option.map_eq_some_iff.mp h
    exact ⟨⟨_, helement⟩, AllSpelled.nil⟩
  · obtain ⟨element, helement, h⟩ := Option.bind_eq_some_iff.mp h
    obtain ⟨size, hsize, h⟩ := Option.bind_eq_some_iff.mp h
    obtain rfl := Option.some_inj.mp h
    exact ⟨⟨_, helement⟩, spelled_of_optional hsize⟩
  · contradiction

theorem read_of_decodeField {name : String} {fields : Fields} {arguments : List TemplateArgument}
    (h : TemplateArgument.decodeField name fields = some arguments) :
    ∀ argument ∈ arguments, ∃ datum, TemplateArgument.decode datum = some argument := by
  rw [decodeField_arguments_eq] at h
  rcases Fields.exists_of_defaulted h with rfl | ⟨datum, hlist⟩
  · exact fun argument ha => absurd ha List.not_mem_nil
  · exact exists_of_list? hlist

theorem CppType.partsRead_instantiation {type : CppType}
    (h : decodeInstantiation datum = some type) : type.PartsRead := by
  unfold decodeInstantiation at h
  split at h
  · obtain ⟨template, -, h⟩ := Option.bind_eq_some_iff.mp h
    obtain ⟨arguments, harguments, h⟩ := Option.bind_eq_some_iff.mp h
    obtain rfl := Option.some_inj.mp h
    exact read_of_decodeField harguments
  · obtain ⟨template, -, rfl⟩ := Option.map_eq_some_iff.mp h
    exact fun argument ha => absurd ha List.not_mem_nil
  · obtain ⟨template, -, h⟩ := Option.bind_eq_some_iff.mp h
    obtain ⟨arguments, harguments, h⟩ := Option.bind_eq_some_iff.mp h
    obtain rfl := Option.some_inj.mp h
    rw [decodeAll_arguments_eq] at harguments
    exact exists_of_mapM harguments
  · contradiction

theorem CppType.partsRead_of_decode {type : CppType} (h : decode datum = some type) :
    type.PartsRead := by
  unfold decode at h
  split at h
  · obtain rfl := Option.some_inj.mp h
    exact trivial
  · split at h
    · obtain rfl := Option.some_inj.mp h
      exact trivial
    · split at h
      case h_1 =>
        obtain ⟨spelling, -, rfl⟩ := Option.map_eq_some_iff.mp h
        exact trivial
      case h_7 => exact partsRead_array h
      case h_8 => exact partsRead_instantiation h
      case h_9 => contradiction
      all_goals
        obtain ⟨inner, hinner, rfl⟩ := Option.map_eq_some_iff.mp h
        exact ⟨_, hinner⟩
  · obtain ⟨target, -, rfl⟩ := Option.map_eq_some_iff.mp h
    exact trivial

/-- An argument is spelled if the type in it is, should it have one. -/
theorem TemplateArgument.spelled_of {argument : TemplateArgument} (h : decode datum = some argument)
    (ht : ∀ type, argument = .type type → ∀ datum, CppType.decode datum = some type →
      AllSpelled type.expressions) : AllSpelled argument.expressions := by
  unfold decode at h
  split at h
  · split at h
    · split at h
      · obtain ⟨type, htype, rfl⟩ := Option.map_eq_some_iff.mp h
        exact ht type rfl _ htype
      · contradiction
    · obtain ⟨value, hvalue, rfl⟩ := Option.map_eq_some_iff.mp h
      exact List.forall_mem_singleton.mpr (Expression.spelled_of_decode hvalue)
    · obtain ⟨target, -, rfl⟩ := Option.map_eq_some_iff.mp h
      exact AllSpelled.nil
    · contradiction
  · contradiction

theorem CppType.spelled_of_decode {type : CppType} (h : decode datum = some type) :
    AllSpelled type.expressions := by
  have hparts := partsRead_of_decode h
  clear h
  induction type using CppType.type_induction with
  | builtin spelling | named target | verbatim spelling => exact AllSpelled.nil
  | const inner ih | volatile inner ih | pointer inner ih | lvalueRef inner ih
  | rvalueRef inner ih =>
    obtain ⟨datum, hinner⟩ := hparts
    exact ih (partsRead_of_decode hinner)
  | array element size ih =>
    obtain ⟨⟨datum, helement⟩, hsize⟩ := hparts
    exact AllSpelled.append_iff.mpr ⟨ih (partsRead_of_decode helement), hsize⟩
  | instantiation template arguments ih =>
    rw [expressions, allExpressions_arguments_eq, AllSpelled.flatMap_iff]
    intro argument ha
    obtain ⟨datum, hargument⟩ := hparts argument ha
    refine TemplateArgument.spelled_of hargument fun type ht datum htype => ?_
    exact ih type (ht ▸ ha) (partsRead_of_decode htype)

theorem TemplateArgument.spelled_of_decode {argument : TemplateArgument}
    (h : decode datum = some argument) : AllSpelled argument.expressions :=
  spelled_of h fun _ _ _ => CppType.spelled_of_decode

theorem CppType.spelled_of_read {type : CppType} (h : read datum = some type) :
    AllSpelled type.expressions := by
  unfold read at h
  split at h
  · exact spelled_of_decode h
  · contradiction

section

variable {α : Type} {read : Datum → Option α} {expressions : α → List Expression}
  {fields : Fields} {name : String}
  (hread : ∀ datum a, read datum = some a → AllSpelled (expressions a))

include hread

theorem spelled_of_required {a : α} (h : fields.required name read = some a) :
    AllSpelled (expressions a) := by
  obtain ⟨datum, hdatum⟩ := Fields.exists_of_required h
  exact hread datum a hdatum

theorem spelled_of_optionalField {value : Option α} (h : fields.optional name read = some value) :
    AllSpelled (value.toList.flatMap expressions) := by
  rw [AllSpelled.flatMap_iff]
  intro a ha
  obtain ⟨datum, hdatum⟩ := Fields.exists_of_optional h a (Option.mem_toList.mp ha)
  exact hread datum a hdatum

theorem spelled_of_listField {values : List α}
    (h : fields.defaulted name [] (Datum.list? read) = some values) :
    AllSpelled (values.flatMap expressions) := by
  rw [AllSpelled.flatMap_iff]
  intro a ha
  rcases Fields.exists_of_defaulted h with rfl | ⟨list, hlist⟩
  · exact absurd ha List.not_mem_nil
  · obtain ⟨datum, hdatum⟩ := exists_of_list? hlist a ha
    exact hread datum a hdatum

end

def TemplateParameter.PartsRead (nested : TagForm) : TemplateParameter → Prop
  | .type _ _ _ default => AllSpelled (default.toList.flatMap CppType.expressions)
  | .value _ holds _ default => AllSpelled holds.expressions ∧ AllSpelled default.toList
  | .template _ parameters _ _ =>
      ∀ parameter ∈ parameters, ∃ datum, decode nested nested datum = some parameter

theorem TemplateParameter.partsRead_of_ofFields {kind : ParameterKind} {nested : TagForm}
    {inner : Option (List TemplateParameter)} {fields : Fields} {parameter : TemplateParameter}
    (hinner : ∀ parameters, inner = some parameters →
      ∀ q ∈ parameters, ∃ datum, decode nested nested datum = some q)
    (h : ofFields kind inner fields = some parameter) : parameter.PartsRead nested := by
  obtain ⟨name, -, h⟩ := Option.bind_eq_some_iff.mp h
  obtain ⟨variadic, -, h⟩ := Option.bind_eq_some_iff.mp h
  cases kind with
  | type =>
    obtain ⟨keyword, -, h⟩ := Option.bind_eq_some_iff.mp h
    obtain ⟨default, hdefault, h⟩ := Option.bind_eq_some_iff.mp h
    obtain rfl := Option.some_inj.mp h
    exact spelled_of_optionalField (fun _ _ => CppType.spelled_of_decode) hdefault
  | value =>
    obtain ⟨holds, hholds, h⟩ := Option.bind_eq_some_iff.mp h
    obtain ⟨default, hdefault, h⟩ := Option.bind_eq_some_iff.mp h
    obtain rfl := Option.some_inj.mp h
    exact ⟨spelled_of_required (fun _ _ => CppType.spelled_of_decode) hholds,
      spelled_of_optional hdefault⟩
  | template =>
    obtain ⟨parameters, hparameters, h⟩ := Option.bind_eq_some_iff.mp h
    obtain ⟨default, -, h⟩ := Option.bind_eq_some_iff.mp h
    obtain rfl := Option.some_inj.mp h
    exact hinner parameters hparameters

theorem TemplateParameter.partsRead_of_decode {form nested : TagForm}
    {parameter : TemplateParameter} (h : decode form nested datum = some parameter) :
    parameter.PartsRead nested := by
  unfold decode at h
  split at h
  · obtain ⟨kind, -, h⟩ := Option.bind_eq_some_iff.mp h
    refine partsRead_of_ofFields (fun parameters hfield => ?_) h
    rw [decodeField_parameters_eq] at hfield
    rcases Fields.exists_of_defaulted hfield with rfl | ⟨list, hlist⟩
    · exact fun q hq => absurd hq List.not_mem_nil
    · exact exists_of_list? hlist
  · obtain ⟨kind, -, h⟩ := Option.bind_eq_some_iff.mp h
    obtain ⟨fields, -, h⟩ := Option.bind_eq_some_iff.mp h
    refine partsRead_of_ofFields (fun parameters hsecond => ?_) h
    unfold decodeSecond at hsecond
    split at hsecond
    · rw [decodeAll_parameters_eq] at hsecond
      exact exists_of_mapM hsecond
    · contradiction
    · obtain rfl := Option.some_inj.mp hsecond
      exact fun q hq => absurd hq List.not_mem_nil
  · contradiction

theorem TemplateParameter.spelled_of_decode {form nested : TagForm} {parameter : TemplateParameter}
    (h : decode form nested datum = some parameter) : AllSpelled parameter.expressions := by
  have hparts := partsRead_of_decode h
  clear h
  induction parameter using TemplateParameter.parameter_induction with
  | type name keyword variadic default => exact hparts
  | value name holds variadic default => exact AllSpelled.append_iff.mpr hparts
  | template name parameters variadic default ih =>
    rw [expressions, allExpressions_parameters_eq, AllSpelled.flatMap_iff]
    intro parameter hp
    obtain ⟨datum, hparameter⟩ := hparts parameter hp
    exact ih parameter hp (partsRead_of_decode hparameter)

theorem TemplateParameter.spelled_of_read {form nested : TagForm} {parameter : TemplateParameter}
    (h : read form nested datum = some parameter) : AllSpelled parameter.expressions := by
  unfold read at h
  split at h
  · exact spelled_of_decode h
  · contradiction

theorem Specialization.spelled_of_decode {special : Specialization}
    (h : decode datum = some special) :
    AllSpelled (TemplateArgument.allExpressions special.arguments) := by
  obtain ⟨fields, -, h⟩ := Option.bind_eq_some_iff.mp h
  obtain ⟨template, -, h⟩ := Option.bind_eq_some_iff.mp h
  obtain ⟨arguments, harguments, h⟩ := Option.bind_eq_some_iff.mp h
  obtain rfl := Option.some_inj.mp h
  rw [allExpressions_arguments_eq, AllSpelled.flatMap_iff]
  intro argument ha
  obtain ⟨datum, hargument⟩ := read_of_decodeField harguments argument ha
  exact TemplateArgument.spelled_of_decode hargument

theorem TemplateHead.spelled_of_decode {nested : TagForm} {head : TemplateHead}
    (h : decode nested datum = some head) : AllSpelled head.expressions := by
  unfold decode at h
  split at h
  · obtain ⟨parameters, hparameters, rfl⟩ := Option.map_eq_some_iff.mp h
    rw [expressions, allExpressions_parameters_eq, AllSpelled.flatMap_iff]
    intro parameter hp
    obtain ⟨datum, hparameter⟩ := exists_of_list? hparameters parameter hp
    exact TemplateParameter.spelled_of_read hparameter
  · obtain ⟨special, hspecial, rfl⟩ := Option.map_eq_some_iff.mp h
    exact special.spelled_of_decode hspecial
  · contradiction

theorem Parameter.spelled_of_decode {parameter : Parameter} (h : decode datum = some parameter) :
    AllSpelled parameter.expressions := by
  obtain ⟨fields, -, h⟩ := Option.bind_eq_some_iff.mp h
  obtain ⟨name, -, h⟩ := Option.bind_eq_some_iff.mp h
  obtain ⟨type, htype, h⟩ := Option.bind_eq_some_iff.mp h
  obtain ⟨default, hdefault, h⟩ := Option.bind_eq_some_iff.mp h
  obtain ⟨pack, -, h⟩ := Option.bind_eq_some_iff.mp h
  obtain rfl := Option.some_inj.mp h
  exact AllSpelled.append_iff.mpr
    ⟨spelled_of_required (fun _ _ => CppType.spelled_of_read) htype, spelled_of_optional hdefault⟩

theorem FunctionDecl.spelled_of_ofFields {fields : Fields} {function : FunctionDecl}
    (h : ofFields fields = some function) : AllSpelled function.expressions := by
  unfold ofFields at h
  obtain ⟨parameters, hparameters, h⟩ := Option.bind_eq_some_iff.mp h
  obtain ⟨result, hresult, h⟩ := Option.bind_eq_some_iff.mp h
  have hspelled : AllSpelled (parameters.flatMap Parameter.expressions ++
      result.toList.flatMap CppType.expressions) :=
    AllSpelled.append_iff.mpr
      ⟨spelled_of_listField (fun _ _ => Parameter.spelled_of_decode) hparameters,
        spelled_of_optionalField (fun _ _ => CppType.spelled_of_read) hresult⟩
  -- The body and the flags have no expressions.
  iterate 10 obtain ⟨_, -, h⟩ := Option.bind_eq_some_iff.mp h
  obtain rfl := Option.some_inj.mp h
  exact hspelled

theorem BaseClass.spelled_of_decode {blank : Blank} {base : BaseClass}
    (h : decode blank datum = some base) : AllSpelled base.type.expressions := by
  obtain ⟨fields, -, h⟩ := Option.bind_eq_some_iff.mp h
  obtain ⟨type, htype, h⟩ := Option.bind_eq_some_iff.mp h
  obtain ⟨access, -, h⟩ := Option.bind_eq_some_iff.mp h
  obtain ⟨isVirtual, -, h⟩ := Option.bind_eq_some_iff.mp h
  obtain rfl := Option.some_inj.mp h
  exact spelled_of_required (fun _ _ => CppType.spelled_of_read) htype

theorem EntityKind.spelled_of_ofFields {word : String} {fields : Fields} {kind : EntityKind}
    (h : ofFields word fields = some kind) : AllSpelled kind.expressions := by
  -- One case for each word, in the order in which `ofFields` looks at them.
  unfold ofFields at h
  dsimp only at h
  split at h
  case h_1 =>
    obtain rfl := Option.some_inj.mp h
    exact AllSpelled.nil
  case h_2 | h_3 =>
    obtain ⟨_, -, h⟩ := Option.bind_eq_some_iff.mp h
    obtain ⟨_, -, h⟩ := Option.bind_eq_some_iff.mp h
    obtain rfl := Option.some_inj.mp h
    exact AllSpelled.nil
  case h_4 =>
    obtain ⟨isInline, -, h⟩ := Option.bind_eq_some_iff.mp h
    obtain rfl := Option.some_inj.mp h
    exact AllSpelled.nil
  case h_5 | h_6 | h_7 | h_12 =>
    obtain ⟨_, -, rfl⟩ := Option.map_eq_some_iff.mp h
    exact AllSpelled.nil
  case h_8 =>
    obtain ⟨aliased, haliased, rfl⟩ := Option.map_eq_some_iff.mp h
    exact spelled_of_required (fun _ _ => CppType.spelled_of_read) haliased
  case h_9 =>
    obtain ⟨isScoped, -, h⟩ := Option.bind_eq_some_iff.mp h
    obtain ⟨underlying, hunderlying, h⟩ := Option.bind_eq_some_iff.mp h
    obtain ⟨forward, -, h⟩ := Option.bind_eq_some_iff.mp h
    obtain rfl := Option.some_inj.mp h
    exact spelled_of_optionalField (fun _ _ => CppType.spelled_of_read) hunderlying
  case h_10 =>
    obtain ⟨value, hvalue, rfl⟩ := Option.map_eq_some_iff.mp h
    exact spelled_of_optional hvalue
  case h_11 =>
    obtain ⟨keyword, -, h⟩ := Option.bind_eq_some_iff.mp h
    obtain ⟨isFinal, -, h⟩ := Option.bind_eq_some_iff.mp h
    obtain ⟨bases, hbases, h⟩ := Option.bind_eq_some_iff.mp h
    obtain ⟨forward, -, h⟩ := Option.bind_eq_some_iff.mp h
    obtain rfl := Option.some_inj.mp h
    exact spelled_of_listField (fun _ _ => BaseClass.spelled_of_decode) hbases
  case h_13 | h_14 =>
    obtain ⟨type, htype, h⟩ := Option.bind_eq_some_iff.mp h
    obtain ⟨default, hdefault, h⟩ := Option.bind_eq_some_iff.mp h
    obtain ⟨_, -, h⟩ := Option.bind_eq_some_iff.mp h
    obtain ⟨_, -, h⟩ := Option.bind_eq_some_iff.mp h
    obtain rfl := Option.some_inj.mp h
    exact AllSpelled.append_iff.mpr
      ⟨spelled_of_required (fun _ _ => CppType.spelled_of_read) htype,
        spelled_of_optional hdefault⟩
  case h_15 =>
    obtain ⟨function, hfunction, rfl⟩ := Option.map_eq_some_iff.mp h
    exact FunctionDecl.spelled_of_ofFields hfunction
  case h_16 => contradiction

namespace Entity

/-- An entity that was read is spelled as far as it has its own expressions, and its children were
read as well. -/
theorem partsRead_of_decode {form : TagForm} {entity : Entity}
    (h : decode form datum = some entity) :
    AllSpelled entity.expressions ∧
      ∀ child ∈ entity.children, ∃ datum, decode form datum = some child := by
  unfold decode at h
  split at h
  · obtain ⟨id, -, h⟩ := Option.bind_eq_some_iff.mp h
    obtain ⟨name, -, h⟩ := Option.bind_eq_some_iff.mp h
    obtain ⟨kind, hkind, h⟩ := Option.bind_eq_some_iff.mp h
    obtain ⟨template, htemplate, h⟩ := Option.bind_eq_some_iff.mp h
    obtain ⟨comment, -, h⟩ := Option.bind_eq_some_iff.mp h
    obtain ⟨children, hchildren, h⟩ := Option.bind_eq_some_iff.mp h
    split at h
    · obtain rfl := Option.some_inj.mp h
      obtain ⟨word, -, hkind⟩ := Option.bind_eq_some_iff.mp hkind
      refine ⟨AllSpelled.append_iff.mpr ⟨?_, EntityKind.spelled_of_ofFields hkind⟩, ?_⟩
      · exact spelled_of_optionalField (fun _ _ => TemplateHead.spelled_of_decode) htemplate
      · rw [decodeField_entities_eq] at hchildren
        rcases Fields.exists_of_defaulted hchildren with rfl | ⟨list, hlist⟩
        · exact fun child hc => absurd hc List.not_mem_nil
        · exact exists_of_list? hlist
    · contradiction
  · contradiction

theorem spelled_of_decode {form : TagForm} {entity : Entity} (h : decode form datum = some entity) :
    entity.Spelled := by
  have hparts := partsRead_of_decode h
  clear h
  induction entity using tree_induction with
  | node entity ih =>
    intro e he
    rcases eq_or_below_of_mem_walk he with rfl | ⟨child, hc, hb⟩
    · exact hparts.1
    · obtain ⟨datum, hchild⟩ := hparts.2 child hc
      exact ih child hc (partsRead_of_decode hchild) e hb

end Entity

end HeaderSynopsis.Declaration
