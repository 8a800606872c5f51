import HeaderSynopsis.Coding.Entity
import HeaderSynopsis.Proofs.Coding.Types
import HeaderSynopsis.Proofs.Declaration.Tree

namespace HeaderSynopsis.Declaration

open Data

theorem Body.carries (body : Body) : Carries body.encode decode body := by
  cases body with
  | statements lines =>
    have hlines : Carries (.list (lines.map .text)) (Datum.list? Datum.text?) lines :=
      .list fun line _ => .text line
    refine ⟨hlines.notNull, hlines.fits, ?_⟩
    change (Datum.list? Datum.text? (.list (lines.map .text))).map statements = _
    rw [hlines.reads]
    rfl
  | declaration => exact ⟨Datum.noConfusion, Datum.fitsWords_text _, rfl⟩
  | defaulted => exact ⟨Datum.noConfusion, Datum.fitsWords_text _, rfl⟩
  | deleted => exact ⟨Datum.noConfusion, Datum.fitsWords_text _, rfl⟩
  | pure => exact ⟨Datum.noConfusion, Datum.fitsWords_text _, rfl⟩

theorem ClassKey.carries (keyword : ClassKey) (blank : Blank) :
    Carries (.text keyword.word) (decode blank) keyword := by
  apply Carries.word
  cases keyword <;> rfl

theorem Access.carries (access : Access) (blank : Blank) :
    Carries (.text access.word) (decode blank) access := by
  apply Carries.word
  cases access <;> rfl

theorem Storage.carries (storage : Storage) (blank : Blank) :
    Carries storage.encode (decode blank) storage := by
  apply Carries.word
  cases storage <;> rfl

theorem carries_default {default : Option Expression} (h : AllSpelled default.toList) :
    ∀ value ∈ default, Carries value.encode Expression.decode value :=
  fun value hv => Expression.carries (h value (Option.mem_toList.mpr hv))

theorem carries_optionalType {type : Option CppType}
    (h : AllSpelled (type.toList.flatMap CppType.expressions)) :
    ∀ t ∈ type, Carries t.encode CppType.read t := by
  rw [AllSpelled.flatMap_iff] at h
  exact fun t ht => t.carries_read (h t (Option.mem_toList.mpr ht))

theorem Parameter.carries (parameter : Parameter) (h : AllSpelled parameter.expressions) :
    Carries parameter.encode decode parameter := by
  obtain ⟨name, type, default, pack⟩ := parameter
  rw [expressions, AllSpelled.append_iff] at h
  have hname : ∀ text ∈ name, Carries (.text text) Datum.text? text := fun text _ => .text text
  have htype := type.carries_read h.1
  have hdefault := carries_default h.2
  refine .record ?_ ?_
  · cases pack <;>
      simp [htype.fits, Fields.all_optionalField hname, Fields.all_optionalField hdefault]
  · cases pack with
    | true =>
      rw [ofFields, Fields.optional_of_lookup ?_ hname, Fields.required_of_lookup ?_ htype,
        Fields.optional_of_lookup ?_ hdefault, Fields.defaulted_of_lookup ?_ (.bool true)]
      all_goals simp
    | false =>
      rw [ofFields, Fields.optional_of_lookup ?_ hname, Fields.required_of_lookup ?_ htype,
        Fields.optional_of_lookup ?_ hdefault, Fields.defaulted_of_absent]
      all_goals simp

theorem BaseClass.carries (base : BaseClass) (h : AllSpelled base.type.expressions)
    (blank : Blank) : Carries base.encode (decode blank) base := by
  obtain ⟨type, access, isVirtual⟩ := base
  have htype := type.carries_read h
  have haccess : ∀ a ∈ access, Carries (.text a.word) (Access.decode blank) a :=
    fun a _ => a.carries blank
  refine .record (by simp [htype.fits, Fields.all_optionalField haccess]) ?_
  rw [ofFields, Fields.required_of_lookup ?_ htype, Fields.optional_of_lookup ?_ haccess,
    Fields.defaulted_of_lookup ?_ (.bool isVirtual)]
  all_goals simp

theorem FunctionDecl.fits_toFields (function : FunctionDecl)
    (h : AllSpelled function.expressions) :
    function.toFields.all (·.2.fitsWords) = true := by
  rw [expressions, AllSpelled.append_iff, AllSpelled.flatMap_iff] at h
  have hparameters : Carries (.list (function.parameters.map Parameter.encode))
      (Datum.list? Parameter.decode) function.parameters :=
    .list fun parameter hp => parameter.carries (h.1 parameter hp)
  have hresult := Fields.all_optionalField (carries_optionalType h.2) "returns"
  simp only [toFields, List.all_append, List.all_cons, List.all_nil, hparameters.fits, hresult,
    function.body.carries.fits, Datum.fitsWords_bool, Bool.and_self]

theorem FunctionDecl.ofFields_toFields (function : FunctionDecl)
    (h : AllSpelled function.expressions) : ofFields function.toFields = some function := by
  rw [expressions, AllSpelled.append_iff, AllSpelled.flatMap_iff] at h
  have hparameters : Carries (.list (function.parameters.map Parameter.encode))
      (Datum.list? Parameter.decode) function.parameters :=
    .list fun parameter hp => parameter.carries (h.1 parameter hp)
  have hresult := carries_optionalType h.2
  -- The flags are rewritten in the order in which they are read.
  unfold ofFields
  dsimp only
  rw [Fields.defaulted_of_lookup ?_ hparameters, Fields.optional_of_lookup ?_ hresult,
    Fields.defaulted_of_lookup ?_ function.body.carries,
    Fields.defaulted_of_lookup ?_ (.bool function.variadic),
    Fields.defaulted_of_lookup ?_ (.bool function.isStatic),
    Fields.defaulted_of_lookup ?_ (.bool function.isConstexpr),
    Fields.defaulted_of_lookup ?_ (.bool function.isVirtual),
    Fields.defaulted_of_lookup ?_ (.bool function.isExplicit),
    Fields.defaulted_of_lookup ?_ (.bool function.isConst),
    Fields.defaulted_of_lookup ?_ (.bool function.isNoexcept),
    Fields.defaulted_of_lookup ?_ (.bool function.isOverride),
    Fields.defaulted_of_lookup ?_ (.bool function.isFinal)]
  all_goals simp [toFields]

theorem FunctionDecl.ofFields_congr {fields others : Fields}
    (h : ∀ name ∈ fieldNames, fields.lookup name = others.lookup name) :
    ofFields fields = ofFields others := by
  unfold ofFields
  simp (disch := decide) only [Fields.defaulted_congr h, Fields.optional_congr h]

namespace EntityKind

/-- What a kind is read as depends on the fields of its own only. -/
theorem ofFields_congr {word : String} {fields others : Fields}
    (h : ∀ name ∈ fieldNames word, fields.lookup name = others.lookup name) :
    ofFields word fields = ofFields word others := by
  unfold ofFields
  split
  case h_15 => rw [FunctionDecl.ofFields_congr h]
  all_goals
    simp (disch := decide) only [Fields.required_congr h, Fields.defaulted_congr h,
      Fields.optional_congr h]

theorem carries_names (names : List String) :
    Carries (.list (names.map .text)) (Datum.list? Datum.text?) names :=
  .list fun name _ => .text name

theorem carries_bases {bases : List BaseClass}
    (h : AllSpelled (bases.flatMap (·.type.expressions))) :
    Carries (.list (bases.map BaseClass.encode)) (Datum.list? (BaseClass.decode .nullOrEmptyTable))
      bases := by
  rw [AllSpelled.flatMap_iff] at h
  exact .list fun base hb => base.carries (h base hb) _

/-- A kind is read back from its own fields. -/
theorem ofFields_ownFields (kind : EntityKind) (h : AllSpelled kind.expressions) :
    ofFields kind.word kind.ownFields = some kind := by
  cases kind with
  | file => rfl
  | inclusion target system => rfl
  | namespaceScope isInline => rfl
  | accessLabel access =>
    rw [word, ofFields]
    rw [Fields.required_of_lookup ?_ (access.carries _)]
    all_goals rfl
  | functionDecl function =>
    rw [word, ofFields]
    rw [ownFields, FunctionDecl.ofFields_toFields function h]
    rfl
  | namespaceAlias target | usingDirective target | usingDeclaration target =>
    rw [word, ofFields]
    rw [Fields.required_of_lookup ?_ target.carries]
    all_goals rfl
  | typeAlias aliased =>
    rw [word, ofFields]
    rw [Fields.required_of_lookup ?_ (aliased.carries_read h)]
    all_goals rfl
  | macroDefinition parameters replacement =>
    rw [word, ofFields]
    rw [Fields.optional_of_lookup ?_ fun names (_ : names ∈ parameters) => carries_names names,
      Fields.defaulted_of_lookup ?_ (.text replacement)]
    all_goals simp [ownFields]
  | enumeration isScoped underlying forward =>
    rw [word, ofFields]
    dsimp only
    rw [Fields.defaulted_of_lookup ?_ (.bool isScoped),
      Fields.optional_of_lookup ?_ (carries_optionalType h),
      Fields.defaulted_of_lookup ?_ (.bool forward)]
    all_goals simp [ownFields]
  | enumerator value =>
    rw [word, ofFields]
    rw [Fields.optional_of_lookup ?_ (carries_default h)]
    all_goals simp [ownFields]
  | classType keyword isFinal bases forward =>
    rw [word, ofFields]
    dsimp only
    rw [Fields.defaulted_of_lookup ?_ (keyword.carries _),
      Fields.defaulted_of_lookup ?_ (.bool isFinal),
      Fields.defaulted_of_lookup ?_ (carries_bases h),
      Fields.defaulted_of_lookup ?_ (.bool forward)]
    all_goals simp [ownFields]
  | variableDecl type default storage isConstexpr =>
    rw [expressions, AllSpelled.append_iff] at h
    rw [word, ofFields]
    dsimp only
    rw [Fields.required_of_lookup ?_ (type.carries_read h.1),
      Fields.optional_of_lookup ?_ (carries_default h.2),
      Fields.defaulted_of_lookup ?_ (storage.carries _),
      Fields.defaulted_of_lookup ?_ (.bool isConstexpr)]
    all_goals simp [ownFields]
  | fieldDecl type default isMutable bits =>
    rw [expressions, AllSpelled.append_iff] at h
    rw [word, ofFields]
    dsimp only
    rw [Fields.required_of_lookup ?_ (type.carries_read h.1),
      Fields.optional_of_lookup ?_ (carries_default h.2),
      Fields.defaulted_of_lookup ?_ (.bool isMutable),
      Fields.optional_of_lookup ?_ fun n (_ : n ∈ bits) => .word32 n]
    all_goals simp [ownFields]

theorem fits_ownFields (kind : EntityKind) (h : AllSpelled kind.expressions) :
    kind.ownFields.all (·.2.fitsWords) = true := by
  cases kind with
  | file => rfl
  | inclusion target system => simp [ownFields]
  | namespaceScope isInline => simp [ownFields]
  | accessLabel access => simp [ownFields]
  | functionDecl function => exact function.fits_toFields h
  | namespaceAlias target | usingDirective target | usingDeclaration target =>
    simp [ownFields, target.carries.fits]
  | typeAlias aliased => simp [ownFields, (aliased.carries_read h).fits]
  | macroDefinition parameters replacement =>
    have hparameters := Fields.all_optionalField
      (fun names (_ : names ∈ parameters) => carries_names names) "parameters"
    simp [ownFields, hparameters]
  | enumeration isScoped underlying forward =>
    have hunderlying := Fields.all_optionalField (carries_optionalType h) "underlying"
    simp [ownFields, hunderlying]
  | enumerator value => exact Fields.all_optionalField (carries_default h) "value"
  | classType keyword isFinal bases forward => simp [ownFields, (carries_bases h).fits]
  | variableDecl type default storage isConstexpr =>
    rw [expressions, AllSpelled.append_iff] at h
    have hdefault := Fields.all_optionalField (carries_default h.2) "default"
    simp [ownFields, (type.carries_read h.1).fits, hdefault, (storage.carries .null).fits]
  | fieldDecl type default isMutable bits =>
    rw [expressions, AllSpelled.append_iff] at h
    have hdefault := Fields.all_optionalField (carries_default h.2) "default"
    have hbits := Fields.all_optionalField (fun n (_ : n ∈ bits) => .word32 n) "bits"
    simp [ownFields, (type.carries_read h.1).fits, hdefault, hbits]

/-- The fields of a kind have the names that are listed for it. -/
theorem lookup_ownFields (kind : EntityKind) {name : String} (hn : name ∉ fieldNames kind.word) :
    kind.ownFields.lookup name = none := by
  cases kind with
  | functionDecl function =>
    simp_all [word, fieldNames, FunctionDecl.fieldNames, ownFields, FunctionDecl.toFields]
  | _ => simp_all [word, fieldNames, ownFields]

/-- The names of a kind's fields and of the other fields of an entity differ. -/
theorem notMem_of_mem_fieldNames (kind : EntityKind) :
    ∀ name ∈ fieldNames kind.word, name ∉ "kind" :: Entity.fieldNames := by
  have hwords : ∀ word ∈ words, ∀ name ∈ fieldNames word, name ∉ "kind" :: Entity.fieldNames := by
    decide
  exact hwords kind.word kind.word_mem_words

theorem ofTable_of_lookup {fields : Fields} {kind : EntityKind} (h : AllSpelled kind.expressions)
    (hkind : fields.lookup "kind" = some (.text kind.word))
    (hown : ∀ name ∈ fieldNames kind.word, fields.lookup name = kind.ownFields.lookup name)
    (form : TagForm) : ofTable form fields = some kind := by
  have hword : tagWords.lookup kind.word = some kind.word := by cases kind <;> rfl
  rw [ofTable, Fields.required_of_lookup hkind (.tag hword form), Option.bind_eq_bind,
    Option.bind_some, ofFields_congr hown, kind.ofFields_ownFields h]

end EntityKind

theorem decodeAll_entities_eq (form : TagForm) (items : List Datum) :
    Entity.decodeAll form items = items.mapM (Entity.decode form) :=
  mapM_of_cons (by rw [Entity.decodeAll]) (fun item rest => by rw [Entity.decodeAll]) items

theorem decodeField_entities_eq (form : TagForm) (fields : Fields) :
    Entity.decodeField form fields =
      fields.defaulted "children" [] (Datum.list? (Entity.decode form)) :=
  defaulted_of_cons (decodeAll_entities_eq form) (by rw [Entity.decodeField])
    (fun word items rest => by rw [Entity.decodeField])
    (fun word datum rest hd => by rw [Entity.decodeField]; exact hd) fields

theorem encodeAll_entities_eq (entities : List Entity) :
    Entity.encodeAll entities = entities.map Entity.encode := by
  induction entities with
  | nil => rfl
  | cons entity rest ih => rw [Entity.encodeAll, ih, List.map_cons]

namespace Entity

def childrenField (entity : Entity) : Fields :=
  if entity.children = [] then [] else [("children", .list (entity.children.map encode))]

def laterFields (entity : Entity) : Fields :=
  optionalField "template" TemplateHead.encode entity.template ++
    optionalField "comment" .text entity.comment ++ entity.childrenField

@[simp]
theorem lookup_childrenField (entity : Entity) (name : String) :
    entity.childrenField.lookup name =
      if name = "children" ∧ entity.children ≠ [] then some (.list (entity.children.map encode))
      else none := by
  by_cases hnil : entity.children = []
  · simp [childrenField, hnil]
  · simp [childrenField, hnil]

def toFields (entity : Entity) : Fields :=
  [("id", .text entity.id.text), ("name", .text entity.name), ("kind", .text entity.kind.word)] ++
    entity.kind.ownFields ++ entity.laterFields

theorem encode_eq (entity : Entity) : entity.encode = .table entity.toFields := by
  obtain ⟨id, name, kind, template, comment, children⟩ := entity
  cases children with
  | nil => simp [encode, toFields, laterFields, childrenField, EntityKind.toFields]
  | cons child rest =>
    simp [encode, toFields, laterFields, childrenField, EntityKind.toFields, encodeAll_entities_eq]

theorem lookup_toFields_of_kind (entity : Entity) {name : String}
    (hn : name ∈ EntityKind.fieldNames entity.kind.word) :
    entity.toFields.lookup name = entity.kind.ownFields.lookup name := by
  have hother := entity.kind.notMem_of_mem_fieldNames name hn
  simp only [fieldNames, List.mem_cons, List.not_mem_nil, or_false, not_or] at hother
  obtain ⟨hkind, hid, hname, htemplate, hcomment, hchildren⟩ := hother
  simp [toFields, laterFields, hkind, hid, hname, htemplate, hcomment, hchildren]

/-- The fields behind those of the kind are not found among those of the kind. -/
theorem lookup_toFields_of_later (entity : Entity) {name : String}
    (hn : name ∈ ["template", "comment", "children"]) :
    entity.toFields.lookup name = entity.laterFields.lookup name := by
  have houter : ∀ name ∈ ["template", "comment", "children"], name ∈ "kind" :: fieldNames := by
    decide
  have hown : entity.kind.ownFields.lookup name = none :=
    entity.kind.lookup_ownFields fun hm =>
      entity.kind.notMem_of_mem_fieldNames name hm (houter name hn)
  simp only [List.mem_cons, List.not_mem_nil, or_false] at hn
  rcases hn with rfl | rfl | rfl <;> simp [toFields, hown]

/-- A tree is read back from what it is written down as. -/
theorem carries (entity : Entity) (h : entity.Spelled) (form : TagForm) :
    Carries entity.encode (decode form) entity := by
  induction entity using tree_induction with
  | node entity ih =>
    have hself := h entity entity.self_mem_walk
    rw [expressions, AllSpelled.append_iff, AllSpelled.flatMap_iff] at hself
    have htemplate : ∀ head ∈ entity.template,
        Carries head.encode (TemplateHead.decode form) head :=
      fun head hh => head.carries (hself.1 head (Option.mem_toList.mpr hh)) form
    have hcomment : ∀ text ∈ entity.comment, Carries (.text text) Datum.text? text :=
      fun text _ => .text text
    have hchildren : Carries (.list (entity.children.map encode)) (Datum.list? (decode form))
        entity.children :=
      .list fun child hc => ih child hc fun e he => h e (mem_walk_of_child hc he)
    have hkind : EntityKind.ofTable form entity.toFields = some entity.kind :=
      EntityKind.ofTable_of_lookup hself.2 (by simp [toFields])
        (fun name hn => entity.lookup_toFields_of_kind hn) form
    have hfits : entity.toFields.all (·.2.fitsWords) = true := by
      have hlast : entity.childrenField.all (·.2.fitsWords) = true := by
        unfold childrenField
        split
        · rfl
        · simp [hchildren.fits]
      simp only [toFields, laterFields, List.all_append, List.all_cons, List.all_nil,
        Datum.fitsWords_text, entity.kind.fits_ownFields hself.2,
        Fields.all_optionalField htemplate, Fields.all_optionalField hcomment, hlast, Bool.and_self]
    have hheads : Fields.optional entity.toFields "template" (TemplateHead.decode form) =
        some entity.template := by
      refine Fields.optional_of_lookup ?_ htemplate
      rw [lookup_toFields_of_later entity (by simp)]
      simp [laterFields]
    have htexts : Fields.optional entity.toFields "comment" Datum.text? = some entity.comment := by
      refine Fields.optional_of_lookup ?_ hcomment
      rw [lookup_toFields_of_later entity (by simp)]
      simp [laterFields]
    have hinside : Fields.defaulted entity.toFields "children" [] (Datum.list? (decode form)) =
        some entity.children := by
      have hlookup : List.lookup "children" entity.toFields =
          entity.childrenField.lookup "children" := by
        rw [lookup_toFields_of_later entity (by simp)]
        simp [laterFields]
      -- Without children the field is left out, and its default is the empty list.
      by_cases hnil : entity.children = []
      · rw [hnil]
        apply Fields.defaulted_of_absent
        simp [hlookup, hnil]
      · refine Fields.defaulted_of_lookup ?_ hchildren
        simp [hlookup, hnil]
    have hother : otherFieldsFit fieldNames entity.toFields = true := by
      rw [otherFieldsFit, List.all_eq_true]
      intro field hf
      rw [List.all_eq_true.mp hfits field hf, Bool.or_true]
    rw [encode_eq]
    refine ⟨Datum.noConfusion, (Datum.fitsWords_table _).trans hfits, ?_⟩
    rw [decode, Fields.required_of_lookup ?_ entity.id.carries,
      Fields.required_of_lookup ?_ (.text entity.name), hkind, hheads, htexts,
      decodeField_entities_eq, hinside, hother]
    · cases entity
      rfl
    all_goals rfl

end Entity

end HeaderSynopsis.Declaration
