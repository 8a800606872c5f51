import HeaderSynopsis.Writing.Types

namespace HeaderSynopsis.Writing

variable {P : Write → Prop}

/-- What is joined with a separator consists of the separator and of what is joined. -/
theorem forall_mem_intercalate {separator : List Write} {items : List (List Write)}
    (hs : ∀ w ∈ separator, P w) (hi : ∀ item ∈ items, ∀ w ∈ item, P w) :
    ∀ w ∈ separator.intercalate items, P w := by
  induction items with
  | nil => exact fun _ hw => absurd hw List.not_mem_nil
  | cons item rest ih =>
    rw [List.forall_mem_cons] at hi
    cases rest with
    | nil =>
      rw [List.intercalate_singleton]
      exact hi.1
    | cons next others =>
      rw [List.intercalate_cons_cons, List.forall_mem_append, List.forall_mem_append]
      exact ⟨⟨hi.1, hs⟩, ih hi.2⟩

/-- A spelling is written in line breaks and in runs that are not empty. -/
theorem forall_mem_verbatimWrites {spelling : String} (hbreak : P .lineBreak)
    (hrun : ∀ run ∈ Text.pieces spelling, run ≠ "" → P (.token .tokenSeq run)) :
    ∀ w ∈ verbatimWrites spelling, P w := by
  apply forall_mem_intercalate
  · exact List.forall_mem_singleton.mpr hbreak
  · intro item hitem w hw
    obtain ⟨run, hmem, rfl⟩ := List.mem_map.mp hitem
    by_cases hempty : run = ""
    · rw [runWrites, if_pos hempty] at hw
      exact absurd hw List.not_mem_nil
    · rw [runWrites, if_neg hempty, List.mem_singleton] at hw
      rw [hw]
      exact hrun run hmem hempty

end HeaderSynopsis.Writing

namespace HeaderSynopsis.Declaration

open Writing

/-- What holds of a type as soon as it holds of the types in it holds of every type. -/
@[elab_as_elim]
theorem CppType.type_induction {motive : CppType → Prop}
    (builtin : ∀ spelling, motive (.builtin spelling))
    (named : ∀ target, motive (.named target))
    (verbatim : ∀ spelling, motive (.verbatim spelling))
    (const : ∀ inner, motive inner → motive (.const inner))
    (volatile : ∀ inner, motive inner → motive (.volatile inner))
    (pointer : ∀ inner, motive inner → motive (.pointer inner))
    (lvalueRef : ∀ inner, motive inner → motive (.lvalueRef inner))
    (rvalueRef : ∀ inner, motive inner → motive (.rvalueRef inner))
    (array : ∀ element size, motive element → motive (.array element size))
    (instantiation : ∀ template arguments,
      (∀ type, .type type ∈ arguments → motive type) →
      motive (.instantiation template arguments)) :
    ∀ type, motive type := by
  intro type
  -- The recursor asks for a statement about arguments and about lists of them as well.
  refine @CppType.rec motive (fun argument => ∀ type, argument = .type type → motive type)
    (fun arguments => ∀ type, .type type ∈ arguments → motive type) builtin named verbatim const
    volatile pointer lvalueRef rvalueRef array instantiation ?_ ?_ ?_ ?_ ?_ type
  · rintro _ ht _ ⟨⟩
    exact ht
  · rintro _ _ ⟨⟩
  · rintro _ _ ⟨⟩
  · exact fun _ h => absurd h List.not_mem_nil
  · intro argument rest ha hr type hm
    rcases List.mem_cons.mp hm with he | hm
    · exact ha type he.symm
    · exact hr type hm

/-- What holds of a template parameter as soon as it holds of its own parameters holds of all. -/
@[elab_as_elim]
theorem TemplateParameter.parameter_induction {motive : TemplateParameter → Prop}
    (type : ∀ name keyword variadic default, motive (.type name keyword variadic default))
    (value : ∀ name holds variadic default, motive (.value name holds variadic default))
    (template : ∀ name parameters variadic default,
      (∀ parameter ∈ parameters, motive parameter) →
      motive (.template name parameters variadic default)) :
    ∀ parameter, motive parameter
  | .type name keyword variadic default => type name keyword variadic default
  | .value name holds variadic default => value name holds variadic default
  | .template name parameters variadic default =>
      template name parameters variadic default fun parameter hparameter =>
        have : parameter ∈ parameters := hparameter
        parameter_induction type value template parameter
  termination_by parameter => sizeOf parameter
  decreasing_by
    have h := List.sizeOf_lt_of_mem this
    simp only [TemplateParameter.template.sizeOf_spec]
    omega

theorem TemplateArgument.allWrites_eq (arguments : List TemplateArgument) :
    TemplateArgument.allWrites arguments = arguments.map TemplateArgument.writes := by
  induction arguments with
  | nil => rfl
  | cons argument rest ih => rw [TemplateArgument.allWrites, ih, List.map_cons]

theorem TemplateParameter.allWrites_eq (parameters : List TemplateParameter) :
    TemplateParameter.allWrites parameters = parameters.map TemplateParameter.writes := by
  induction parameters with
  | nil => rfl
  | cons parameter rest ih => rw [TemplateParameter.allWrites, ih, List.map_cons]

end HeaderSynopsis.Declaration
