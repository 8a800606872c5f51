import HeaderSynopsis.Proofs.Coding.Spelling

/-!
Writing declarations down as data and reading them back changes nothing, and reading, writing and
reading once more gives what the first reading gave. The only values that get lost are truth values
whose text is neither `true` nor `false`, which no reading gives.
-/

namespace HeaderSynopsis.Declaration

open Data

/-- Whether the values that are spelled are read back from what they are written down as, and
readings give no other values. -/
structure RoundTrips {α : Type} (decode : Datum → Option α) (encode : α → Datum)
    (spelled : α → Prop) : Prop where
  decode_encode : ∀ value, spelled value → decode (encode value) = some value
  spelled_of_decode : ∀ datum value, decode datum = some value → spelled value
  decode_encode_decode : ∀ datum value, decode datum = some value →
    decode (encode value) = decode datum

theorem RoundTrips.of_carries {α : Type} {decode : Datum → Option α} {encode : α → Datum}
    {spelled : α → Prop} (hcarries : ∀ value, spelled value → Carries (encode value) decode value)
    (hspelled : ∀ datum value, decode datum = some value → spelled value) :
    RoundTrips decode encode spelled where
  decode_encode value h := (hcarries value h).reads
  spelled_of_decode := hspelled
  decode_encode_decode datum value h := by
    rw [(hcarries value (hspelled datum value h)).reads, h]

/-- Every declaration survives being written down and read back, as do all its parts. -/
theorem declarations_roundTrip (form nested : TagForm) :
    RoundTrips (Entity.decode form) Entity.encode Entity.Spelled ∧
      RoundTrips CppType.read CppType.encode (fun type => AllSpelled type.expressions) ∧
      RoundTrips Expression.decode Expression.encode Expression.Spelled ∧
      RoundTrips Reference.decode Reference.encode (fun _ => True) ∧
      RoundTrips Body.decode Body.encode (fun _ => True) ∧
      RoundTrips TemplateArgument.decode TemplateArgument.encode
        (fun argument => AllSpelled argument.expressions) ∧
      RoundTrips (TemplateParameter.read form nested) TemplateParameter.encode
        (fun parameter => AllSpelled parameter.expressions) := by
  refine ⟨?entity, ?type, ?expression, ?reference, ?body, ?argument, ?parameter⟩
  case entity =>
    exact .of_carries (fun entity h => entity.carries h form) fun _ _ => Entity.spelled_of_decode
  case type => exact .of_carries CppType.carries_read fun _ _ => CppType.spelled_of_read
  case expression =>
    exact .of_carries (fun _ => Expression.carries) fun _ _ => Expression.spelled_of_decode
  case reference =>
    exact .of_carries (fun reference _ => reference.carries) fun _ _ _ => trivial
  case body => exact .of_carries (fun body _ => body.carries) fun _ _ _ => trivial
  case argument =>
    exact .of_carries TemplateArgument.carries fun _ _ => TemplateArgument.spelled_of_decode
  case parameter =>
    exact .of_carries (fun parameter h => parameter.carries_read h form nested)
      fun _ _ => TemplateParameter.spelled_of_read

-- A truth value with another text is read back as a false one.
example : Expression.decode (Expression.literal .bool "yes").encode =
    some (.literal .bool "false") := by decide

end HeaderSynopsis.Declaration
