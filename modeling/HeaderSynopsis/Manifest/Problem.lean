import HeaderSynopsis.Declaration.Reference
import HeaderSynopsis.Manifest.Name
import HeaderSynopsis.Manifest.Source

namespace HeaderSynopsis.Manifest

open Declaration Text

inductive Home where
  | fileTable
  | classType
  | enumeration
  | outsideEnumeration
deriving DecidableEq, Repr

def Home.text : Home → String
  | .fileTable => "the [file] table only"
  | .classType => "a class"
  | .enumeration => "an enum"
  | .outsideEnumeration => "a file, namespace or class"

def NameFault.text : NameFault → String
  | .reserved => "name is reserved"
  | .empty => "name cannot be empty"
  | .badStart => "name must start with a letter or underscore"
  | .badChar => "name must contain only letters, numbers, and underscores"

inductive Problem where
  | unreadable (path : String)
  | malformed
  | unknownKind (word : String) (span : Option Span)
  | nameMissing (context : String)
  | templateAndSpecialization (id : Id) (span : Option Span)
  | duplicateId (id : Id) (first second : Option Span)
  | unexpectedChildren (kind : String) (id : Id) (span : Option Span)
  | misplaced (kind parent : String) (home : Home) (span : Option Span)
  | badName (name context : String) (fault : NameFault) (span : Option Span)
deriving DecidableEq, Repr

structure Label where
  text : String
  span : Span
deriving DecidableEq, Repr

namespace Problem

def message : Problem → String
  | unreadable path => "failed to read '" ++ path ++ "'"
  | malformed => "failed to parse manifest"
  | unknownKind word _ => "unknown entity kind '" ++ word ++ "'"
  | nameMissing context => context ++ " requires a name"
  | templateAndSpecialization id _ =>
      "'" ++ id.text ++ "' cannot be both a template and a specialization"
  | duplicateId id _ _ => "duplicate entity id '" ++ id.text ++ "'"
  | unexpectedChildren kind id _ => kind ++ " '" ++ id.text ++ "' cannot have children"
  | misplaced kind parent _ _ => kind ++ " cannot appear in '" ++ parent ++ "'"
  | badName name _ .reserved _ => "'" ++ name ++ "' is a C++ reserved keyword"
  | badName name context _ _ => "invalid " ++ context ++ " name '" ++ name ++ "'"

def code : Problem → String
  | unreadable _ => "synops::io_error"
  | malformed => "synops::parse_error"
  | unknownKind .. | nameMissing _ | templateAndSpecialization .. => "synops::validation_error"
  | duplicateId .. => "synops::duplicate_id"
  | unexpectedChildren .. => "synops::unexpected_children"
  | misplaced .. => "synops::misplaced_entity"
  | badName _ _ .reserved _ => "synops::reserved_keyword"
  | badName .. => "synops::invalid_identifier"

def help? : Problem → Option String
  | unreadable _ | malformed | unknownKind .. | nameMissing _ | templateAndSpecialization .. => none
  | duplicateId .. => some "set an explicit \x60id\x60 on one of the entities to tell them apart"
  | unexpectedChildren .. => some "only files, namespaces, classes and enums contain other entities"
  | misplaced kind _ home _ =>
      some ("a " ++ kind ++ " must be placed inside " ++ home.text)
  | badName name context .reserved _ =>
      some ("a " ++ context ++ " cannot be named '" ++ name ++ "'")
  | badName _ _ fault _ =>
      some (fault.text ++ ". Use only letters, numbers, and underscores, " ++
        "starting with a letter or underscore.")

def labelAt (text : String) (span : Option Span) : List Label :=
  span.toList.map fun span => ⟨text, span⟩

def labels (problem : Problem) : List Label :=
  match problem with
  | unreadable _ | malformed | nameMissing _ => []
  | unknownKind _ span | templateAndSpecialization _ span => labelAt problem.message span
  | duplicateId _ first second =>
      labelAt "first declared here" first ++ labelAt "declared again here" second
  | unexpectedChildren _ _ span => labelAt "declared here" span
  | misplaced kind _ _ span => labelAt ("misplaced " ++ kind) span
  | badName _ _ .reserved span => labelAt "reserved keyword used here" span
  | badName _ _ _ span => labelAt "invalid identifier" span

end Problem

def nameProblem? (source : Source) (path : List String) (name kind : String) : Option Problem :=
  (nameFault? name).map fun fault =>
    .badName name (describe path kind) fault (source.firstSpan? name)

end HeaderSynopsis.Manifest
