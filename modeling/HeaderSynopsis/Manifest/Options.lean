import HeaderSynopsis.Data.Datum
import HeaderSynopsis.Declaration.Entity
import HeaderSynopsis.Coding.Expression
import HeaderSynopsis.Output.Indentation
import HeaderSynopsis.Output.Selection

namespace HeaderSynopsis.Manifest

open Data Declaration Output

inductive Format where
  | text
  | html
deriving DecidableEq, Repr

namespace Format

def words : List (String × Format) := [("text", .text), ("html", .html)]

def word : Format → String
  | .text => "text"
  | .html => "html"

def parse? (text : String) : Option Format := words.lookup text

def refusal (text : String) : String :=
  "unknown format '" ++ text ++ "', expected 'text' or 'html'"

def decode (blank : Blank) (datum : Datum) : Option Format := datum.word? words blank

end Format

/-- An indentation in a manifest: a width that takes effect, or the word for a tab. -/
def decodeIndentation : Datum → Option Indentation
  | .text "tab" => some .tab
  | datum => (datum.natBelow? (Indentation.widest + 1)).map .spaces

def encodeIndentation : Indentation → Datum
  | .spaces width => .int width
  | .tab => .text "tab"

structure Options where
  format : Format := .text
  indentation : Indentation := .standard
  -- Entities left out with all inside them.
  omitted : List Id := []
  -- Entities of which only the declaration is rendered.
  declarations : List Id := []
  -- Words of kinds that are left out.
  omittedKinds : List String := []

/-- Changes to options. What is absent stays as it is. -/
structure Overrides where
  format : Option Format := none
  indentation : Option Indentation := none
  omitted : List Id := []
  declarations : List Id := []
  omittedKinds : List String := []

namespace Options

/-- Lays changes over options. Lists grow, and what there is one of is replaced. -/
def merge (options : Options) (changes : Overrides) : Options where
  format := changes.format.getD options.format
  indentation := changes.indentation.getD options.indentation
  omitted := options.omitted ++ changes.omitted
  declarations := options.declarations ++ changes.declarations
  omittedKinds := options.omittedKinds ++ changes.omittedKinds

/-- No changes leave everything as it is. -/
@[simp]
theorem merge_empty (options : Options) : options.merge {} = options := by
  simp [merge]

def selection (options : Options) : Selection :=
  ⟨options.omitted, options.declarations, options.omittedKinds⟩

def unknownKind? (options : Options) : Option String :=
  options.omittedKinds.find? (· ∉ EntityKind.words)

def fieldNames : List String := ["format", "indent", "exclude", "declarations", "exclude_kinds"]

def ofFields (blank : Blank) (fields : Fields) : Option Options := do
  let format ← fields.defaulted "format" .text (Format.decode blank)
  let indentation ← fields.defaulted "indent" .standard decodeIndentation
  let omitted ← fields.defaulted "exclude" [] (Datum.list? Id.decode)
  let declarations ← fields.defaulted "declarations" [] (Datum.list? Id.decode)
  let omittedKinds ← fields.defaulted "exclude_kinds" [] (Datum.list? Datum.text?)
  if fields.all (·.1 ∈ fieldNames) then
    return { format, indentation, omitted, declarations, omittedKinds }
  else none

def decode (blank : Blank) (datum : Datum) : Option Options :=
  (datum.record? fieldNames).bind (ofFields blank)

def encode (options : Options) : Datum :=
  .table [("format", .text options.format.word),
    ("indent", encodeIndentation options.indentation),
    ("exclude", .list (options.omitted.map fun id => .text id.text)),
    ("declarations", .list (options.declarations.map fun id => .text id.text)),
    ("exclude_kinds", .list (options.omittedKinds.map .text))]

end Options

end HeaderSynopsis.Manifest
