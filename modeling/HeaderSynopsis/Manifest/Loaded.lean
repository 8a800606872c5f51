import HeaderSynopsis.Manifest.Lowering
import HeaderSynopsis.Manifest.Warning
import HeaderSynopsis.Toml.Document

namespace HeaderSynopsis.Manifest

open Data Declaration

structure Loaded where
  options : Options
  file : Entity
  warnings : List Warning

namespace Loaded

def find? (manifest : Loaded) (id : Id) : Option Entity :=
  manifest.file.walk.find? (·.id = id)

/-- A manifest from its document. An unknown kind in the options comes before everything else. -/
def ofDocument (source : Source) (document : Document) : Except Problem Loaded :=
  match document.options.unknownKind? with
  | some word => .error (.unknownKind word (source.quotedSpan? word))
  | none => do
      let (file, declared) ← document.file.lower source
      let warnings := unresolvedReferences declared file ++ unknownIds declared document.options
      return { options := document.options, file, warnings }

def ofSource (source : Source) : Except Problem Loaded :=
  match (Toml.read source.text).bind Document.ofFields with
  | none => .error .malformed
  | some document => ofDocument source document

def ofFile (path : String) (content : Option ByteArray) : Except Problem (Loaded × String) :=
  match content.bind String.fromUTF8? with
  | none => .error (.unreadable path)
  | some text => (ofSource ⟨text, path⟩).map (·, text)

end Loaded

end HeaderSynopsis.Manifest
