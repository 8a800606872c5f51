import HeaderSynopsis.Manifest.Loaded
import HeaderSynopsis.Output.Render

namespace HeaderSynopsis.Manifest

open Declaration Output

def unknownKindText (word : String) : String :=
  "unknown entity kind '" ++ word ++ "', expected one of: " ++
    String.intercalate ", " EntityKind.words

def Options.renderEntity (options : Options) (entity : Entity) : String :=
  match options.format with
  | .text => renderText options.indentation options.selection entity
  | .html => renderHtml options.indentation options.selection entity

def Loaded.render (manifest : Loaded) (options : Options) : Except String String :=
  match options.unknownKind? with
  | some word => .error (unknownKindText word)
  | none => .ok (options.renderEntity manifest.file)

end HeaderSynopsis.Manifest
