import HeaderSynopsis.Text.Search

namespace HeaderSynopsis.Manifest

open Text

structure Source where
  text : String
  filename : String

namespace Source

def patterns (name : String) : List (String × Nat) :=
  [("id = \"" ++ name ++ "\"", 6), ("name = \"" ++ name ++ "\"", 8),
    ("id = '" ++ name ++ "'", 6), ("name = '" ++ name ++ "'", 8)]

def firstSpan? (source : Source) (name : String) : Option Span :=
  (patterns name).findSome? fun (pattern, skip) =>
    (firstOffset? pattern source.text).map fun offset => ⟨offset + skip, name.utf8ByteSize⟩

def lastSpan? (source : Source) (name : String) : Option Span :=
  let places := (patterns name).filterMap fun (pattern, skip) =>
    (lastOffset? pattern source.text).map (· + skip)
  places.max?.map fun offset => ⟨offset, name.utf8ByteSize⟩

def quotedSpan? (source : Source) (word : String) : Option Span :=
  (firstOffset? ("\"" ++ word ++ "\"") source.text).map fun offset =>
    ⟨offset + 1, word.utf8ByteSize⟩

end Source

def pathText (path : List String) : String := String.intercalate "::" path

def describe (path : List String) (kind : String) : String :=
  if path.isEmpty then kind else kind ++ " in '" ++ pathText path ++ "'"

end HeaderSynopsis.Manifest
