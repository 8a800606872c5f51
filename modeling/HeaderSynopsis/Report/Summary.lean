import HeaderSynopsis.Manifest.Loaded
import HeaderSynopsis.Report.Line

namespace HeaderSynopsis.Report

open Declaration Manifest

structure Summary where
  path : String
  fileName : String
  -- Each kind that occurs below the file, in alphabetical order, and how often it does.
  kinds : List (String × Nat)
  warnings : List Warning

/-- Counts one more occurrence of a word. A new word is put where it belongs in the order. -/
def tally (word : String) : List (String × Nat) → List (String × Nat)
  | [] => [(word, 1)]
  | (other, n) :: rest =>
      if word < other then (word, 1) :: (other, n) :: rest
      else if word = other then (other, n + 1) :: rest
      else (other, n) :: tally word rest

def countKinds (entities : List Entity) : List (String × Nat) :=
  entities.foldl (fun counts entity => tally entity.kind.word counts) []

namespace Summary

def ofManifest (path : String) (manifest : Loaded) : Summary :=
  ⟨path, manifest.file.name, countKinds (Entity.walkStack [manifest.file]).tail, manifest.warnings⟩

def entityCount (summary : Summary) : Nat := summary.kinds.foldr (fun kind n => kind.2 + n) 0

def countText (n : Nat) : String := toString n ++ if n = 1 then " entity" else " entities"

def lines (summary : Summary) : List Line :=
  summary.warnings.map (fun warning => .warning warning.text) ++
    (if summary.warnings.isEmpty then [] else [.blank]) ++
    [.preformatted ("✓ " ++ summary.path ++ " is valid"), .blank,
      .keyValue "file" summary.fileName, .heading (countText summary.entityCount)] ++
    summary.kinds.map fun (word, n) => .indentedKeyValue word (toString n)

end Summary

end HeaderSynopsis.Report
