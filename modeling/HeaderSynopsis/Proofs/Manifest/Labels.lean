import HeaderSynopsis.Proofs.Manifest.FirstFault
import HeaderSynopsis.Proofs.Manifest.Places

namespace HeaderSynopsis.Manifest

open Declaration Text

namespace Loaded

variable {source : Source} {problem : Problem}

def clashText : String :=
  "[file]\nname = \"a.hpp\"\n\n[[file.entities]]\nkind = \"function\"\nname = \"f\"\n\n" ++
    "[[file.entities]]\nkind = \"function\"\n"

def clashFields (second : Data.Fields) : Data.Fields :=
  [("file", .table [("name", .text "a.hpp"), ("entities", .list [
    .table [("kind", .text "function"), ("name", .text "f")],
    .table (("kind", .text "function") :: second)])])]

def clashDocument (name : String) (id : Option Id) : Document where
  options := {}
  file := ⟨"a.hpp", none, [⟨"f", none, .functionDecl {}, none, none, none, []⟩,
    ⟨name, id, .functionDecl {}, none, none, none, []⟩]⟩

def chosen : Source := ⟨clashText ++ "name = \"g\"\nid = \"f\"\n", "synops.toml"⟩

theorem read_chosen :
    (Toml.read chosen.text).bind Document.ofFields = some (clashDocument "g" (some ⟨"f"⟩)) := by
  have hread : Toml.read chosen.text =
      some (clashFields [("name", .text "g"), ("id", .text "f")]) := by
    decide +kernel
  rw [hread]
  rfl

/-- The identity of the second function is found first, as its spelling is preferred to that of a
name, and it is what comes last as well. -/
theorem labels_at_same_place :
    ∃ source id first second,
      ofSource source = .error (.duplicateId id (some first) (some second)) ∧
        ¬first.offset < second.offset := by
  have hfirst : chosen.firstSpan? "f" = some ⟨124, 1⟩ := by decide +kernel
  have hlast : chosen.lastSpan? "f" = some ⟨124, 1⟩ := by decide +kernel
  have herror : ofSource chosen =
      .error (.duplicateId ⟨"f"⟩ (chosen.firstSpan? "f") (chosen.lastSpan? "f")) := by
    rw [ofSource, read_chosen]
    rfl
  rw [hfirst, hlast] at herror
  exact ⟨chosen, _, _, _, herror, Nat.lt_irrefl 124⟩

end Loaded

end HeaderSynopsis.Manifest
