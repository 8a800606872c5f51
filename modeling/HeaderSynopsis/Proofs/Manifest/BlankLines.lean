import HeaderSynopsis.Proofs.Manifest.LineBreaks
import HeaderSynopsis.Proofs.Manifest.LoadedTree
import HeaderSynopsis.Proofs.Output.BlankLines
import HeaderSynopsis.Proofs.Writing.SettledLines

namespace HeaderSynopsis.Manifest.Loaded

open Declaration Generation Output Text Writing

/-- Whatever is selected and however it is indented, the text of a manifest that loads has no line of
spaces and tabs exactly if no spelling that is shown has such a line to itself. Line feeds in texts
that are not looked at are left out of account. -/
theorem no_faint_line_iff {source : Source} {manifest : Loaded}
    (h : ofSource source = .ok manifest)
    (hu : ∀ e ∈ manifest.file.walk, ∀ t ∈ uncheckedTexts e, OneLine t)
    (indentation : Indentation) (selection : Selection) :
    (∀ line ∈ splitFeeds (renderText indentation selection manifest.file).toList, ¬Faint line) ↔
      ∀ e ∈ visits selection.limit manifest.file, ∀ line ∈ e.loneLines (selection.limit e),
        ¬Faint line.toList := by
  have hkept : ∀ w ∈ written selection.limit manifest.file, w.KeepsLine := by
    -- Names have been checked, and the other texts are one line each by assumption.
    intro w hw
    obtain ⟨e, he, hown⟩ := exists_ownWrites_of_mem_written hw
    exact keepsLine_of_checked (name_checked h e he) (hu e he) w hown
  have hleaves := leaves_written selection.limit (orderly h)
  rw [renderText_eq, no_faint_line_writeAll_iff hkept hleaves, List.forall_mem_flatMap]

-- A function with a body of one statement, whose second line is not empty.

def gapped : Source where
  text := "[file]\nname = \"a.hpp\"\n\n[[file.entities]]\nkind = \"function\"\nname = \"f\"\n" ++
    "body = [\"a();\\n  \\nb();\"]\n"
  filename := "synops.toml"

def gappedManifest : Loaded where
  options := {}
  file :=
    { Entity.ofKind .file "a.hpp" with
      children := [Entity.ofKind (.functionDecl { body := .statements ["a();\n  \nb();"] }) "f"] }
  warnings := []

theorem ofSource_gapped : ofSource gapped = .ok gappedManifest := by
  have hread : Toml.read gapped.text =
      some [("file", .table [("name", .text "a.hpp"), ("entities", .list [.table
        [("kind", .text "function"), ("name", .text "f"),
          ("body", .list [.text "a();\n  \nb();"])]])])] := by
    decide +kernel
  rw [ofSource, hread]
  rfl

theorem no_faint_line_iff_gapped :
    ofSource gapped = .ok gappedManifest ∧
      ((∀ line ∈ splitFeeds (renderText .tab {} gappedManifest.file).toList, ¬Faint line) ↔
        ∀ e ∈ visits (Selection.limit {}) gappedManifest.file,
          ∀ line ∈ e.loneLines (Selection.limit {} e), ¬Faint line.toList) :=
  ⟨ofSource_gapped, no_faint_line_iff ofSource_gapped (by decide) .tab {}⟩

/-- The line between the two calls is indented, and its own blanks are kept. -/
theorem exists_faint_line :
    ∃ source manifest, ofSource source = .ok manifest ∧
      ∃ line ∈ splitFeeds (renderText .standard {} manifest.file).toList, Faint line := by
  have htext : renderText .standard {} gappedManifest.file =
      "f() \x7b\n    a();\n      \n    b();\n\x7d\n" := by
    decide +kernel
  have hline : [' ', ' ', ' ', ' ', ' ', ' '] ∈
      splitFeeds "f() \x7b\n    a();\n      \n    b();\n\x7d\n".toList := by
    decide
  refine ⟨gapped, gappedManifest, ofSource_gapped, [' ', ' ', ' ', ' ', ' ', ' '], ?_, by decide⟩
  rw [htext]
  exact hline

end HeaderSynopsis.Manifest.Loaded
