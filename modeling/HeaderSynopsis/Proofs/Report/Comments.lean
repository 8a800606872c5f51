import HeaderSynopsis.Proofs.Report.Traversals
import HeaderSynopsis.Proofs.Text.Lines

namespace HeaderSynopsis.Text

/-- A text is its own only line if it has no line feed, unless it is empty. -/
theorem lines_eq_self_iff {text : String} : lines text = [text] ↔ text ≠ "" ∧ OneLine text := by
  constructor
  · intro h
    have hline : OneLine text := oneLine_lines text (by rw [h]; exact List.mem_cons_self)
    refine ⟨?_, hline⟩
    rintro rfl
    exact absurd h (by decide)
  · rintro ⟨hne, hline⟩
    have hcs : text.toList ≠ [] := mt String.toList_eq_nil_iff.mp hne
    obtain ⟨c, rest, hcons⟩ := List.exists_cons_of_ne_nil hcs
    rw [lines, splitFeeds_line hline, hcons]
    show [String.ofList (c :: rest)] = [text]
    rw [← hcons, String.ofList_toList]

end HeaderSynopsis.Text

namespace HeaderSynopsis.Report

open Declaration Manifest Text

def commentLines (depth : Nat) (comment : Option String) : List Line :=
  (Text.lines (comment.getD "")).map fun line =>
    .preformatted (String.join (List.replicate depth "  ") ++ "// " ++ line)

def shownAt (file : Entity) (position : Position) : List Line :=
  let depth := (file.around position).tail.length
  ((file.descendant? position).map fun entity =>
    .preformatted (Node.ofEntity depth entity).headline ::
      commentLines (depth + 1) entity.comment).getD []

def shownByLine (file : Entity) : List Line :=
  .title file.name :: commentLines 0 file.comment ++ file.positions.tail.flatMap (shownAt file)

theorem Node.lines_eq (node : Node) :
    node.lines = .preformatted node.headline :: commentLines (node.depth + 1) node.comment := by
  have hmargin : node.margin ++ "  // " =
      String.join (List.replicate (node.depth + 1) "  ") ++ "// " := by
    apply String.toList_injective
    simp [Node.margin, List.replicate_succ', String.toList_join]
  simp only [Node.lines, commentLines, hmargin]

/-- No line of a comment has a line feed. -/
theorem oneLine_of_mem_commentLines {depth : Nat} {comment : Option String} {line : Line}
    (h : line ∈ commentLines depth comment) : ∃ text, line = .preformatted text ∧ OneLine text := by
  obtain ⟨part, hpart, rfl⟩ := List.mem_map.mp h
  have hmargin : OneLine (String.join (List.replicate depth "  ")) := by
    rw [OneLine, String.toList_join]
    simp
  exact ⟨_, rfl, (hmargin.append (by decide)).append (oneLine_lines part hpart)⟩

/-- A comment in one piece is the same as line by line only if it is a single line. -/
theorem inOnePiece_eq_commentLines_iff (comment : Option String) :
    comment.toList.map (fun text => Line.preformatted ("// " ++ text)) = commentLines 0 comment ↔
      ∀ text ∈ comment, text ≠ "" ∧ OneLine text := by
  cases comment with
  | none => exact ⟨fun _ _ h => absurd h (by simp), fun _ => by decide⟩
  | some text =>
    have hinjective : Function.Injective fun line : String =>
        Line.preformatted ("" ++ "// " ++ line) := by
      intro a b hab
      exact String.append_right_inj _ |>.mp (Line.preformatted.inj hab)
    have hpiece : (some text).toList.map (fun text => Line.preformatted ("// " ++ text)) =
        [text].map fun line => Line.preformatted ("" ++ "// " ++ line) := rfl
    rw [hpiece, commentLines, Option.getD_some]
    show _ = (Text.lines text).map (fun line => Line.preformatted ("" ++ "// " ++ line)) ↔ _
    rw [(List.map_injective_iff.mpr hinjective).eq_iff, eq_comm, lines_eq_self_iff]
    simp

structure CommentsShown (file : Entity) (lines : List Line) : Prop where
  lines_eq : lines =
    .title file.name :: file.comment.toList.map (fun text => .preformatted ("// " ++ text)) ++
      file.positions.tail.flatMap (shownAt file)
  -- Whatever is made from a comment below the file is one line.
  below : ∀ position ∈ file.positions.tail, ∀ entity, file.descendant? position = some entity →
    ∀ line ∈ commentLines ((file.around position).tail.length + 1) entity.comment,
      ∃ text, line = .preformatted text ∧ OneLine text
  byLine_iff : lines = shownByLine file ↔
    ∀ text ∈ file.comment, text ≠ "" ∧ OneLine text

/-- An outline shows the comments of all entities below the file line by line, and that of the file
exactly if it is a single line. -/
theorem comments_shown (manifest : Loaded) :
    CommentsShown manifest.file (Outline.ofManifest manifest).lines := by
  have hnodes : (Outline.ofManifest manifest).nodes.flatMap Node.lines =
      manifest.file.positions.tail.flatMap (shownAt manifest.file) := by
    calc (Outline.ofManifest manifest).nodes.flatMap Node.lines
        = ((Outline.ofManifest manifest).nodes.map some).flatMap
            fun node => (node.map Node.lines).getD [] := by
          rw [List.flatMap_map]
          rfl
      _ = _ := by
          rw [map_some_nodes, List.flatMap_map]
          congr 1
          funext position
          rw [Option.map_map, shownAt]
          simp only [Function.comp_def, Node.lines_eq]
          rfl
  have hlines : (Outline.ofManifest manifest).lines =
      .title manifest.file.name ::
          manifest.file.comment.toList.map (fun text => .preformatted ("// " ++ text)) ++
        manifest.file.positions.tail.flatMap (shownAt manifest.file) := by
    rw [← hnodes]
    rfl
  refine ⟨hlines, ?_, ?_⟩
  · intro position _ entity _ line hline
    exact oneLine_of_mem_commentLines hline
  · rw [hlines, shownByLine, ← inOnePiece_eq_commentLines_iff, List.append_left_inj,
      List.cons_inj_right]

-- A file with a comment of two lines.

def notedSource : Source where
  text := "[file]\nname = \"a.hpp\"\ncomment = \"First line.\\nSecond line.\"\n"
  filename := "synops.toml"

def noted : Loaded where
  options := {}
  file := { Entity.ofKind .file "a.hpp" with comment := some "First line.\nSecond line." }
  warnings := []

theorem ofSource_notedSource : Loaded.ofSource notedSource = .ok noted := by
  have hread : Toml.read notedSource.text =
      some [("file", .table [("name", .text "a.hpp"),
        ("comment", .text "First line.\nSecond line.")])] := by
    decide +kernel
  rw [Loaded.ofSource, hread]
  rfl

/-- The second line of the comment is shown in the same piece as the first. -/
theorem exists_comment_in_one_piece :
    ∃ source manifest, Loaded.ofSource source = .ok manifest ∧
      .preformatted "// First line.\nSecond line." ∈ (Outline.ofManifest manifest).lines ∧
      (Outline.ofManifest manifest).lines ≠ shownByLine manifest.file := by
  have hpiece : .preformatted "// First line.\nSecond line." ∈
      (Outline.ofManifest noted).lines := by
    decide
  have hlines : (Outline.ofManifest noted).lines ≠ shownByLine noted.file := by decide
  exact ⟨notedSource, noted, ofSource_notedSource, hpiece, hlines⟩

end HeaderSynopsis.Report
