import HeaderSynopsis.Proofs.Output.Levels
import HeaderSynopsis.Proofs.Output.Rendering
import HeaderSynopsis.Proofs.Writing.WholeLines

namespace HeaderSynopsis.Output

open Declaration Writing Generation

section

variable {indentation : Indentation}

/-- Before an entity of an orderly tree the next line is as deep as there are scopes around it. -/
theorem nextLevel_writtenBefore {decide : Entity → Detail} {root entity : Entity}
    {position : Position} (h : ∀ e ∈ root.walk, e.Orderly) (hr : root.kind.word ≠ "access")
    (hreaches : Reaches decide root position entity) :
    ((Layout.generator indentation).writeAll (writtenBefore decide root position) {}).nextLevel =
      root.scopesAround position := by
  have habove : StaysAbove (-(({} : Layout).nextLevel : Int)) (writtenBefore decide root position) :=
    staysAbove_writtenBefore h hr hreaches
  have hlevel := nextLevel_writeAll indentation habove
  rw [depth_writtenBefore h hreaches] at hlevel
  change _ = (0 : Int) + _ at hlevel
  omega

/-- Whole lines lead from one blank line to another. -/
theorem writeAll_wholeLines {ws : List Write} (h : WholeLines ws) (text : String) (level : Nat) :
    ∃ text' level', (Layout.generator indentation).writeAll ws (.blank text level) =
        .blank text' level' ∧ (text' = text ∨ ∃ line, text' = line ++ "\n") := by
  rcases h with rfl | ⟨vs, rfl⟩
  · exact ⟨text, level, rfl, Or.inl rfl⟩
  · rw [Generator.writeAll_append]
    exact ⟨_, _, rfl, Or.inr ⟨_, rfl⟩⟩

/-- What is written from a blank line on is the same behind every text. -/
theorem text_writeAll_blank (ws : List Write) (text : String) (level : Nat) :
    ((Layout.generator indentation).writeAll ws (.blank text level)).text =
      text ++ ((Layout.generator indentation).writeAll ws (.blank "" level)).text := by
  have hblank : Layout.blank text level = (Layout.blank "" level).after text := by
    rw [Layout.after_blank, String.append_empty]
  rw [hblank, after_writeAll]
  rfl

/-- An entity that stands on a blank line adds whole lines and leaves the next line as blank. -/
theorem writeAll_entity {decide : Entity → Detail} {entity : Entity}
    (h : ∀ e ∈ entity.walk, e.Orderly) (hd : decide entity ≠ .omitted)
    (hf : entity.kind.word ≠ "file") {level : Nat} (ha : entity.kind.word = "access" → level ≠ 0)
    (text : String) :
    ∃ lines, (Layout.generator indentation).writeAll (written decide entity) (.blank text level) =
        .blank (text ++ lines) level ∧ ∃ line, lines = line ++ "\n" := by
  let lines := ((Layout.generator indentation).writeAll (written decide entity)
    (.blank "" level)).text
  have hends : ∃ line, lines = line ++ "\n" := by
    obtain ⟨ws, hw⟩ := written_endsLine hd hf
    refine ⟨((Layout.generator indentation).writeAll ws (.blank "" level)).text, ?_⟩
    change ((Layout.generator indentation).writeAll (written decide entity) _).text = _
    rw [hw, Generator.writeAll_append]
    rfl
  exact ⟨lines, writeAll_written_blank h hd hf ha (text_writeAll_blank _ _ _), hends⟩

end

/-- A selection that leaves out one entity more. -/
def Selection.omitting (selection : Selection) (id : Id) : Selection :=
  { selection with omitted := id :: selection.omitted }

theorem Selection.limit_omitting (selection : Selection) (id : Id) (entity : Entity) :
    (selection.omitting id).limit entity =
      if entity.id = id then .omitted else selection.limit entity := by
  by_cases hid : entity.id = id
  · rw [if_pos hid]
    exact if_pos (Or.inl (hid ▸ List.mem_cons_self))
  · rw [if_neg hid]
    exact limit_congr (List.mem_cons.trans (or_iff_right hid)) Iff.rfl Iff.rfl

section

variable (indentation : Indentation) {selection : Selection} {root entity : Entity}
  {position : Position}

/-- A text that is written around an entity: the lines before it, its own lines, and what follows.
The entity leaves a blank line of the level that it found. -/
theorem renderText_of_reaches (h : ∀ e ∈ root.walk, e.Orderly) (hr : root.kind.word ≠ "access")
    (hreaches : Reaches selection.limit root position entity)
    (hd : selection.limit entity ≠ .omitted) (hf : entity.kind.word ≠ "file") :
    ∃ before lines level,
      (Layout.generator indentation).writeAll (writtenBefore selection.limit root position) {} =
        .blank before level ∧
      (Layout.generator indentation).writeAll
        (writtenBefore selection.limit root position ++ written selection.limit entity) {} =
          .blank (before ++ lines) level ∧
      (before = "" ∨ ∃ line, before = line ++ "\n") ∧ ∃ line, lines = line ++ "\n" := by
  have hmember := Entity.mem_walk_of_descendant? hreaches.leads
  have hbelow : ∀ e ∈ entity.walk, e.Orderly := fun e he => h e (Entity.walk_subset hmember he)
  obtain ⟨before, level, hblank, hlines⟩ : ∃ before level,
      (Layout.generator indentation).writeAll (writtenBefore selection.limit root position)
        (.blank "" 0) = .blank before level ∧ (before = "" ∨ ∃ line, before = line ++ "\n") :=
    writeAll_wholeLines (wholeLines_writtenBefore h hreaches) "" 0
  have haccess : entity.kind.word = "access" → level ≠ 0 := by
    intro ha
    have hlevel : ((Layout.generator indentation).writeAll
        (writtenBefore selection.limit root position) (.blank "" 0)).nextLevel =
          root.scopesAround position := nextLevel_writtenBefore h hr hreaches
    rw [hblank] at hlevel
    have hpos := Entity.scopesAround_pos_of_access h hreaches.leads hr ha
    exact hlevel.trans_ne (Nat.ne_of_gt hpos)
  obtain ⟨lines, hadds, hends⟩ : ∃ lines,
      (Layout.generator indentation).writeAll (written selection.limit entity)
        (.blank before level) = .blank (before ++ lines) level ∧ ∃ line, lines = line ++ "\n" :=
    writeAll_entity hbelow hd hf haccess before
  refine ⟨before, lines, level, hblank, ?_, hlines, hends⟩
  rw [Generator.writeAll_append, ← hadds]
  exact congrArg _ hblank

/-- In a tree in which the identity of an entity occurs once, leaving the entity out removes its
lines from the text. -/
theorem renderText_omitting (h : ∀ e ∈ root.walk, e.Orderly) (hr : root.kind.word ≠ "access")
    (honce : occurrences entity.id root.walk = 1)
    (hreaches : Reaches selection.limit root position entity)
    (hd : selection.limit entity ≠ .omitted) (hf : entity.kind.word ≠ "file") :
    ∃ before lines after,
      ((Layout.generator indentation).writeAll
        (writtenBefore selection.limit root position) {}).text = before ∧
      ((Layout.generator indentation).writeAll
        (writtenBefore selection.limit root position ++ written selection.limit entity) {}).text =
          before ++ lines ∧
      renderText indentation selection root = before ++ lines ++ after ∧
      renderText indentation (selection.omitting entity.id) root = before ++ after ∧
      (before = "" ∨ ∃ line, before = line ++ "\n") ∧ ∃ line, lines = line ++ "\n" := by
  obtain ⟨before, lines, level, hbefore, hlines, hwhole, hends⟩ :=
    renderText_of_reaches indentation h hr hreaches hd hf
  -- The other selection decides the same about everything around the entity.
  have hother : ∀ e ∈ root.walk, e.id ≠ entity.id →
      selection.limit e = (selection.omitting entity.id).limit e := by
    intro e _ hne
    rw [selection.limit_omitting, if_neg hne]
  obtain ⟨hsame, hsame', hreaches'⟩ := surroundings_congr hreaches honce hother
  have homitted : written (selection.omitting entity.id).limit entity = [] := by
    apply written_of_omitted
    rw [selection.limit_omitting, if_pos rfl]
  let after := ((Layout.generator indentation).writeAll
    (writtenAfter selection.limit root position) (.blank "" level)).text
  have hfull : renderText indentation selection root = before ++ lines ++ after := by
    rw [renderText_eq, written_of_reaches hreaches, Generator.writeAll_append, hlines]
    exact text_writeAll_blank _ _ _
  have hcut : renderText indentation (selection.omitting entity.id) root = before ++ after := by
    rw [renderText_eq, written_of_reaches hreaches', homitted, List.append_nil, ← hsame, ← hsame',
      Generator.writeAll_append, hbefore]
    exact text_writeAll_blank _ _ _
  exact ⟨before, lines, after, congrArg Layout.text hbefore, congrArg Layout.text hlines, hfull,
    hcut, hwhole, hends⟩

end

end HeaderSynopsis.Output

namespace HeaderSynopsis.Manifest

open Declaration Writing Generation Output

namespace Loaded

variable {source : Source} {manifest : Loaded}

/-- Whoever is not called by the file's name is below the file. -/
theorem mem_tail_walk (h : ofSource source = .ok manifest) {e : Entity}
    (he : e ∈ manifest.file.walk) (hid : e.id.text ≠ manifest.file.name) :
    e ∈ manifest.file.walk.tail := by
  rw [Entity.walk_eq] at he ⊢
  rcases List.mem_cons.mp he with rfl | hb
  · exact absurd (id_file h) hid
  · exact hb

/-- The identity of an entity below the file occurs once, unless it is that of the file as well. -/
theorem occurrences_eq_one (h : ofSource source = .ok manifest) {e : Entity}
    (he : e ∈ manifest.file.walk) (hid : e.id.text ≠ manifest.file.name) :
    occurrences e.id manifest.file.walk = 1 := by
  have hwalk : manifest.file.walk = [manifest.file] ++ manifest.file.walk.tail := by
    rw [Entity.walk_eq]
    rfl
  have hfile : occurrences e.id [manifest.file] = 0 := by
    apply List.count_eq_zero.mpr
    intro hm
    rw [List.mem_singleton.mp hm] at hid
    exact hid (id_file h)
  have htail : occurrences e.id manifest.file.walk.tail = 1 :=
    List.count_eq_one_of_mem (loadedTree h).distinct
      (List.mem_map.mpr ⟨e, mem_tail_walk h he hid, rfl⟩)
  rw [hwalk, occurrences_append, hfile, Nat.zero_add, htail]

/-- Leaving out one more entity removes its lines from the text and changes no other. It is an
entity below the file that a decision is taken about and that is not left out already. -/
theorem exclusion_removes_lines (h : ofSource source = .ok manifest) (indentation : Indentation)
    (selection : Selection) {e : Entity} {detail : Detail}
    (hvisited : (e, detail) ∈ decisionsTaken (selection.narrow (Layout.generator indentation))
      manifest.file {})
    (hincluded : detail.isWritten = true) (hid : e.id.text ≠ manifest.file.name) :
    ∃ position before lines after,
      manifest.file.descendant? position = some e ∧
      written selection.limit manifest.file =
        writtenBefore selection.limit manifest.file position ++ written selection.limit e ++
          writtenAfter selection.limit manifest.file position ∧
      ((Layout.generator indentation).writeAll
        (writtenBefore selection.limit manifest.file position) {}).text = before ∧
      ((Layout.generator indentation).writeAll
        (writtenBefore selection.limit manifest.file position ++ written selection.limit e)
          {}).text = before ++ lines ∧
      renderText indentation selection manifest.file = before ++ lines ++ after ∧
      renderText indentation (selection.omitting e.id) manifest.file = before ++ after ∧
      (before = "" ∨ ∃ line, before = line ++ "\n") ∧ ∃ line, lines = line ++ "\n" := by
  have hdecides := selection.narrow_decides (Layout.generator_decides indentation)
  rw [hdecides.decisionsTaken_eq] at hvisited
  obtain ⟨visited, hm, heq⟩ := List.mem_map.mp hvisited
  obtain ⟨rfl, rfl⟩ := Prod.mk.inj heq
  obtain ⟨position, hreaches⟩ := exists_reaches_of_mem_visits hm
  have hmember := Entity.mem_walk_of_descendant? hreaches.leads
  have hfile : visited.kind.word ≠ "file" :=
    (loadedTree h).noOtherFile visited (mem_tail_walk h hmember hid)
  have hroot : manifest.file.kind.word ≠ "access" := by
    rw [(loadedTree h).isFile]
    decide
  have hd : selection.limit visited ≠ .omitted := Detail.isWritten_iff.mp hincluded
  obtain ⟨before, lines, after, hcut⟩ := renderText_omitting indentation (orderly h) hroot
    (occurrences_eq_one h hmember hid) hreaches hd hfile
  exact ⟨position, before, lines, after, hreaches.leads, written_of_reaches hreaches, hcut⟩

-- A class with a label and a member function that has a body.

def boardSource : Source where
  text :=
    "[file]\nname = \"geo.hpp\"\n\n[[file.entities]]\nkind = \"class\"\nname = \"board\"\n" ++
    "children = [\n    \x7b kind = \"access\", access = \"public\" \x7d,\n" ++
    "    \x7b kind = \"function\", name = \"clear\", body = [\"return;\"] \x7d,\n]\n"
  filename := "synops.toml"

def boardFields : Data.Fields :=
  [("file", .table [("name", .text "geo.hpp"), ("entities", .list [
    .table [("kind", .text "class"), ("name", .text "board"), ("children", .list [
      .table [("kind", .text "access"), ("access", .text "public")],
      .table [("kind", .text "function"), ("name", .text "clear"),
        ("body", .list [.text "return;"])]])]])])]

def boardLabel : Entity := ⟨⟨"board::@0"⟩, "", .accessLabel .publicAccess, none, none, []⟩

def boardClear : Entity :=
  ⟨⟨"board::clear"⟩, "clear", .functionDecl { body := .statements ["return;"] }, none, none, []⟩

def board : Loaded where
  options := {}
  file :=
    { Entity.ofKind .file "geo.hpp" with
      children :=
        [{ Entity.ofKind (.classType .classKey false [] false) "board" with
            children := [boardLabel, boardClear] }] }
  warnings := []

theorem read_boardSource : Toml.read boardSource.text = some boardFields := by decide +kernel

theorem ofSource_boardSource : ofSource boardSource = .ok board := by
  rw [ofSource, read_boardSource]
  rfl

/-- Without the function the class is left with its label. -/
theorem exclusion_removes_lines_board :
    ofSource boardSource = .ok board ∧
      renderText .standard (Selection.omitting {} ⟨"board::clear"⟩) board.file =
        "class board \x7b\npublic:\n\x7d;\n" ∧
      ∃ before lines after,
        renderText .standard {} board.file = before ++ lines ++ after ∧
        renderText .standard (Selection.omitting {} ⟨"board::clear"⟩) board.file =
          before ++ after := by
  have hvisited : (boardClear, Detail.definition) ∈
      decisionsTaken (Selection.narrow {} (Layout.generator .standard)) board.file {} := by
    apply List.mem_of_getElem?
    exact (rfl : (decisionsTaken (Selection.narrow {} (Layout.generator .standard))
      board.file {})[3]? = some (boardClear, Detail.definition))
  obtain ⟨position, before, lines, after, -, -, -, -, hfull, hcut, -⟩ :=
    exclusion_removes_lines ofSource_boardSource .standard {} hvisited rfl (by decide)
  exact ⟨ofSource_boardSource, by decide, before, lines, after, hfull, hcut⟩

end Loaded

end HeaderSynopsis.Manifest
