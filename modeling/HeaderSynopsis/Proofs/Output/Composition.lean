import HeaderSynopsis.Proofs.Manifest.Nesting
import HeaderSynopsis.Proofs.Output.Deepening
import HeaderSynopsis.Proofs.Output.Rendering

/-!
The text of a tree put together from the texts of its parts. Main result: in a tree that a file is
lowered to, the text of a definition is its heading, the texts of its children with one unit more
in front of each line, and its closing brace.
-/

namespace HeaderSynopsis.Output

open Declaration Writing Generation Text Manifest

def standalone (indentation : Indentation) (entity : Entity) : String :=
  (generate (Layout.generator indentation) entity {}).state.text

def headingText (indentation : Indentation) (entity : Entity) : String :=
  ((Layout.generator indentation).writeAll entity.heading {}).text

def closingLine (entity : Entity) : String :=
  if entity.kind.word = "namespace" then "\x7d\n" else "\x7d;\n"

/-- The text of an entity inside a definition: access labels stay where they are. -/
def nestedText (indentation : Indentation) (entity : Entity) : String :=
  if entity.kind.word = "access" then standalone indentation entity
  else indentLines indentation.unit (standalone indentation entity)

open Layout

variable {indentation : Indentation} {before : String} {l : Layout} {entity : Entity} {n : Nat}

theorem standalone_eq (indentation : Indentation) (entity : Entity) :
    standalone indentation entity =
      ((Layout.generator indentation).writeAll
        (written (fun _ => .definition) entity) {}).text := by
  rw [standalone, (Layout.generator_decides indentation).generate_eq,
    Generator.attendAll_eq_writeAll _ (fun _ _ _ => rfl) (fun _ _ => rfl), written]

/-- Outside of everything an entity adds the text that it has on its own. -/
theorem writeAll_outside (h : Tidy entity) (hf : entity.kind.word ≠ "file")
    (ha : entity.kind.word ≠ "access") (text : String) :
    (Layout.generator indentation).writeAll (written (fun _ => .definition) entity)
      (blank text 0) = blank (text ++ standalone indentation entity) 0 := by
  have hfresh : blank text 0 = ({} : Layout).after text := by
    rw [blank, after, String.append_empty]
  refine writeAll_written_blank h.orderly Detail.noConfusion hf (fun hk => absurd hk ha) ?_
  rw [hfresh, after_writeAll, standalone_eq]
  rfl

/-- Inside a definition anything but an access label adds its text one level deeper. -/
theorem writeAll_deeper (h : Tidy entity) (hf : entity.kind.word ≠ "file")
    (ha : entity.kind.word ≠ "access") (text : String) :
    (Layout.generator indentation).writeAll (written (fun _ => .definition) entity)
        (blank text 1) =
      blank (text ++ indentLines indentation.unit (standalone indentation entity)) 1 := by
  have hstart : Deepened indentation.unit text {} (blank text 1) :=
    ⟨by rw [indentLines_empty, String.append_empty]; rfl, rfl, rfl, rfl, rfl⟩
  have hpaired : Paired false (written (fun _ => .definition) entity) :=
    paired_written h.orderly fun hk => absurd hk ha
  have hend := hstart.writeAll hpaired (keepsLine_written h.texts)
    fun hinside => absurd hinside Bool.false_ne_true
  refine writeAll_written_blank h.orderly Detail.noConfusion hf (fun hk => absurd hk ha) ?_
  rw [hend.text, standalone_eq]

/-- Inside a definition an access label steps back out, and adds the text that it has outside. -/
theorem writeAll_accessLabel (h : Tidy entity) (ha : entity.kind.word = "access")
    (ht : entity.template = none) (text : String) :
    (Layout.generator indentation).writeAll (written (fun _ => .definition) entity)
      (blank text 1) = blank (text ++ standalone indentation entity) 1 := by
  have hf : entity.kind.word ≠ "file" := by
    rw [ha]
    decide
  refine writeAll_written_blank h.orderly Detail.noConfusion hf (fun _ => Nat.one_ne_zero) ?_
  obtain ⟨ws, hw⟩ : ∃ ws, written (fun _ => .definition) entity = .unindent :: ws := by
    obtain ⟨_, _, kind, template, _, _⟩ := entity
    cases kind with
    | accessLabel access =>
      obtain rfl : template = none := ht
      rw [written_of_declaration Detail.noConfusion (by simp [Entity.isContainer])]
      exact ⟨_, rfl⟩
    | _ => exact absurd ha (by simp [EntityKind.word])
  -- Once the level is lowered, all that is left of the way into the definition is the text.
  have hout : (blank text 1).shallower = ({} : Layout).shallower.after text := by
    simp [blank, after, shallower]
  rw [standalone_eq, hw, Generator.writeAll_cons, Generator.writeAll_cons]
  change ((Layout.generator indentation).writeAll ws (blank text 1).shallower).text = _
  rw [hout, after_writeAll]
  rfl

/-- Children that each add a text on the level of the line add one text after the other. -/
theorem writeAll_children {children : List Entity} {piece : Entity → String}
    (hc : ∀ child ∈ children, ∀ text,
      (Layout.generator indentation).writeAll (written (fun _ => .definition) child)
        (blank text n) = blank (text ++ piece child) n) (text : String) :
    (Layout.generator indentation).writeAll
        (children.flatMap (written fun _ => .definition)) (blank text n) =
      blank (text ++ String.join (children.map piece)) n := by
  induction children generalizing text with
  | nil => exact congrArg (blank · n) String.append_empty.symm
  | cons child rest ih =>
    have hrest := ih fun c hm => hc c (List.mem_cons_of_mem _ hm)
    rw [List.flatMap_cons, Generator.writeAll_append, hc child List.mem_cons_self, hrest,
      List.map_cons, String.join_cons, String.append_assoc]

/-- Flat steps that begin with both levels at zero never leave them. -/
theorem level_writeAll (indentation : Indentation) {ws : List Write} (h : Flat ws)
    (hl : l.level = 0) (hn : l.nextLevel = 0) :
    ((Layout.generator indentation).writeAll ws l).level = 0 ∧
      ((Layout.generator indentation).writeAll ws l).nextLevel = 0 := by
  induction ws generalizing l with
  | nil => exact ⟨hl, hn⟩
  | cons w ws ih =>
    rw [Flat, List.all_cons, Bool.and_eq_true] at h
    have hw := h.1
    rw [Generator.writeAll_cons]
    cases w with
    | token kind text => exact ih h.2 (put_level.trans hl) (put_nextLevel.trans hn)
    | reference targets name => exact ih h.2 (put_level.trans hl) (put_nextLevel.trans hn)
    | space => exact ih h.2 (put_level.trans hl) (put_nextLevel.trans hn)
    | lineBreak => exact ih h.2 hn hn
    | indent => exact absurd hw Bool.false_ne_true
    | unindent => exact absurd hw Bool.false_ne_true

/-- Text that is put on a line of level zero has no margin. -/
theorem put_text_of_level (hl : l.level = 0) (unit text : String) :
    (l.put unit text).text = l.text ++ text := by
  by_cases hne : text = ""
  · rw [hne, put_empty, String.append_empty]
  · have hlead : l.lead unit = "" := by
      rw [lead, hl]
      split <;> rfl
    rw [put_text hne, hlead, String.append_empty]

theorem writeAll_openBrace (hl : l.level = 0) (hn : l.nextLevel = 0) :
    (Layout.generator indentation).writeAll Entity.openBrace l = blank (l.text ++ " \x7b\n") 1 := by
  have hspace : (l.put indentation.unit " ").level = 0 := put_level.trans hl
  have htext : ((l.put indentation.unit " ").put indentation.unit "\x7b").text =
      l.text ++ " \x7b" := by
    rw [put_text_of_level hspace, put_text_of_level hl, String.append_assoc]
    rfl
  have hnext : ((l.put indentation.unit " ").put indentation.unit "\x7b").nextLevel = 0 :=
    put_nextLevel.trans (put_nextLevel.trans hn)
  change (((l.put indentation.unit " ").put indentation.unit "\x7b").deeper).breakLine = _
  simp only [deeper, breakLine, blank, htext, hnext, String.append_assoc]
  rfl

theorem text_writeAll_closing (entity : Entity) (text : String) :
    ((Layout.generator indentation).writeAll
        ([.unindent, .punctuation "\x7d"] ++ entity.closingMark ++ [.lineBreak])
        (blank text 1)).text = text ++ closingLine entity := by
  have hbrace : ((blank text 1).shallower.put indentation.unit "\x7d").text = text ++ "\x7d" :=
    put_text_of_level rfl _ _
  have hlevel : ((blank text 1).shallower.put indentation.unit "\x7d").level = 0 := put_level
  unfold Entity.closingMark closingLine
  split
  · change ((blank text 1).shallower.put indentation.unit "\x7d").text ++ "\n" = _
    rw [hbrace, String.append_assoc]
    rfl
  · change (((blank text 1).shallower.put indentation.unit "\x7d").put
      indentation.unit ";").text ++ "\n" = _
    rw [put_text_of_level hlevel, hbrace, String.append_assoc, String.append_assoc]
    rfl

theorem standalone_of_isScope (h : Tidy entity) (hs : entity.IsScope)
    (hlabels : ∀ e ∈ entity.walk, e.kind.word = "access" → e.template = none) :
    standalone indentation entity =
      headingText indentation entity ++ " \x7b\n" ++
        String.join (entity.children.map (nestedText indentation)) ++ closingLine entity := by
  have hflat := flat_heading hs (h.texts entity entity.self_mem_walk)
  obtain ⟨hlevel, hnext⟩ := level_writeAll indentation (l := {}) hflat rfl rfl
  have hchildren : ∀ child ∈ entity.children, ∀ text,
      (Layout.generator indentation).writeAll (written (fun _ => .definition) child)
        (blank text 1) = blank (text ++ nestedText indentation child) 1 := by
    intro child hm text
    have hvisited := Entity.child_mem_walk hm
    have hchild := h.of_mem hvisited
    unfold nestedText
    split
    · exact writeAll_accessLabel hchild ‹_› (hlabels child hvisited ‹_›) text
    · have hf := (h.orderly entity entity.self_mem_walk).noFile child hm
      exact writeAll_deeper hchild hf ‹_› text
  have hinside : (Layout.generator indentation).writeAll (entity.heading ++ Entity.openBrace ++
      entity.children.flatMap (written fun _ => .definition)) {} =
      blank (headingText indentation entity ++ " \x7b\n" ++
        String.join (entity.children.map (nestedText indentation))) 1 := by
    rw [Generator.writeAll_append, Generator.writeAll_append, writeAll_openBrace hlevel hnext,
      writeAll_children hchildren, headingText]
  rw [standalone_eq, written_of_isScope hs, Generator.writeAll_append, hinside,
    text_writeAll_closing]

theorem standalone_of_file (h : Tidy entity) (hk : entity.kind = .file)
    (ht : entity.template = none) :
    standalone indentation entity =
      String.join (entity.children.map (standalone indentation)) := by
  have horder := h.orderly entity entity.self_mem_walk
  have hchildren : ∀ child ∈ entity.children, ∀ text,
      (Layout.generator indentation).writeAll (written (fun _ => .definition) child)
        (blank text 0) = blank (text ++ standalone indentation child) 0 := by
    intro child hm text
    refine writeAll_outside (h.of_mem (Entity.child_mem_walk hm)) (horder.noFile child hm) ?_ text
    intro ha
    have hclass := horder.access child hm ha
    rw [hk] at hclass
    exact absurd hclass (by decide)
  have hwritten : written (fun _ => .definition) entity =
      entity.children.flatMap (written fun _ => .definition) := by
    obtain ⟨_, _, kind, template, _, children⟩ := entity
    obtain rfl : kind = .file := hk
    obtain rfl : template = none := ht
    rw [written_of_definition rfl rfl]
    exact List.append_nil _
  have hall := writeAll_children hchildren ""
  rw [standalone_eq, hwritten]
  change ((Layout.generator indentation).writeAll _ (blank "" 0)).text = _
  rw [hall, String.empty_append]
  rfl

/-- In the tree of a file whose texts have no line feeds and whose access labels are no templates,
every text is put together from smaller ones: that of the file from those of its children, and that
of a namespace, class or enumeration from its heading, the indented texts of its children and its
closing brace. -/
theorem standalone_compositional (indentation : Indentation) {source : Source}
    {file : FileDefinition} {tree : Entity} {ids : List Id}
    (hlower : file.lower source = .ok (tree, ids))
    (htexts : ∀ entity ∈ tree.walk, ∀ text ∈ entity.texts, OneLine text)
    (hlabels : ∀ entity ∈ tree.walk, entity.kind.word = "access" → entity.template = none) :
    standalone indentation tree =
        String.join (tree.children.map (standalone indentation)) ∧
      ∀ entity ∈ tree.walk, entity.IsScope →
        standalone indentation entity =
          headingText indentation entity ++ " \x7b\n" ++
            String.join (entity.children.map (nestedText indentation)) ++
            closingLine entity := by
  have htidy : Tidy tree := ⟨FileDefinition.orderly_of_lower hlower, htexts⟩
  obtain ⟨-, hresult⟩ := FileDefinition.lower_eq_ok.mp hlower
  obtain ⟨rfl, rfl⟩ := Prod.mk.inj hresult
  refine ⟨standalone_of_file htidy rfl rfl, fun entity hv hs => ?_⟩
  exact standalone_of_isScope (htidy.of_mem hv) hs fun e he =>
    hlabels e (Entity.walk_subset hv he)

def widgetFile : FileDefinition :=
  ⟨"widget.hpp", none,
    [⟨"ui", none, .namespaceScope false, none, none, none,
      [⟨"Widget", none, .classType .classKey false [] false, none, none, none,
        [⟨"", none, .accessLabel .publicAccess, none, none, none, []⟩,
          ⟨"show", none, .functionDecl { body := .statements ["draw();\n\nflush();"] }, none,
            none, none, []⟩]⟩]⟩]⟩

theorem standalone_compositional_widgetFile :
    let tree := widgetFile.entity
    widgetFile.lower ⟨"", "widget.toml"⟩ = .ok (tree, widgetFile.placed.map Placed.id) ∧
    (∀ entity ∈ tree.walk, ∀ text ∈ entity.texts, OneLine text) ∧
    (∀ entity ∈ tree.walk, entity.kind.word = "access" → entity.template = none) ∧
    (∃ entity ∈ tree.walk, entity.IsScope) ∧
    standalone .standard tree = String.join (tree.children.map (standalone .standard)) ∧
    ∀ entity ∈ tree.walk, entity.IsScope →
      standalone .standard entity =
        headingText .standard entity ++ " \x7b\n" ++
          String.join (entity.children.map (nestedText .standard)) ++ closingLine entity := by
  intro tree
  have hlower : widgetFile.lower ⟨"", "widget.toml"⟩ =
      .ok (tree, widgetFile.placed.map Placed.id) := rfl
  have htexts : ∀ entity ∈ tree.walk, ∀ text ∈ entity.texts, OneLine text := by decide
  have hlabels : ∀ entity ∈ tree.walk, entity.kind.word = "access" → entity.template = none := by
    decide
  have hscope : ∃ entity ∈ tree.walk, entity.IsScope := by decide
  exact ⟨hlower, htexts, hlabels, hscope,
    standalone_compositional .standard hlower htexts hlabels⟩

example : standalone (.spaces 2) widgetFile.entity =
    "namespace ui \x7b\n  class Widget \x7b\n  public:\n    show() \x7b\n      draw();\n\n" ++
      "      flush();\n    \x7d\n  \x7d;\n\x7d\n" := by decide +kernel

end HeaderSynopsis.Output
