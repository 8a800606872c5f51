import HeaderSynopsis.Proofs.Generation.Invariants
import HeaderSynopsis.Proofs.Output.AnchorPlaces
import HeaderSynopsis.Proofs.Output.Nodes

/-!
The elements of an HTML document. What is written of a tree is the markup of nodes that can be told
from the steps alone, with the margins and line breaks between them. Main result: a reader of the
document finds an element for each classified token that was written and an anchor for each entity
that was not omitted, and nothing else, whatever characters are in the texts and identities.
-/

namespace HeaderSynopsis.Output

open Declaration Writing Generation

def charNodes (text : String) : List Node := text.toList.map .char

def anchorNode (id : Id) : Node := .element "a" [("id", id.text)] []

def spanClass : TokenKind → String
  | .keyword => "keyword"
  | .identifier => "identifier"
  | .reference => "reference"
  | .punctuation => "punctuation"
  | .strLiteral => "str-literal"
  | .intLiteral => "int-literal"
  | .floatLiteral => "float-literal"
  | .preprocessor => "preprocessor"
  | .tokenSeq => "token-seq"

def spanNode (kind : TokenKind) (text : String) : Node :=
  .element "span" [("class", spanClass kind)] (charNodes text)

def linkNode (target : Id) (name : String) : Node :=
  .element "a" [("class", "reference"), ("href", "#" ++ target.text)] (charNodes name)

/-- The element of a classified token. A reference is linked to its first target. -/
def tokenNode? : Write → Option Node
  | .token .tokenSeq _ => none
  | .token kind text => some (spanNode kind text)
  | .reference (target :: _) name => some (linkNode target name)
  | .reference [] name => some (spanNode .reference name)
  | .space | .lineBreak | .indent | .unindent => none

/-- The nodes of a step that is marked up. A run of tokens has no element of its own. -/
def markupNodes : Write → List Node
  | .token .tokenSeq text => charNodes text
  | w => (tokenNode? w).toList

def stepElements (step : AnchoredStep) : List Node :=
  (step.1.map anchorNode).toList ++ (tokenNode? step.2).toList

def page (content : List Node) : List Node :=
  [.element "pre" [] [.element "code" [("class", "language-cpp")] content], .char '\n']

def AnchoredStep.blanked : AnchoredStep → AnchoredStep
  | (anchor, .token kind _) => (anchor.map fun _ => ⟨""⟩, .token kind "")
  | (anchor, .reference targets _) =>
      (anchor.map fun _ => ⟨""⟩, .reference (targets.map fun _ => ⟨""⟩) "")
  | (anchor, w) => (anchor.map fun _ => ⟨""⟩, w)

namespace Node

def isElement : Node → Bool
  | .char _ => false
  | .element .. => true

def isAnchor : Node → Bool
  | .element tag [(key, _)] content => tag = "a" && key = "id" && content.isEmpty
  | _ => false

def isToken (node : Node) : Bool := node.isElement && !node.isAnchor

def frame? : Node → Option (String × List (String × String))
  | .char _ => none
  | .element tag attributes _ =>
      some (tag, attributes.map fun (key, value) => (key, if key = "class" then value else ""))

theorem isElement_of_isAnchor {node : Node} (h : node.isAnchor = true) : node.isElement = true := by
  cases node with
  | char c => exact absurd h Bool.false_ne_true
  | element tag attributes content => rfl

end Node

/-- A text without any character that has to be escaped. -/
theorem escape_self {text : String} (h : ∀ c ∈ text.toList, escapeChar c = [c]) :
    escape text = text := by
  have hchars : text.toList.flatMap escapeChar = text.toList :=
    (List.flatMap_congr h).trans (List.flatMap_singleton' _)
  rw [escape, hchars, String.ofList_toList]

theorem spanClass_eq_word (kind : TokenKind) : spanClass kind = kind.word := by
  cases kind <;> rfl

theorem escape_spanClass (kind : TokenKind) : escape (spanClass kind) = spanClass kind := by
  cases kind <;> decide +kernel

theorem escape_fragment (text : String) : escape ("#" ++ text) = "#" ++ escape text := by
  have hmark : "#".toList.flatMap escapeChar = "#".toList := by decide
  rw [escape, String.toList_append, List.flatMap_append, hmark, String.ofList_append,
    String.ofList_toList, escape]

theorem printAll_charNodes (text : String) :
    Node.printAll (charNodes text) = (escape text).toList := by
  rw [charNodes, Node.printAll_chars, escape, String.toList_ofList]

/-- An element's markup, cut before and behind the value of its last attribute. -/
theorem print_element (tag : String) (front : List (String × String)) (key value : String)
    (content : List Node) :
    Node.print (.element tag (front ++ [(key, value)]) content) =
      ('<' :: (tag.toList ++ Node.printAttributes front ++ ' ' :: (key.toList ++ ['=', '"']))) ++
        ((escape value).toList ++ (['"', '>'] ++ (Node.printAll content ++
          Node.printClosing tag))) := by
  simp [Node.print, Node.printOpening, Node.printAttributes]

theorem print_anchorNode (id : Id) : (anchorNode id).print = (Markup.anchorTag id).toList := by
  have hlead : "<a id=\"".toList =
      '<' :: ("a".toList ++ Node.printAttributes [] ++ ' ' :: ("id".toList ++ ['=', '"'])) := by
    decide +kernel
  have hclose : "\"></a>".toList = ['"', '>'] ++ (Node.printAll [] ++ Node.printClosing "a") := by
    decide +kernel
  rw [Markup.anchorTag, String.toList_append, String.toList_append, List.append_assoc, hlead,
    hclose]
  exact print_element "a" [] "id" id.text []

theorem print_spanNode (kind : TokenKind) (text : String) :
    (spanNode kind text).print = (Markup.span kind text).toList := by
  have hlead : "<span class=\"".toList =
      '<' :: ("span".toList ++ Node.printAttributes [] ++
        ' ' :: ("class".toList ++ ['=', '"'])) := by decide +kernel
  have hend : "\">".toList = ['"', '>'] := by decide
  have hclose : "</span>".toList = Node.printClosing "span" := by decide +kernel
  have h := print_element "span" [] "class" (spanClass kind) (charNodes text)
  rw [escape_spanClass, spanClass_eq_word, printAll_charNodes, ← hlead, ← hend, ← hclose] at h
  have hspan : Markup.span kind text =
      "<span class=\"" ++ kind.word ++ "\">" ++ escape text ++ "</span>" := rfl
  rw [hspan]
  simp only [String.toList_append, List.append_assoc]
  exact h

theorem print_linkNode (target : Id) (targets : List Id) (name : String) :
    (linkNode target name).print = (Markup.linkTag (target :: targets) name).toList := by
  have hlead : "<a class=\"reference\" href=\"#".toList =
      '<' :: ("a".toList ++ Node.printAttributes [("class", "reference")] ++
        ' ' :: ("href".toList ++ ['=', '"'])) ++ "#".toList := by decide +kernel
  have hend : "\">".toList = ['"', '>'] := by decide
  have hclose : "</a>".toList = Node.printClosing "a" := by decide +kernel
  have h := print_element "a" [("class", "reference")] "href" ("#" ++ target.text) (charNodes name)
  rw [escape_fragment, printAll_charNodes, ← hend, ← hclose, String.toList_append] at h
  refine h.trans ?_
  rw [linkTag_cons]
  simp only [hlead, String.toList_append, List.append_assoc]

theorem printAll_markupNodes {w : Write} {html : String} (h : html? w = some html) :
    Node.printAll (markupNodes w) = html.toList := by
  have hone {node : Node} {html : String} (hp : node.print = html.toList) :
      Node.printAll (some node).toList = html.toList := (Node.printAll_singleton node).trans hp
  cases w with
  | token kind text =>
    cases kind with
    | tokenSeq =>
      obtain rfl := Option.some.inj h
      exact printAll_charNodes text
    | _ =>
      obtain rfl := Option.some.inj h
      exact hone (print_spanNode _ text)
  | reference targets name =>
    obtain rfl := Option.some.inj h
    cases targets with
    | nil => exact hone (print_spanNode .reference name)
    | cons target targets => exact hone (print_linkNode target targets name)
  | space | lineBreak | indent | unindent => cases h

theorem printAll_anchor (anchor : Option Id) :
    Node.printAll (anchor.map anchorNode).toList =
      ((anchor.map Markup.anchorTag).getD "").toList := by
  cases anchor with
  | none => rfl
  | some id => exact (Node.printAll_singleton _).trans (print_anchorNode id)

theorem tokenNode?_of_html_none {w : Write} (h : html? w = none) : tokenNode? w = none := by
  cases w with
  | token kind text => cases kind <;> cases h
  | reference targets name => cases h
  | space | lineBreak | indent | unindent => rfl

theorem filter_anchor (anchor : Option Id) :
    (anchor.map anchorNode).toList.filter Node.isElement = (anchor.map anchorNode).toList := by
  cases anchor <;> rfl

theorem filter_charNodes (text : String) : (charNodes text).filter Node.isElement = [] := by
  rw [List.filter_eq_nil_iff]
  rintro node hn
  obtain ⟨c, -, rfl⟩ := List.mem_map.mp hn
  exact Bool.false_ne_true

theorem filter_markupNodes (w : Write) :
    (markupNodes w).filter Node.isElement = (tokenNode? w).toList := by
  cases w with
  | token kind text =>
    cases kind with
    | tokenSeq => exact filter_charNodes text
    | _ => rfl
  | reference targets name => cases targets <;> rfl
  | space | lineBreak | indent | unindent => rfl

/-- All tags and attributes of the nodes of a step are named in the generator itself. -/
theorem wellNamed_markupNodes (w : Write) : WellNamed (markupNodes w) := by
  have hclass : ProperName "class" := by decide
  have hhref : ProperName "href" := by decide
  have hspan (kind : TokenKind) (text : String) : WellNamed [spanNode kind text] :=
    .element (by decide) (List.forall_mem_singleton.mpr hclass) (.chars _) .nil
  have hlink (target : Id) (name : String) : WellNamed [linkNode target name] := by
    refine .element (by decide) (List.forall_mem_cons.mpr ⟨hclass, ?_⟩) (.chars _) .nil
    exact List.forall_mem_singleton.mpr hhref
  cases w with
  | token kind text =>
    cases kind with
    | tokenSeq => exact .chars _
    | _ => exact hspan _ text
  | reference targets name =>
    cases targets with
    | nil => exact hspan .reference name
    | cons target targets => exact hlink target name
  | space | lineBreak | indent | unindent => exact .nil

theorem wellNamed_anchor (anchor : Option Id) : WellNamed (anchor.map anchorNode).toList := by
  cases anchor with
  | none => exact .nil
  | some id =>
    have hid : ProperName "id" := by decide
    exact .element (by decide) (List.forall_mem_singleton.mpr hid) .nil .nil

theorem wellNamed_page {content : List Node} (h : WellNamed content) :
    WellNamed (page content) := by
  have hcode : WellNamed [.element "code" [("class", "language-cpp")] content] :=
    .element (by decide) (List.forall_mem_singleton.mpr (by decide)) h .nil
  exact .element (by decide) (List.forall_mem_nil _) hcode (.char .nil)

def Marked (l : Layout) (elements : List Node) : Prop :=
  ∃ nodes, WellNamed nodes ∧ l.text.toList = Node.printAll nodes ∧
    nodes.filter Node.isElement = elements

namespace Marked

variable {l : Layout} {elements nodes : List Node}

/-- A margin is nothing but characters. -/
theorem printAll_lead (indentation : Indentation) (l : Layout) :
    Node.printAll (charNodes (l.lead indentation.unit)) = (l.lead indentation.unit).toList := by
  have hplain : ∀ c ∈ (l.lead indentation.unit).toList, escapeChar c = [c] := by
    intro c hc
    unfold Layout.lead at hc
    split at hc
    · rcases Indentation.eq_of_mem_unit (Layout.mem_unit_of_mem_margin hc) with rfl | rfl
      · rfl
      · rfl
    · exact absurd hc (by simp)
  rw [printAll_charNodes, escape_self hplain]

/-- Nodes are put on the current line, behind its margin if they are the first on it. -/
theorem put (indentation : Indentation) (h : Marked l elements) (hn : WellNamed nodes)
    {text : String} (ht : text.toList = Node.printAll nodes) :
    Marked (l.put indentation.unit text) (elements ++ nodes.filter Node.isElement) := by
  -- An empty text does not even begin the line, but then there are no nodes either.
  by_cases he : text = ""
  · subst he
    rw [Node.printAll_eq_nil ht.symm, List.filter_nil, List.append_nil, Layout.put_empty]
    exact h
  · obtain ⟨before, hbefore, hprint, rfl⟩ := h
    refine ⟨before ++ (charNodes (l.lead indentation.unit) ++ nodes),
      hbefore.append (.append (.chars _) hn), ?_, ?_⟩
    · rw [Layout.put_text he, String.toList_append, String.toList_append, ht, hprint,
        Node.printAll_append, Node.printAll_append, printAll_lead, List.append_assoc]
    · rw [List.filter_append, List.filter_append, filter_charNodes, List.nil_append]

/-- A step that is not marked up adds no element. -/
theorem write (indentation : Indentation) (h : Marked l elements) {w : Write}
    (hw : html? w = none) :
    Marked ((Layout.generator indentation).write w l) elements := by
  cases w with
  | token kind text => cases kind <;> cases hw
  | reference targets name => cases hw
  | space =>
    have hput := h.put indentation (.chars [' ']) (rfl : " ".toList = _)
    rwa [List.filter_eq_nil_iff.mpr (by simp [Node.isElement]), List.append_nil] at hput
  | lineBreak =>
    obtain ⟨nodes, hn, hprint, helements⟩ := h
    refine ⟨nodes ++ [.char '\n'], hn.append (.char .nil), ?_, ?_⟩
    · rw [Node.printAll_append, ← hprint]
      exact String.toList_append
    · rw [List.filter_append, helements]
      exact List.append_nil _
  | indent => exact h
  | unindent => exact h

/-- What is put for an anchored step is its elements and characters. -/
theorem writeStep (indentation : Indentation) (h : Marked l elements) (step : AnchoredStep)
    (hanchor : step.1.isSome = true → (html? step.2).isSome = true) :
    Marked ((Layout.generator indentation).write step.inHtml l)
      (elements ++ stepElements step) := by
  obtain ⟨anchor, w⟩ := step
  cases hw : html? w with
  | some html =>
    have hnodes : ((anchor.map Markup.anchorTag).getD "" ++ html).toList =
        Node.printAll ((anchor.map anchorNode).toList ++ markupNodes w) := by
      rw [String.toList_append, Node.printAll_append, printAll_anchor, printAll_markupNodes hw]
    have hput := h.put indentation
      ((wellNamed_anchor anchor).append (wellNamed_markupNodes w)) hnodes
    rw [List.filter_append, filter_anchor, filter_markupNodes] at hput
    rw [inHtml_of_html hw]
    exact hput
  | none =>
    -- An anchor waits for a step that is marked up, so there is none before this one.
    have hnone : anchor = none := by
      cases anchor with
      | none => rfl
      | some id => exact absurd (hanchor rfl) (by simp [hw])
    have helements : stepElements (anchor, w) = [] := by
      rw [stepElements, hnone, tokenNode?_of_html_none hw]
      rfl
    rw [inHtml_of_none hw, helements, List.append_nil]
    exact h.write indentation hw

theorem writeAll (indentation : Indentation) (h : Marked l elements) {steps : List AnchoredStep}
    (hanchors : ∀ step ∈ steps, step.1.isSome = true → (html? step.2).isSome = true) :
    Marked ((Layout.generator indentation).writeAll (steps.map AnchoredStep.inHtml) l)
      (elements ++ steps.flatMap stepElements) := by
  induction steps generalizing l elements with
  | nil => rwa [List.flatMap_nil, List.append_nil]
  | cons step rest ih =>
    obtain ⟨hstep, hrest⟩ := List.forall_mem_cons.mp hanchors
    rw [List.map_cons, Generator.writeAll_cons, List.flatMap_cons, ← List.append_assoc]
    exact ih (h.writeStep indentation step hstep) hrest

end Marked

/-- A document is the markup of a page with the elements of the steps on it. -/
theorem exists_nodes_renderHtml (indentation : Indentation) (selection : Selection)
    (entity : Entity) :
    ∃ nodes, readNodes (renderHtml indentation selection entity) = some (page nodes) ∧
      nodes.filter Node.isElement = (anchored selection.limit entity).flatMap stepElements := by
  have hstart : Marked {} [] := ⟨[], .nil, rfl, rfl⟩
  obtain ⟨nodes, hn, hprint, helements⟩ := hstart.writeAll indentation
    fun step hm => isSome_html?_of_mem_anchored selection.limit entity hm
  have hopen : "<pre><code class=\"language-cpp\">".toList =
      Node.printOpening "pre" [] ++ Node.printOpening "code" [("class", "language-cpp")] := by
    decide +kernel
  have hclose : "</code></pre>\n".toList =
      Node.printClosing "code" ++ (Node.printClosing "pre" ++ Node.printAll [.char '\n']) := by
    decide +kernel
  have hpage : renderHtml indentation selection entity =
      String.ofList (Node.printAll (page nodes)) := by
    refine String.toList_injective ?_
    rw [renderHtml_eq_anchored, String.toList_append, String.toList_append, hopen, hclose, hprint,
      String.toList_ofList]
    simp only [page, Node.printAll, Node.print, List.append_assoc, List.append_nil]
  refine ⟨nodes, ?_, helements⟩
  rw [hpage, (wellNamed_page hn).readNodes_printAll]

/-- The elements among the nodes of a document, beside the steps that were shown while it was
written and the decisions that were taken. -/
structure ElementsStand (nodes : List Node) (writes : List Write)
    (decisions : List (Entity × Detail)) : Prop where
  -- Apart from the anchors there is one for each classified token.
  tokens : nodes.filter Node.isToken = writes.filterMap tokenNode?
  -- There is an anchor for each entity but a file that was not omitted.
  anchors : nodes.filter Node.isAnchor =
    (decisions.filter fun decision => decision.2.isWritten && decision.1.occupiesLine).map
      fun decision => anchorNode decision.1.id

theorem filter_isToken_stepElements (step : AnchoredStep) :
    (stepElements step).filter Node.isToken = (tokenNode? step.2).toList := by
  obtain ⟨anchor, w⟩ := step
  have hanchor : (anchor.map anchorNode).toList.filter Node.isToken = [] := by
    cases anchor <;> rfl
  have htoken : (tokenNode? w).toList.filter Node.isToken = (tokenNode? w).toList := by
    cases w with
    | token kind text => cases kind <;> rfl
    | reference targets name => cases targets <;> rfl
    | space | lineBreak | indent | unindent => rfl
  rw [stepElements, List.filter_append, hanchor, htoken, List.nil_append]

theorem filter_isAnchor_stepElements (step : AnchoredStep) :
    (stepElements step).filter Node.isAnchor = (step.1.map anchorNode).toList := by
  obtain ⟨anchor, w⟩ := step
  have hanchor : (anchor.map anchorNode).toList.filter Node.isAnchor =
      (anchor.map anchorNode).toList := by cases anchor <;> rfl
  have htoken : (tokenNode? w).toList.filter Node.isAnchor = [] := by
    cases w with
    | token kind text => cases kind <;> rfl
    | reference targets name => cases targets <;> rfl
    | space | lineBreak | indent | unindent => rfl
  rw [stepElements, List.filter_append, hanchor, htoken, List.append_nil]

/-- The tags and attributes of a step do not depend on its texts and identities. -/
theorem frames_stepElements (step : AnchoredStep) :
    (stepElements step).filterMap Node.frame? =
      (stepElements step.blanked).filterMap Node.frame? := by
  obtain ⟨anchor, w⟩ := step
  cases w with
  | token kind text => cases anchor <;> cases kind <;> rfl
  | reference targets name => cases anchor <;> cases targets <;> rfl
  | space | lineBreak | indent | unindent => cases anchor <;> rfl

section

variable {nodes : List Node} {steps : List AnchoredStep}

/-- The elements of some kind are found among all elements. -/
theorem filter_of_elements (h : nodes.filter Node.isElement = steps.flatMap stepElements)
    {p : Node → Bool} (hp : ∀ node, p node = true → node.isElement = true)
    {f : AnchoredStep → List Node} (hf : ∀ step, (stepElements step).filter p = f step) :
    nodes.filter p = steps.flatMap f := by
  have hsub : nodes.filter p = (nodes.filter Node.isElement).filter p := by
    rw [List.filter_filter]
    refine List.filter_congr fun node _ => ?_
    cases hn : p node with
    | true => simp [hp node hn]
    | false => simp
  rw [hsub, h, List.filter_flatMap]
  exact List.flatMap_congr fun step _ => hf step

theorem frames_of_elements (h : nodes.filter Node.isElement = steps.flatMap stepElements) :
    nodes.filterMap Node.frame? =
      ((steps.map AnchoredStep.blanked).flatMap stepElements).filterMap Node.frame? := by
  have hsub : nodes.filterMap Node.frame? =
      (nodes.filter Node.isElement).filterMap Node.frame? := by
    rw [List.filterMap_filter]
    refine List.filterMap_congr fun node _ => ?_
    cases node <;> rfl
  rw [hsub, h, List.filterMap_flatMap, List.filterMap_flatMap, List.flatMap_map]
  exact List.flatMap_congr fun step _ => frames_stepElements step

end

/-- The HTML of a tree, with any selection and indentation, is read without error as one page. Its
elements are those of the classified tokens that were written and the anchors of the entities that
were not omitted, in their order. The tags, the attributes and the classes are the same as if all
texts and identities were left out. -/
theorem elementsStand_renderHtml (indentation : Indentation) (selection : Selection)
    (entity : Entity) :
    ∃ nodes, readNodes (renderHtml indentation selection entity) = some (page nodes) ∧
      ElementsStand nodes (writesTaken (selection.narrow (Markup.generator indentation)) entity {})
        (htmlDecisions indentation selection entity) ∧
      nodes.filterMap Node.frame? =
        (((anchored selection.limit entity).map AnchoredStep.blanked).flatMap
          stepElements).filterMap Node.frame? := by
  obtain ⟨nodes, hread, helements⟩ := exists_nodes_renderHtml indentation selection entity
  have htaken := (selection.narrow_decides (Markup.generator_decides indentation)).writesTaken_eq
    entity {}
  -- All elements are known in their order, so those of one kind are found among them.
  refine ⟨nodes, hread, ⟨?_, ?_⟩, frames_of_elements helements⟩
  · have htoken (node : Node) (h : node.isToken = true) : node.isElement = true :=
      (Bool.and_eq_true_iff.mp h).1
    rw [htaken, ← map_snd_anchored, List.filterMap_map,
      filter_of_elements helements htoken filter_isToken_stepElements]
    exact (List.filterMap_eq_flatMap_toList _ _).symm
  · have hanchors : ((anchored selection.limit entity).flatMap fun step =>
        (step.1.map anchorNode).toList) =
          ((anchored selection.limit entity).filterMap Prod.fst).map anchorNode := by
      rw [List.map_filterMap, List.filterMap_eq_flatMap_toList]
    have hvisit (shown : Entity) :
        (if (selection.limit shown).isWritten then (anchor? shown).toList else []) =
          if (selection.limit shown).isWritten && shown.occupiesLine then [shown.id] else [] := by
      unfold anchor?
      cases (selection.limit shown).isWritten <;> cases shown.occupiesLine <;> rfl
    rw [filter_of_elements helements (fun _ => Node.isElement_of_isAnchor)
      filter_isAnchor_stepElements, hanchors, anchors_anchored, htmlDecisions_eq,
      List.flatMap_congr fun shown _ => hvisit shown, flatMap_ite, List.filter_map, List.map_map,
      List.map_map]
    rfl

-- A name that looks like markup is only text.
example :
    renderHtml .tab {} (Entity.ofKind (.enumerator none) "\"><b>&lt;") =
      "<pre><code class=\"language-cpp\"><a id=\"&quot;&gt;&lt;b&gt;&amp;lt;\"></a>" ++
      "<span class=\"identifier\">&quot;&gt;&lt;b&gt;&amp;lt;</span>" ++
      "<span class=\"punctuation\">,</span>\n</code></pre>\n" := by
  decide +kernel

end HeaderSynopsis.Output
