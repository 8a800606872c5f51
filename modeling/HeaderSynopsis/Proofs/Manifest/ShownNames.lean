import HeaderSynopsis.Coding.Expression
import HeaderSynopsis.Proofs.Declaration.Segments
import HeaderSynopsis.Proofs.Manifest.Identities
import HeaderSynopsis.Proofs.Manifest.Names

namespace HeaderSynopsis.Manifest

open Declaration

theorem colon_notMem_of_isIdentifier {word : String} (h : IsIdentifier word) :
    ':' ∉ word.toList := by
  obtain ⟨first, rest, hword, hstart, hrest⟩ := h
  rw [hword, List.mem_cons, not_or]
  constructor
  · rintro rfl
    rw [← isNameStart_iff] at hstart
    exact absurd hstart (by decide)
  · intro hm
    have hcolon := isNameChar_iff.mpr (hrest ':' hm)
    exact absurd hcolon (by decide)

/-- Of the names that are accepted, only those of operators can have a colon in them. -/
theorem isOperatorName_of_colon_mem {name : String} (h : nameFault? name = none)
    (hc : ':' ∈ name.toList) : IsOperatorName name := by
  obtain ⟨-, hoperator | hword | ⟨word, rfl, hword⟩⟩ := nameFault?_eq_none_iff.mp h
  · exact hoperator
  · exact absurd hc (colon_notMem_of_isIdentifier hword)
  · rw [String.toList_append, List.mem_append] at hc
    rcases hc with hc | hc
    · exact absurd hc (by decide)
    · exact absurd hc (colon_notMem_of_isIdentifier hword)

/-- A colon in a name that is accepted belongs to the name of an operator. -/
theorem operator_prefix_of_colon_mem {name : String} (h : nameFault? name = none)
    (hc : ':' ∈ name.toList) : "operator".toList <+: name.toList := by
  obtain ⟨symbol, rfl, -⟩ := isOperatorName_of_colon_mem h hc
  rw [String.toList_append]
  exact List.prefix_append _ _

/-- No name that is accepted begins with a colon. -/
theorem head?_ne_colon {name : String} (h : nameFault? name = none) :
    name.toList.head? ≠ some ':' := by
  intro hhead
  obtain ⟨rest, hrest⟩ := operator_prefix_of_colon_mem h (List.mem_of_mem_head? hhead)
  rw [← hrest] at hhead
  cases hhead

/-- The identity of what is inside another entity ends as the name of it does. -/
theorem unqualified_child_of_accepted (id : Id) {name : String} (h : nameFault? name = none) :
    (id.child name).unqualified = (Id.mk name).unqualified :=
  id.unqualified_child (head?_ne_colon h)

/-- The identity of an entity is made from its name, unless there is another. -/
theorem Placed.entity_id {p : Placed} (hid : p.definition.id = none)
    (hname : p.definition.name ≠ "") :
    p.entity.id = p.place.parent.child p.definition.name := by
  rw [Placed.entity, Definition.entity_eq]
  dsimp only
  rw [← Definition.assignedId_eq_expectedId, Definition.assignedId, hid]
  dsimp only
  rw [if_neg hname]

theorem Placed.entity_name (p : Placed) : p.entity.name = p.definition.name := by
  rw [Placed.entity, Definition.entity_eq]

namespace Loaded

/-- Inside whatever entity, a name that is accepted is the last segment of the identity that is made
from it exactly if there is no pair of colons in it. So a reference to the identity of an entity
shows the name of the entity, apart from operators with a qualified name in theirs, of which it
shows what follows the last pair of colons. -/
theorem shown_name_eq_iff (source : Source) (manifest : Loaded) (id : Id) (name : String) :
    (nameFault? name = none →
      (id.child name).unqualified = (Id.mk name).unqualified ∧
      ((id.child name).unqualified = name ↔ ¬[':', ':'] <:+: name.toList) ∧
      ([':', ':'] <:+: name.toList → "operator".toList <+: name.toList)) ∧
    (ofSource source = .ok manifest →
      ∃ document, (Toml.read source.text).bind Document.ofFields = some document ∧
        manifest.file.walk.tail = document.file.placed.map Placed.entity ∧
        ∀ p ∈ document.file.placed, p.definition.id = none → p.definition.name ≠ "" →
          p.definition.kind.isAnonymous = false →
          Reference.decode (.table [("ref", .text p.entity.id.text)]) =
            some (Reference.toTarget p.entity.id) ∧
          (Reference.toTarget p.entity.id).name = (Id.mk p.entity.name).unqualified ∧
          ((Reference.toTarget p.entity.id).name = p.entity.name ↔
            ¬[':', ':'] <:+: p.entity.name.toList)) := by
  constructor
  · intro h
    refine ⟨unqualified_child_of_accepted id h, ?_, ?_⟩
    · rw [unqualified_child_of_accepted id h]
      exact Id.unqualified_mk_eq_self_iff
    · intro hcolons
      apply operator_prefix_of_colon_mem h
      exact hcolons.subset List.mem_cons_self
  · intro hload
    obtain ⟨document, hread, hdocument⟩ := ofSource_eq_ok_iff.mp hload
    obtain ⟨-, tree, declared, hlower, rfl⟩ := ofDocument_eq_ok_iff.mp hdocument
    obtain ⟨haccepted, hresult⟩ := FileDefinition.lower_eq_ok.mp hlower
    obtain ⟨rfl, rfl⟩ := Prod.mk.inj hresult
    -- What was read and what was lowered are compared definition by definition.
    refine ⟨document, hread, ?_, ?_⟩
    · rw [document.file.walk_entity_eq, List.tail_cons]
    · intro p hp hid hname hkind
      have hchecked : nameFault? p.definition.name = none := by
        have hallowed := (document.file.accepted_iff_wellFormed.mp haccepted).allowed p hp
        rcases hallowed.name hkind with h | ⟨h, -⟩
        · exact h
        · exact absurd h hname
      have hshown : (Reference.toTarget p.entity.id).name = (Id.mk p.entity.name).unqualified := by
        change p.entity.id.unqualified = _
        rw [Placed.entity_id hid hname, Placed.entity_name,
          unqualified_child_of_accepted _ hchecked]
      refine ⟨rfl, hshown, ?_⟩
      rw [hshown]
      exact Id.unqualified_mk_eq_self_iff

-- A class that can be converted to a type in another namespace.

def conversionSource : Source where
  text :=
    "[file]\nname = \"text.hpp\"\n\n[[file.entities]]\nkind = \"class\"\nname = \"text\"\n" ++
    "children = [\n    \x7b kind = \"function\", name = \"size\" \x7d,\n" ++
    "    \x7b kind = \"function\", name = \"operator std::string\" \x7d,\n]\n"
  filename := "synops.toml"

def conversionFields : Data.Fields :=
  [("file", .table [("name", .text "text.hpp"), ("entities", .list [
    .table [("kind", .text "class"), ("name", .text "text"), ("children", .list [
      .table [("kind", .text "function"), ("name", .text "size")],
      .table [("kind", .text "function"), ("name", .text "operator std::string")]])]])])]

def conversionDocument : Document where
  options := {}
  file :=
    { name := "text.hpp"
      comment := none
      entities :=
        [⟨"text", none, .classType .classKey false [] false, none, none, none,
          [⟨"size", none, .functionDecl {}, none, none, none, []⟩,
            ⟨"operator std::string", none, .functionDecl {}, none, none, none, []⟩]⟩] }

def conversionSize : Entity :=
  { Entity.ofKind (.functionDecl {}) "size" with id := ⟨"text::size"⟩ }

def conversionString : Entity :=
  { Entity.ofKind (.functionDecl {}) "operator std::string" with
    id := ⟨"text::operator std::string"⟩ }

def conversion : Loaded where
  options := {}
  file :=
    { Entity.ofKind .file "text.hpp" with
      children :=
        [{ Entity.ofKind (.classType .classKey false [] false) "text" with
            children := [conversionSize, conversionString] }] }
  warnings := []

theorem read_conversionSource : Toml.read conversionSource.text = some conversionFields := by
  decide +kernel

theorem ofSource_conversionSource : ofSource conversionSource = .ok conversion := by
  rw [ofSource, read_conversionSource]
  rfl

def conversionPlaced : Placed where
  place := ⟨⟨"text"⟩, .classType .classKey false [] false, ["text"]⟩
  index := 0
  definition := ⟨"size", none, .functionDecl {}, none, none, none, []⟩

theorem shown_name_eq_iff_size :
    ofSource conversionSource = .ok conversion ∧
      nameFault? "operator std::string" = none ∧
      ((Id.mk "text").child "operator std::string").unqualified =
        (Id.mk "operator std::string").unqualified ∧
      (Reference.toTarget conversionSize.id).name = "size" := by
  have hname : nameFault? "operator std::string" = none := by decide
  have hload := ofSource_conversionSource
  obtain ⟨hsegment, hloaded⟩ :=
    shown_name_eq_iff conversionSource conversion ⟨"text"⟩ "operator std::string"
  obtain ⟨document, hread, -, hplaced⟩ := hloaded hload
  refine ⟨hload, hname, (hsegment hname).1, ?_⟩
  obtain rfl : conversionDocument = document := by
    rw [read_conversionSource] at hread
    exact Option.some.inj hread
  have hmem : conversionPlaced ∈ conversionDocument.file.placed :=
    List.mem_of_getElem? (i := 1) rfl
  obtain ⟨-, -, hsize⟩ := hplaced conversionPlaced hmem rfl (by decide) rfl
  exact hsize.mpr (by decide)

/-- A reference to a conversion shows the end of the type that it converts to. -/
theorem shown_name_ne_conversionString :
    ∃ source manifest, ofSource source = .ok manifest ∧
      ∃ e ∈ manifest.file.walk, nameFault? e.name = none ∧ e.id = (Id.mk "text").child e.name ∧
        (Reference.toTarget e.id).name = "string" ∧ e.name = "operator std::string" := by
  refine ⟨conversionSource, conversion, ofSource_conversionSource, conversionString, ?_, ?_⟩
  · exact List.mem_of_getElem? (i := 3) rfl
  · decide

end Loaded

end HeaderSynopsis.Manifest
