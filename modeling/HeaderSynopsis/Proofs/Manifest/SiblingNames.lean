import HeaderSynopsis.Proofs.Manifest.DefinitionNames
import HeaderSynopsis.Proofs.Manifest.FirstFault
import Mathlib.Data.List.Duplicate

namespace HeaderSynopsis.Manifest

open Declaration

namespace Definition

/-- At least two of several definitions have the same name. -/
def ShareName (ds : List Definition) : Prop :=
  ∃ name ≠ "", List.Duplicate name (ds.map Definition.name)

end Definition

namespace FileDefinition

def siblings (file : FileDefinition) : List (List Definition) :=
  file.entities :: file.placed.map (·.definition.children)

/-- Every definition follows the rules, but for that about identities, of which none is chosen, and
what is of a kind without names has none. -/
structure PlainlyNamed (file : FileDefinition) : Prop where
  allowed : ∀ p ∈ file.placed, p.Allowed
  noId : ∀ p ∈ file.placed, p.definition.id = none
  noName : ∀ p ∈ file.placed, p.definition.kind.isAnonymous = true → p.definition.name = ""

instance (file : FileDefinition) : Decidable file.PlainlyNamed :=
  decidable_of_iff ((∀ p ∈ file.placed, p.Allowed) ∧ (∀ p ∈ file.placed, p.definition.id = none) ∧
      ∀ p ∈ file.placed, p.definition.kind.isAnonymous = true → p.definition.name = "")
    ⟨fun ⟨hallowed, hid, hname⟩ => ⟨hallowed, hid, hname⟩, fun h => ⟨h.allowed, h.noId, h.noName⟩⟩

end FileDefinition

namespace Definition

-- What stands for siblings.

def segments (index : Nat) : List Definition → List String
  | [] => []
  | d :: rest => d.segment index :: segments (index + 1) rest

theorem mem_segments_iff {name : String} (h : nameFault? name = none) {ds : List Definition}
    {index : Nat} : name ∈ segments index ds ↔ name ∈ ds.map Definition.name := by
  induction ds generalizing index with
  | nil => rfl
  | cons d rest ih =>
    have hown : name = d.segment index ↔ name = d.name := by
      by_cases hname : d.name = ""
      · have hne : name ≠ "" := by
          rintro rfl
          exact absurd h (by decide)
        rw [segment_of_unnamed hname, hname]
        exact iff_of_false (ne_index_of_accepted h index) hne
      · rw [segment_of_named hname]
    rw [segments, List.map_cons, List.mem_cons, List.mem_cons, ih, hown]

/-- An index is none of the later ones. -/
theorem index_notMem_segments {earlier index : Nat} (hlt : earlier < index) {ds : List Definition}
    (hds : ∀ d ∈ ds, d.WellNamed) : "@" ++ toString earlier ∉ segments index ds := by
  induction ds generalizing index with
  | nil => exact List.not_mem_nil
  | cons d rest ih =>
    rw [List.forall_mem_cons] at hds
    rw [segments, List.mem_cons, not_or]
    refine ⟨?_, ih (Nat.lt_succ_of_lt hlt) hds.2⟩
    by_cases hname : d.name = ""
    · rw [segment_of_unnamed hname]
      intro h
      have htexts := congrArg String.toList h
      rw [String.toList_append, String.toList_append] at htexts
      have hdigits : Nat.toDigits 10 earlier = Nat.toDigits 10 index := by
        rw [← Nat.toList_repr, ← Nat.toList_repr]
        exact List.append_cancel_left htexts
      have hsame : earlier = index := by
        calc earlier
            = Nat.ofDigitChars 10 (Nat.toDigits 10 earlier) 0 :=
              Nat.ofDigitChars_ten_toDigits.symm
          _ = Nat.ofDigitChars 10 (Nat.toDigits 10 index) 0 := by rw [hdigits]
          _ = index := Nat.ofDigitChars_ten_toDigits
      exact Nat.ne_of_lt hlt hsame
    · rw [segment_of_named hname]
      exact (ne_index_of_accepted (hds.1.resolve_left hname) earlier).symm

/-- What stands for a definition stands for a sibling behind it only if it is the name of both. -/
theorem segment_mem_segments_iff {d : Definition} {rest : List Definition} {index : Nat}
    (hds : ∀ c ∈ d :: rest, c.WellNamed) :
    d.segment index ∈ segments (index + 1) rest ↔ d.name ≠ "" ∧ d.name ∈ rest.map name := by
  rw [List.forall_mem_cons] at hds
  by_cases hname : d.name = ""
  · rw [segment_of_unnamed hname]
    exact iff_of_false (index_notMem_segments (Nat.lt_succ_self index) hds.2) (fun h => h.1 hname)
  · rw [segment_of_named hname, mem_segments_iff (hds.1.resolve_left hname), and_iff_right hname]

theorem shareName_cons {d : Definition} {rest : List Definition} :
    ShareName (d :: rest) ↔ d.name ≠ "" ∧ d.name ∈ rest.map name ∨ ShareName rest := by
  simp only [ShareName, List.map_cons, List.duplicate_cons_iff]
  constructor
  · rintro ⟨name, hne, ⟨rfl, hmem⟩ | hrest⟩
    · exact .inl ⟨hne, hmem⟩
    · exact .inr ⟨name, hne, hrest⟩
  · rintro (⟨hne, hmem⟩ | ⟨name, hne, hrest⟩)
    · exact ⟨d.name, hne, .inl ⟨rfl, hmem⟩⟩
    · exact ⟨name, hne, .inr hrest⟩

-- Qualified names that are there once.

theorem exists_eq_cons_of_mem_qualifiedNames {d : Definition} {index : Nat} {s : List String}
    (h : s ∈ d.qualifiedNames index) : ∃ inner, s = d.segment index :: inner := by
  rw [qualifiedNames_eq, List.mem_cons, List.mem_map] at h
  rcases h with rfl | ⟨inner, -, rfl⟩
  · exact ⟨[], rfl⟩
  · exact ⟨inner, rfl⟩

theorem exists_eq_cons_of_mem_qualifiedNamesAll {ds : List Definition} {index : Nat}
    {s : List String} (h : s ∈ qualifiedNamesAll index ds) :
    ∃ a ∈ segments index ds, ∃ inner, s = a :: inner := by
  induction ds generalizing index with
  | nil => cases h
  | cons d rest ih =>
    rw [qualifiedNamesAll, List.mem_append] at h
    rw [segments]
    rcases h with h | h
    · exact ⟨_, List.mem_cons_self, exists_eq_cons_of_mem_qualifiedNames h⟩
    · obtain ⟨a, ha, hs⟩ := ih h
      exact ⟨a, List.mem_cons_of_mem _ ha, hs⟩

theorem singleton_mem_qualifiedNames (d : Definition) (index : Nat) :
    [d.segment index] ∈ d.qualifiedNames index := by
  rw [qualifiedNames_eq]
  exact List.mem_cons_self

theorem singleton_mem_qualifiedNamesAll {ds : List Definition} {index : Nat} {a : String}
    (h : a ∈ segments index ds) : [a] ∈ qualifiedNamesAll index ds := by
  induction ds generalizing index with
  | nil => cases h
  | cons d rest ih =>
    rw [segments, List.mem_cons] at h
    rw [qualifiedNamesAll, List.mem_append]
    rcases h with rfl | h
    · exact .inl (singleton_mem_qualifiedNames d index)
    · exact .inr (ih h)

/-- The qualified names of a definition and all below it are others than those of its siblings if
the segments are. -/
theorem disjoint_qualifiedNames_iff {d : Definition} {rest : List Definition} {index next : Nat} :
    (d.qualifiedNames index).Disjoint (qualifiedNamesAll next rest) ↔
      d.segment index ∉ segments next rest := by
  rw [List.disjoint_left]
  constructor
  · intro h hmem
    exact h (singleton_mem_qualifiedNames d index) (singleton_mem_qualifiedNamesAll hmem)
  · intro h s hs hrest
    obtain ⟨inner, rfl⟩ := exists_eq_cons_of_mem_qualifiedNames hs
    obtain ⟨a, ha, other, hcons⟩ := exists_eq_cons_of_mem_qualifiedNamesAll hrest
    obtain ⟨rfl, -⟩ := List.cons.inj hcons
    exact h ha

theorem exists_index_of_mem {ds : List Definition} {d : Definition} (h : d ∈ ds) (place : Place)
    (index : Nat) : ∃ i, ⟨place, i, d⟩ ∈ placedAll place index ds := by
  induction ds generalizing index with
  | nil => cases h
  | cons c rest ih =>
    rw [placedAll]
    rcases List.mem_cons.mp h with rfl | h
    · exact ⟨index, List.mem_append_left _ (placed_eq place index d ▸ List.mem_cons_self)⟩
    · obtain ⟨i, hi⟩ := ih h (index + 1)
      exact ⟨i, List.mem_append_right _ hi⟩

theorem nodup_qualifiedNamesAll_iff {ds : List Definition}
    (hds : ∀ d ∈ ds, ∀ place index, (∀ p ∈ d.placed place index, p.definition.WellNamed) →
      ((d.qualifiedNames index).Nodup ↔
        ∀ p ∈ d.placed place index, ¬ShareName p.definition.children))
    (place : Place) (index : Nat)
    (hnames : ∀ p ∈ placedAll place index ds, p.definition.WellNamed) :
    (qualifiedNamesAll index ds).Nodup ↔
      ¬ShareName ds ∧ ∀ p ∈ placedAll place index ds, ¬ShareName p.definition.children := by
  induction ds generalizing index with
  | nil => simp [qualifiedNamesAll, ShareName, placedAll]
  | cons d rest ih =>
    have hsiblings : ∀ c ∈ d :: rest, c.WellNamed := by
      intro c hc
      obtain ⟨i, hi⟩ := exists_index_of_mem hc place index
      exact hnames _ hi
    rw [List.forall_mem_cons] at hds
    rw [placedAll, List.forall_mem_append] at hnames
    rw [qualifiedNamesAll, List.nodup_append', disjoint_qualifiedNames_iff,
      segment_mem_segments_iff hsiblings, shareName_cons, placedAll, List.forall_mem_append,
      hds.1 place index hnames.1, ih hds.2 (index + 1) hnames.2]
    tauto

/-- The qualified names of a definition and all below it differ from each other unless siblings in
it share a name. -/
theorem nodup_qualifiedNames_iff (d : Definition) (place : Place) (index : Nat)
    (hnames : ∀ p ∈ d.placed place index, p.definition.WellNamed) :
    (d.qualifiedNames index).Nodup ↔
      ∀ p ∈ d.placed place index, ¬ShareName p.definition.children := by
  induction d using nesting_induction generalizing place index with
  | node d ih =>
    rw [placed_eq, List.forall_mem_cons] at hnames
    have hinside := nodup_qualifiedNamesAll_iff ih (d.inside place index) 0 hnames.2
    have hown : [d.segment index] ∉
        (qualifiedNamesAll 0 d.children).map (d.segment index :: ·) := by
      rw [List.mem_map]
      rintro ⟨inner, hinner, h⟩
      obtain rfl := (List.cons.inj h).2
      obtain ⟨a, -, rest, hcons⟩ := exists_eq_cons_of_mem_qualifiedNamesAll hinner
      cases hcons
    rw [qualifiedNames_eq, placed_eq, List.nodup_cons, and_iff_right hown,
      List.nodup_map_iff List.cons_injective, hinside, List.forall_mem_cons]

end Definition

/-- A definition that follows the rules is well named if its kind is not one without names or it
has none. -/
theorem Placed.Allowed.wellNamed {p : Placed} (h : p.Allowed)
    (hname : p.definition.kind.isAnonymous = true → p.definition.name = "") :
    p.definition.WellNamed := by
  cases hkind : p.definition.kind.isAnonymous with
  | true => exact .inl (hname hkind)
  | false =>
    rcases h.name hkind with h | ⟨h, -⟩
    · exact .inr h
    · exact .inl h

/-- A definition that follows the rules can only break that about identities. -/
theorem Placed.Allowed.not_breaks {p : Placed} (h : p.Allowed) {seen : List Id} {rule : Rule}
    (hrule : rule ≠ .identity) : ¬p.Breaks seen rule := by
  have hproblem : p.definition.problem? ⟨"", ""⟩ p.place [] p.id = none :=
    Definition.problem?_eq_none.mpr ⟨h, List.not_mem_nil⟩
  have hsound : ¬p.Breaks [] rule := Enclosed.problem?_eq_none_iff (e := ⟨[], p⟩).mp hproblem rule
  cases rule with
  | identity => exact absurd rfl hrule
  | placement => exact hsound
  | naming => exact hsound
  | children => exact hsound
  | heads => exact hsound

namespace FileDefinition

variable {file : FileDefinition}

theorem PlainlyNamed.wellNamed (h : file.PlainlyNamed) :
    ∀ p ∈ file.placed, p.definition.WellNamed :=
  fun p hp => (h.allowed p hp).wellNamed (h.noName p hp)

theorem PlainlyNamed.nodup_qualifiedNames_iff (h : file.PlainlyNamed) :
    file.qualifiedNames.Nodup ↔ ∀ ds ∈ file.siblings, ¬Definition.ShareName ds := by
  rw [siblings, List.forall_mem_cons, List.forall_mem_map]
  exact Definition.nodup_qualifiedNamesAll_iff (fun d _ => d.nodup_qualifiedNames_iff) .file 0
    h.wellNamed

/-- Different qualified names have the same text only if one imitates the other. -/
theorem PlainlyNamed.pathText_eq_iff (h : file.PlainlyNamed) {s t : List String}
    (hs : s ∈ file.qualifiedNames) (ht : t ∈ file.qualifiedNames) (hne : s ≠ t) :
    pathText s = pathText t ↔ Imitates s t ∨ Imitates t s := by
  rw [Manifest.pathText_eq_iff (isSegment_of_mem h.wellNamed hs) (isSegment_of_mem h.wellNamed ht),
    or_iff_right hne]

/-- An identity is there twice if siblings share a name or a qualified name imitates another. -/
theorem PlainlyNamed.not_nodup_id_iff (h : file.PlainlyNamed) :
    ¬(file.placed.map Placed.id).Nodup ↔
      (∃ ds ∈ file.siblings, Definition.ShareName ds) ∨
        ∃ s ∈ file.qualifiedNames, ∃ t ∈ file.qualifiedNames, Imitates t s := by
  have hshare : (∃ ds ∈ file.siblings, Definition.ShareName ds) ↔ ¬file.qualifiedNames.Nodup := by
    rw [h.nodup_qualifiedNames_iff]
    simp
  rw [map_id_placed h.noId, hshare]
  constructor
  · intro htwice
    by_cases hnodup : file.qualifiedNames.Nodup
    · -- Two different qualified names have the same text.
      rw [List.nodup_map_iff_inj_on hnodup] at htwice
      push Not at htwice
      obtain ⟨s, hs, t, ht, hid, hne⟩ := htwice
      rcases (h.pathText_eq_iff hs ht hne).mp (Id.mk.inj hid) with hst | hts
      · exact .inr ⟨t, ht, s, hs, hst⟩
      · exact .inr ⟨s, hs, t, ht, hts⟩
    · exact .inl hnodup
  · rintro (htwice | ⟨s, hs, t, ht, himitates⟩)
    · exact fun hnodup => htwice hnodup.of_map
    · intro hnodup
      have htext := congrArg Id.mk himitates.pathText_eq
      exact himitates.ne (List.inj_on_of_nodup_map hnodup ht hs htext)

/-- The only problem of a file in which all definitions follow the rules is an identity that is
there twice. -/
theorem eq_duplicateId_of_lower {source : Source} {problem : Problem}
    (hallowed : ∀ p ∈ file.placed, p.Allowed) (h : file.lower source = .error problem) :
    ∃ id first second, problem = .duplicateId id first second := by
  obtain ⟨before, e, rule, hfault, hcomplaint⟩ := lower_eq_error_iff.mp h
  have hmem : e.placed ∈ file.placed := by
    rw [← file.map_placed_enclosed]
    exact List.mem_map_of_mem (hfault.order.subset (List.mem_append_right _ List.mem_cons_self))
  have hrule : rule = .identity := by
    by_contra hrule
    exact (hallowed e.placed hmem).not_breaks hrule hfault.broken
  subst hrule
  cases hcomplaint
  exact ⟨_, _, _, rfl⟩

theorem lower_eq_duplicateId_iff (source : Source) (hallowed : ∀ p ∈ file.placed, p.Allowed) :
    (∃ id first second, file.lower source = .error (.duplicateId id first second)) ↔
      ¬(file.placed.map Placed.id).Nodup := by
  constructor
  · rintro ⟨id, first, second, herror⟩ hnodup
    have hok : file.lower source = .ok (file.entity, file.placed.map Placed.id) :=
      lower_eq_ok.mpr ⟨file.accepted_iff_wellFormed.mpr ⟨hallowed, hnodup⟩, rfl⟩
    rw [hok] at herror
    cases herror
  · intro h
    cases hlower : file.lower source with
    | error problem =>
      obtain ⟨id, first, second, rfl⟩ := eq_duplicateId_of_lower hallowed hlower
      exact ⟨id, first, second, rfl⟩
    | ok result =>
      have hfile := file.accepted_iff_wellFormed.mp (lower_eq_ok.mp hlower).1
      exact absurd hfile.nodup h

end FileDefinition

namespace Loaded

/-- A manifest without any other fault, in which no identity is chosen and what belongs to a kind
without names has none, has an identity twice exactly if siblings share a name or a qualified name
imitates another. The identities are the texts of the qualified names, and those of different
qualified names are equal in the latter case only, for which something with others inside has to
have the name of an operator. -/
theorem ofSource_eq_duplicateId_iff {source : Source} {document : Document}
    (hread : (Toml.read source.text).bind Document.ofFields = some document)
    (hkinds : ∀ word ∈ document.options.omittedKinds, word ∈ EntityKind.words)
    (hfile : document.file.PlainlyNamed) :
    ((∃ id first second, ofSource source = .error (.duplicateId id first second)) ↔
      (∃ ds ∈ document.file.siblings, Definition.ShareName ds) ∨
        ∃ s ∈ document.file.qualifiedNames, ∃ t ∈ document.file.qualifiedNames, Imitates t s) ∧
    document.file.placed.map Placed.id =
      document.file.qualifiedNames.map (fun s => ⟨pathText s⟩) ∧
    ∀ s ∈ document.file.qualifiedNames, ∀ t ∈ document.file.qualifiedNames,
      (s ≠ t → (pathText s = pathText t ↔ Imitates s t ∨ Imitates t s)) ∧
      (Imitates t s → ∃ p ∈ document.file.placed,
        p.definition.children ≠ [] ∧ IsOperatorName p.definition.name) := by
  have hofSource : ofSource source = ofDocument source document := by rw [ofSource, hread]
  have hknown := Options.unknownKind?_eq_none_iff.mpr hkinds
  refine ⟨?_, FileDefinition.map_id_placed hfile.noId, fun s hs t ht => ⟨?_, ?_⟩⟩
  · rw [← hfile.not_nodup_id_iff,
      ← FileDefinition.lower_eq_duplicateId_iff source hfile.allowed, hofSource]
    simp only [ofDocument_eq_error_iff hknown]
  · exact hfile.pathText_eq_iff hs ht
  · exact FileDefinition.exists_operator_of_imitates hs

-- A class that has the name of a conversion, and beside it a function that is called like its
-- member.

def imitationSource : Source where
  text :=
    "[file]\nname = \"text.hpp\"\n\n[[file.entities]]\nkind = \"class\"\n" ++
    "name = \"operator std\"\n" ++
    "children = [\n    \x7b kind = \"access\", access = \"public\" \x7d,\n" ++
    "    \x7b kind = \"function\", name = \"string\" \x7d,\n]\n\n" ++
    "[[file.entities]]\nkind = \"function\"\nname = \"operator std::string\"\n"
  filename := "synops.toml"

def imitationFields : Data.Fields :=
  [("file", .table [("name", .text "text.hpp"), ("entities", .list [
    .table [("kind", .text "class"), ("name", .text "operator std"), ("children", .list [
      .table [("kind", .text "access"), ("access", .text "public")],
      .table [("kind", .text "function"), ("name", .text "string")]])],
    .table [("kind", .text "function"), ("name", .text "operator std::string")]])])]

def imitationDocument : Document where
  options := {}
  file :=
    { name := "text.hpp"
      comment := none
      entities :=
        [⟨"operator std", none, .classType .classKey false [] false, none, none, none,
            [⟨"", none, .accessLabel .publicAccess, none, none, none, []⟩,
              ⟨"string", none, .functionDecl {}, none, none, none, []⟩]⟩,
          ⟨"operator std::string", none, .functionDecl {}, none, none, none, []⟩] }

theorem read_imitationSource : Toml.read imitationSource.text = some imitationFields := by
  decide +kernel

theorem ofFields_imitationFields : Document.ofFields imitationFields = some imitationDocument := rfl

theorem decode_imitationSource :
    (Toml.read imitationSource.text).bind Document.ofFields = some imitationDocument := by
  rw [read_imitationSource]
  exact ofFields_imitationFields

theorem plainlyNamed_imitationDocument : imitationDocument.file.PlainlyNamed := by
  decide

theorem qualifiedNames_imitationDocument :
    imitationDocument.file.qualifiedNames =
      [["operator std"], ["operator std", "@0"], ["operator std", "string"],
        ["operator std::string"]] := by
  decide

theorem imitates_string : Imitates ["operator std::string"] ["operator std", "string"] := by
  have hscope : IsOperatorName "operator std" := operatorSymbol?_isSome_iff.mp (by decide)
  have hname : "operator std::string" = "operator std" ++ "::" ++ "string" := by decide
  rw [hname]
  exact .here hscope (by decide) rfl

theorem ofSource_eq_duplicateId_iff_string :
    (Toml.read imitationSource.text).bind Document.ofFields = some imitationDocument ∧
      (∀ word ∈ imitationDocument.options.omittedKinds, word ∈ EntityKind.words) ∧
      imitationDocument.file.PlainlyNamed ∧
      ∃ id first second, ofSource imitationSource = .error (.duplicateId id first second) := by
  have hkinds : ∀ word ∈ imitationDocument.options.omittedKinds, word ∈ EntityKind.words := by
    decide
  have hmember : ["operator std", "string"] ∈ imitationDocument.file.qualifiedNames := by
    simp [qualifiedNames_imitationDocument]
  have hbeside : ["operator std::string"] ∈ imitationDocument.file.qualifiedNames := by
    simp [qualifiedNames_imitationDocument]
  have hreported :=
    (ofSource_eq_duplicateId_iff decode_imitationSource hkinds plainlyNamed_imitationDocument).1
  exact ⟨decode_imitationSource, hkinds, plainlyNamed_imitationDocument,
    hreported.mpr (.inr ⟨_, hmember, _, hbeside, imitates_string⟩)⟩

/-- No two siblings share a name, and still there is an identity twice. -/
theorem exists_duplicateId_without_shareName :
    ∃ source document, (Toml.read source.text).bind Document.ofFields = some document ∧
      (∀ word ∈ document.options.omittedKinds, word ∈ EntityKind.words) ∧
      document.file.PlainlyNamed ∧
      (∃ id first second, ofSource source = .error (.duplicateId id first second)) ∧
      ¬∃ ds ∈ document.file.siblings, Definition.ShareName ds := by
  have hfile := plainlyNamed_imitationDocument
  refine ⟨imitationSource, imitationDocument, decode_imitationSource, by decide, hfile, ?_, ?_⟩
  · have htwice : ¬(imitationDocument.file.placed.map Placed.id).Nodup := by decide
    obtain ⟨id, first, second, herror⟩ :=
      (FileDefinition.lower_eq_duplicateId_iff imitationSource hfile.allowed).mpr htwice
    refine ⟨id, first, second, ?_⟩
    rw [ofSource, decode_imitationSource]
    exact (ofDocument_eq_error_iff rfl).mpr herror
  · have hnodup : imitationDocument.file.qualifiedNames.Nodup := by
      rw [qualifiedNames_imitationDocument]
      decide
    simpa using hfile.nodup_qualifiedNames_iff.mp hnodup

end Loaded

end HeaderSynopsis.Manifest
