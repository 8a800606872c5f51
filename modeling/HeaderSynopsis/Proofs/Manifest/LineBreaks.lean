import HeaderSynopsis.Proofs.Manifest.Identities
import HeaderSynopsis.Proofs.Writing.KeptLines

namespace HeaderSynopsis.Manifest

open Declaration Text Writing Generation

theorem feed_notMem_of_identifierFault? {cs : List Char} (h : identifierFault? cs = none) :
    '\n' ∉ cs := by
  cases cs with
  | nil => exact List.not_mem_nil
  | cons c rest =>
    simp only [identifierFault?, ite_eq_iff] at h
    obtain ⟨hstart, hrest⟩ : isNameStart c = true ∧ rest.all isNameChar = true := by
      simpa using h
    intro hm
    rcases List.mem_cons.mp hm with rfl | hm
    · exact absurd hstart (by decide)
    · exact absurd (List.all_eq_true.mp hrest _ hm) (by decide)

theorem feed_notMem_of_withoutTilde {cs : List Char} (h : '\n' ∉ withoutTilde cs) : '\n' ∉ cs := by
  unfold withoutTilde at h
  split at h
  · exact fun hm => (List.mem_cons.mp hm).elim (by decide) h
  · exact h

/-- A name that passes the check is one line, unless it is that of an operator. -/
theorem oneLine_of_nameFault? {name : String} (h : nameFault? name = none)
    (ho : (operatorSymbol? name.toList).isSome = false) : OneLine name := by
  have hidentifier : identifierFault? (withoutTilde name.toList) = none := by
    unfold nameFault? at h
    split at h
    · contradiction
    · simpa [ho] using h
  apply feed_notMem_of_withoutTilde
  exact feed_notMem_of_identifierFault? hidentifier

def uncheckedTexts (entity : Entity) : List String :=
  (if !entity.kind.isAnonymous && (operatorSymbol? entity.name.toList).isSome then [entity.name]
    else []) ++ (entity.template.map TemplateHead.texts).getD [] ++ entity.kind.texts

/-- An entity keeps to its lines if its name was checked or is never written. -/
theorem keepsLine_of_checked {entity : Entity}
    (hname : entity.kind.isAnonymous = true ∨ nameFault? entity.name = none ∨ entity.name = "")
    (hu : ∀ t ∈ uncheckedTexts entity, OneLine t) : ∀ w ∈ ownWrites entity, w.KeepsLine := by
  simp only [uncheckedTexts, List.forall_mem_append] at hu
  obtain ⟨⟨hoperator, htemplate⟩, hkind⟩ := hu
  cases ha : entity.kind.isAnonymous with
  | true =>
    rw [← ownWrites_of_isAnonymous ha ""]
    apply keepsLine_ownWrites
    rw [Entity.texts, List.forall_mem_cons, List.forall_mem_append]
    have hempty : OneLine "" := by decide
    exact ⟨hempty, htemplate, hkind⟩
  | false =>
    have hline : OneLine entity.name := by
      rcases hname with hanonymous | hnone | hempty
      · exact absurd (ha.symm.trans hanonymous) (by decide)
      · cases ho : (operatorSymbol? entity.name.toList).isSome with
        | true => exact hoperator entity.name (by simp [ha, ho])
        | false => exact oneLine_of_nameFault? hnone ho
      · rw [hempty]
        decide
    apply keepsLine_ownWrites
    rw [Entity.texts, List.forall_mem_cons, List.forall_mem_append]
    exact ⟨hline, htemplate, hkind⟩

namespace Loaded

/-- In a manifest that loads, each name is checked, is empty, or belongs to a kind without names. -/
theorem name_checked {source : Source} {manifest : Loaded} (h : ofSource source = .ok manifest) :
    ∀ e ∈ manifest.file.walk,
      e.kind.isAnonymous = true ∨ nameFault? e.name = none ∨ e.name = "" := by
  obtain ⟨file, hfile, heq⟩ := exists_wellFormed_of_ofSource h
  rw [heq, file.walk_entity_eq, List.forall_mem_cons]
  refine ⟨Or.inl rfl, List.forall_mem_map.mpr fun p hp => ?_⟩
  have hname := (hfile.allowed p hp).name
  rw [Placed.entity, Definition.entity_eq]
  dsimp only
  cases ha : p.definition.kind.isAnonymous with
  | true => exact Or.inl rfl
  | false => exact Or.inr ((hname ha).imp_right And.left)

/-- While the file of a manifest that loads is written, line feeds come from steps that break the
line, and from texts that were not checked when the manifest was loaded. -/
theorem keepsLine_of_mem_writesTaken {source : Source} {manifest : Loaded}
    (h : ofSource source = .ok manifest)
    (hu : ∀ e ∈ manifest.file.walk, ∀ t ∈ uncheckedTexts e, OneLine t) {σ : Type}
    (g : Generator σ) (s : σ) : ∀ w ∈ writesTaken g manifest.file s, w.KeepsLine :=
  forall_mem_writesTaken
    (fun e he => keepsLine_of_checked (name_checked h e he) (hu e he)) g s

-- A file with a variable of some type that is spelled with keywords.

def widestStart : String :=
  "[file]\nname = \"max.hpp\"\n[[file.entities]]\nkind = \"variable\"\nname = \"max\"\n" ++
    "[file.entities.type]\n"

def widestFields (spelling : String) : Data.Fields :=
  [("file", .table [("name", .text "max.hpp"), ("entities", .list [.table
    [("kind", .text "variable"), ("name", .text "max"),
      ("type", .table [("builtin", .text spelling)])]])])]

def widestDocument (spelling : String) : Document where
  options := {}
  file :=
    ⟨"max.hpp", none, [⟨"max", none, .variableDecl (.builtin spelling) none .automatic false,
      none, none, none, []⟩]⟩

def widest (spelling : String) : Loaded where
  options := {}
  file :=
    { Entity.ofKind .file "max.hpp" with
      children :=
        [Entity.ofKind (.variableDecl (.builtin spelling) none .automatic false) "max"] }
  warnings := []

def reader : Generator Unit where
  enter _ _ s := (some .definition, s)
  leave _ s := s
  write _ s := s

theorem keepsLine_of_mem_writesTaken_widest :
    ofSource ⟨widestStart ++ "builtin = \"unsigned long\"\n", "max.toml"⟩ =
        .ok (widest "unsigned long") ∧
      ∀ w ∈ writesTaken reader (widest "unsigned long").file (), w.KeepsLine := by
  have hread : Toml.read (widestStart ++ "builtin = \"unsigned long\"\n") =
      some (widestFields "unsigned long") := by
    decide +kernel
  have hload : ofSource ⟨widestStart ++ "builtin = \"unsigned long\"\n", "max.toml"⟩ =
      .ok (widest "unsigned long") := by
    refine ofSource_eq_ok_iff.mpr ⟨widestDocument "unsigned long", ?_, rfl⟩
    rw [hread]
    rfl
  exact ⟨hload, keepsLine_of_mem_writesTaken hload (by decide) reader ()⟩

/-- A spelling with a line feed is written as one token. -/
theorem not_keepsLine_of_widest :
    ∃ source manifest, ofSource source = .ok manifest ∧
      ¬∀ w ∈ writesTaken reader manifest.file (), w.KeepsLine := by
  have hread : Toml.read (widestStart ++ "builtin = \"unsigned\\nlong\"\n") =
      some (widestFields "unsigned\nlong") := by
    decide +kernel
  have hload : ofSource ⟨widestStart ++ "builtin = \"unsigned\\nlong\"\n", "max.toml"⟩ =
      .ok (widest "unsigned\nlong") := by
    refine ofSource_eq_ok_iff.mpr ⟨widestDocument "unsigned\nlong", ?_, rfl⟩
    rw [hread]
    rfl
  have htoken : .keyword "unsigned\nlong" ∈
      writesTaken reader (widest "unsigned\nlong").file () := by
    decide
  exact ⟨_, _, hload, fun h => absurd (h _ htoken) (by decide)⟩

end Loaded

end HeaderSynopsis.Manifest
