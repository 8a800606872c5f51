import HeaderSynopsis.Proofs.Output.Lexemes

namespace HeaderSynopsis.Output

inductive Node where
  | char (c : Char)
  | element (tag : String) (attributes : List (String × String)) (content : List Node)

inductive Mark where
  | char (c : Char)
  | opening (tag : String) (attributes : List (String × String))
  | closing (tag : String)

inductive Place where
  -- Outside of all tags.
  | text (run : List Char)
  -- In the name of a tag that opens an element.
  | opening (tag : List Char)
  -- In the name of a tag that closes one.
  | closing (tag : List Char)
  -- In the name of an attribute.
  | key (tag : String) (attributes : List (String × String)) (key : List Char)
  -- Behind the equals sign of an attribute.
  | equals (tag : String) (attributes : List (String × String)) (key : String)
  -- In the quotes around its value.
  | value (tag : String) (attributes : List (String × String)) (key : String) (value : List Char)
  -- Behind these quotes.
  | behind (tag : String) (attributes : List (String × String))

def isMarkupName (c : Char) : Bool := c.isAlphanum || c = '-'

def charMarks (run : List Char) : List Mark := (decodeEntities run).map .char

def marks : Place → List Char → Option (List Mark)
  | .text run, [] => some (charMarks run)
  | _, [] => none
  | .text run, c :: rest =>
      if c = '<' then (marks (.opening []) rest).map (charMarks run ++ ·)
      else marks (.text (run ++ [c])) rest
  | .opening tag, c :: rest =>
      if c = '>' then (marks (.text []) rest).map (.opening (String.ofList tag) [] :: ·)
      else if c = ' ' then marks (.key (String.ofList tag) [] []) rest
      else if c = '/' ∧ tag = [] then marks (.closing []) rest
      else if isMarkupName c then marks (.opening (tag ++ [c])) rest
      else none
  | .closing tag, c :: rest =>
      if c = '>' then (marks (.text []) rest).map (.closing (String.ofList tag) :: ·)
      else if isMarkupName c then marks (.closing (tag ++ [c])) rest
      else none
  | .key tag attributes key, c :: rest =>
      if c = '=' then marks (.equals tag attributes (String.ofList key)) rest
      else if isMarkupName c then marks (.key tag attributes (key ++ [c])) rest
      else none
  | .equals tag attributes key, c :: rest =>
      if c = '"' then marks (.value tag attributes key []) rest else none
  | .value tag attributes key value, c :: rest =>
      if c = '"' then
        marks (.behind tag (attributes ++ [(key, String.ofList (decodeEntities value))])) rest
      else marks (.value tag attributes key (value ++ [c])) rest
  | .behind tag attributes, c :: rest =>
      if c = '>' then (marks (.text []) rest).map (.opening tag attributes :: ·)
      else if c = ' ' then marks (.key tag attributes []) rest
      else none

structure OpenElement where
  tag : String
  attributes : List (String × String)
  before : List Node

/-- The forest of some marks, none if a closing tag does not end the innermost open element or an
element is never closed. The nodes are those of the innermost open element so far. -/
def nest : List OpenElement → List Node → List Mark → Option (List Node)
  | [], nodes, [] => some nodes
  | _ :: _, _, [] => none
  | stack, nodes, .char c :: rest => nest stack (nodes ++ [.char c]) rest
  | stack, nodes, .opening tag attributes :: rest => nest (⟨tag, attributes, nodes⟩ :: stack) [] rest
  | ⟨tag, attributes, before⟩ :: stack, nodes, .closing name :: rest =>
      if name = tag then nest stack (before ++ [.element tag attributes nodes]) rest else none
  | [], _, .closing _ :: _ => none

def readFrom (stack : List OpenElement) (nodes : List Node) (markup : List Char) :
    Option (List Node) :=
  (marks (.text []) markup).bind (nest stack nodes)

def readNodes (document : String) : Option (List Node) := readFrom [] [] document.toList

example : readNodes "<p id=\"a&lt;>\">x&amp;lt;<b></b></p>" =
    some [.element "p" [("id", "a<>")]
      [.char 'x', .char '&', .char 'l', .char 't', .char ';', .element "b" [] []]] := by rfl

-- Neither crossed elements nor attributes without quotes are read.
example : (readNodes "<p><b></p></b>").isNone ∧ (readNodes "<p id=x></p>").isNone := by decide

namespace Node

def printAttributes (attributes : List (String × String)) : List Char :=
  attributes.flatMap fun (key, value) =>
    ' ' :: key.toList ++ '=' :: '"' :: ((escape value).toList ++ ['"'])

def printOpening (tag : String) (attributes : List (String × String)) : List Char :=
  '<' :: tag.toList ++ (printAttributes attributes ++ ['>'])

def printClosing (tag : String) : List Char := '<' :: '/' :: tag.toList ++ ['>']

mutual

def print : Node → List Char
  | .char c => escapeChar c
  | .element tag attributes content =>
      printOpening tag attributes ++ printAll content ++ printClosing tag

def printAll : List Node → List Char
  | [] => []
  | node :: rest => node.print ++ printAll rest

end

theorem printAll_append (nodes later : List Node) :
    printAll (nodes ++ later) = printAll nodes ++ printAll later := by
  induction nodes with
  | nil => rfl
  | cons node rest ih => rw [List.cons_append, printAll, printAll, ih, List.append_assoc]

theorem printAll_singleton (node : Node) : printAll [node] = node.print := by
  rw [printAll, printAll, List.append_nil]

theorem printAll_chars (cs : List Char) : printAll (cs.map .char) = cs.flatMap escapeChar := by
  induction cs with
  | nil => rfl
  | cons c rest ih => rw [List.map_cons, printAll, print, ih, List.flatMap_cons]

theorem printAll_eq_nil {nodes : List Node} (h : printAll nodes = []) : nodes = [] := by
  cases nodes with
  | nil => rfl
  | cons node rest =>
    rw [printAll, List.append_eq_nil_iff] at h
    cases node with
    | char c =>
      have hc : escapeChar c ≠ [] := by
        unfold escapeChar
        split <;> exact List.cons_ne_nil _ _
      exact absurd h.1 hc
    | element tag attributes content => exact absurd h.1 (by simp [print, printOpening])

end Node

def ProperName (name : String) : Prop := ∀ c ∈ name.toList, isMarkupName c = true

instance (name : String) : Decidable (ProperName name) :=
  decidable_of_iff (name.toList.all isMarkupName = true) List.all_eq_true

inductive WellNamed : List Node → Prop where
  | nil : WellNamed []
  | char {c : Char} {rest : List Node} : WellNamed rest → WellNamed (.char c :: rest)
  | element {tag : String} {attributes : List (String × String)} {content rest : List Node} :
      ProperName tag → (∀ pair ∈ attributes, ProperName pair.1) → WellNamed content →
      WellNamed rest → WellNamed (.element tag attributes content :: rest)

namespace WellNamed

theorem append {nodes later : List Node} (h : WellNamed nodes) (h' : WellNamed later) :
    WellNamed (nodes ++ later) := by
  induction h with
  | nil => exact h'
  | char _ ih => exact ih.char
  | element htag hkeys hcontent _ _ ih => exact .element htag hkeys hcontent ih

theorem chars (cs : List Char) : WellNamed (cs.map .char) := by
  induction cs with
  | nil => exact .nil
  | cons c rest ih => exact ih.char

end WellNamed

/-- An escaped character is decoded, whatever follows it. -/
theorem decodeEntities_escapeChar (c : Char) (rest : List Char) :
    decodeEntities (escapeChar c ++ rest) = c :: decodeEntities rest := by
  unfold escapeChar
  split
  · rfl
  · rfl
  · rfl
  · rfl
  · rename_i ha _ _ _
    rw [List.singleton_append, decodeEntities] <;> intro _ h <;> exact absurd h ha

theorem decodeEntities_escape (text : String) : decodeEntities (escape text).toList = text.toList := by
  rw [escape, String.toList_ofList]
  induction text.toList with
  | nil => rfl
  | cons c rest ih => rw [List.flatMap_cons, decodeEntities_escapeChar, ih]

theorem opening_notMem_escapeChar (c : Char) : '<' ∉ escapeChar c := by
  have h := notMem_escape (c := '<') (by decide) (String.singleton c)
  simpa [escape] using h

section

variable {stack : List OpenElement} {nodes : List Node} {rest : List Char} {run : List Char}

-- Here the equations of `marks` are made, once for all the proofs below that rewrite with them.
attribute [local simp] marks

theorem marks_text_append {cs : List Char} (h : '<' ∉ cs) :
    marks (.text run) (cs ++ rest) = marks (.text (run ++ cs)) rest := by
  induction cs generalizing run with
  | nil => rw [List.append_nil, List.nil_append]
  | cons c cs ih =>
    rw [List.mem_cons, not_or] at h
    rw [List.cons_append, marks, if_neg (Ne.symm h.1), ih h.2, List.append_assoc,
      List.singleton_append]

/-- An escaped character at the beginning of a run is decoded by itself. -/
theorem marks_text_escapeChar (c : Char) :
    marks (.text (escapeChar c ++ run)) rest = (marks (.text run) rest).map (.char c :: ·) := by
  have hrun (run : List Char) : charMarks (escapeChar c ++ run) = .char c :: charMarks run := by
    rw [charMarks, decodeEntities_escapeChar, List.map_cons, charMarks]
  induction rest generalizing run with
  | nil => rw [marks, marks, hrun, Option.map_some]
  | cons d rest ih =>
    rw [marks, marks]
    split
    · rw [hrun, Option.map_map]
      rfl
    · rw [List.append_assoc, ih]

theorem marks_opening_name {tag cs : List Char} (h : ∀ c ∈ cs, isMarkupName c = true) :
    marks (.opening tag) (cs ++ rest) = marks (.opening (tag ++ cs)) rest := by
  induction cs generalizing tag with
  | nil => rw [List.append_nil, List.nil_append]
  | cons c cs ih =>
    obtain ⟨hc, hcs⟩ := List.forall_mem_cons.mp h
    have hother : c ≠ '>' ∧ c ≠ ' ' ∧ c ≠ '/' := by
      refine ⟨?_, ?_, ?_⟩ <;> rintro rfl <;> exact absurd hc (by decide)
    rw [List.cons_append, marks, if_neg hother.1, if_neg hother.2.1,
      if_neg fun he => hother.2.2 he.1, if_pos hc, ih hcs, List.append_assoc, List.singleton_append]

theorem marks_closing_name {tag cs : List Char} (h : ∀ c ∈ cs, isMarkupName c = true) :
    marks (.closing tag) (cs ++ rest) = marks (.closing (tag ++ cs)) rest := by
  induction cs generalizing tag with
  | nil => rw [List.append_nil, List.nil_append]
  | cons c cs ih =>
    obtain ⟨hc, hcs⟩ := List.forall_mem_cons.mp h
    have hend : c ≠ '>' := by rintro rfl; exact absurd hc (by decide)
    rw [List.cons_append, marks, if_neg hend, if_pos hc, ih hcs, List.append_assoc,
      List.singleton_append]

variable {tag : String} {attributes : List (String × String)}

theorem marks_key {key cs : List Char} (h : ∀ c ∈ cs, isMarkupName c = true) :
    marks (.key tag attributes key) (cs ++ rest) =
      marks (.key tag attributes (key ++ cs)) rest := by
  induction cs generalizing key with
  | nil => rw [List.append_nil, List.nil_append]
  | cons c cs ih =>
    obtain ⟨hc, hcs⟩ := List.forall_mem_cons.mp h
    have hequals : c ≠ '=' := by rintro rfl; exact absurd hc (by decide)
    rw [List.cons_append, marks, if_neg hequals, if_pos hc, ih hcs, List.append_assoc,
      List.singleton_append]

theorem marks_value {key : String} {value cs : List Char} (h : '"' ∉ cs) :
    marks (.value tag attributes key value) (cs ++ rest) =
      marks (.value tag attributes key (value ++ cs)) rest := by
  induction cs generalizing value with
  | nil => rw [List.append_nil, List.nil_append]
  | cons c cs ih =>
    rw [List.mem_cons, not_or] at h
    rw [List.cons_append, marks, if_neg (Ne.symm h.1), ih h.2, List.append_assoc,
      List.singleton_append]

/-- The rest of an opening tag, from behind an attribute on. -/
theorem marks_attributes {later : List (String × String)}
    (h : ∀ pair ∈ later, ProperName pair.1) :
    marks (.behind tag attributes) (Node.printAttributes later ++ '>' :: rest) =
      (marks (.text []) rest).map (.opening tag (attributes ++ later) :: ·) := by
  induction later generalizing attributes with
  | nil =>
    rw [List.append_nil, Node.printAttributes, List.flatMap_nil, List.nil_append, marks, if_pos rfl]
  | cons pair later ih =>
    obtain ⟨key, value⟩ := pair
    obtain ⟨hkey, hlater⟩ := List.forall_mem_cons.mp h
    have hquote : '"' ∉ (escape value).toList := notMem_escape (by decide) value
    have hprint : Node.printAttributes ((key, value) :: later) ++ '>' :: rest =
        ' ' :: (key.toList ++ '=' :: '"' :: ((escape value).toList ++
          '"' :: (Node.printAttributes later ++ '>' :: rest))) := by
      simp [Node.printAttributes]
    rw [hprint, marks, if_neg (by decide), if_pos rfl, marks_key hkey, marks, if_pos rfl, marks,
      if_pos rfl, marks_value hquote, marks, if_pos rfl, List.nil_append, List.nil_append,
      decodeEntities_escape, String.ofList_toList, String.ofList_toList, ih hlater,
      List.append_assoc]
    rfl

theorem marks_printOpening (htag : ProperName tag)
    (hkeys : ∀ pair ∈ attributes, ProperName pair.1) :
    marks (.text []) (Node.printOpening tag attributes ++ rest) =
      (marks (.text []) rest).map (.opening tag attributes :: ·) := by
  -- What may stand behind the name is what may stand behind an attribute.
  have hbehind : marks (.opening tag.toList) (Node.printAttributes attributes ++ '>' :: rest) =
      marks (.behind tag []) (Node.printAttributes attributes ++ '>' :: rest) := by
    cases attributes with
    | nil => simp [Node.printAttributes]
    | cons pair later => simp [Node.printAttributes]
  have hprint : Node.printOpening tag attributes ++ rest =
      '<' :: (tag.toList ++ (Node.printAttributes attributes ++ '>' :: rest)) := by
    simp [Node.printOpening]
  rw [hprint, marks, if_pos rfl, marks_opening_name htag, List.nil_append, hbehind,
    marks_attributes hkeys, Option.map_map]
  rfl

theorem marks_printClosing (htag : ProperName tag) :
    marks (.text []) (Node.printClosing tag ++ rest) =
      (marks (.text []) rest).map (.closing tag :: ·) := by
  have hprint : Node.printClosing tag ++ rest = '<' :: '/' :: (tag.toList ++ '>' :: rest) := by
    simp [Node.printClosing]
  rw [hprint, marks, if_pos rfl, marks, if_neg (by decide), if_neg (by decide),
    if_pos ⟨rfl, rfl⟩, marks_closing_name htag, List.nil_append, marks, if_pos rfl,
    String.ofList_toList, Option.map_map]
  rfl

theorem readFrom_char (c : Char) :
    readFrom stack nodes (escapeChar c ++ rest) = readFrom stack (nodes ++ [.char c]) rest := by
  have h : marks (.text (escapeChar c ++ [])) rest =
      (marks (.text []) rest).map (.char c :: ·) := marks_text_escapeChar c
  rw [List.append_nil] at h
  rw [readFrom, marks_text_append (opening_notMem_escapeChar c), List.nil_append, h,
    Option.bind_map, readFrom]
  congr 1
  funext later
  cases stack <;> rfl

theorem readFrom_opening (htag : ProperName tag)
    (hkeys : ∀ pair ∈ attributes, ProperName pair.1) :
    readFrom stack nodes (Node.printOpening tag attributes ++ rest) =
      readFrom (⟨tag, attributes, nodes⟩ :: stack) [] rest := by
  rw [readFrom, marks_printOpening htag hkeys, Option.bind_map, readFrom]
  congr 1
  funext later
  cases stack <;> rfl

theorem readFrom_closing {before : List Node} (htag : ProperName tag) :
    readFrom (⟨tag, attributes, before⟩ :: stack) nodes (Node.printClosing tag ++ rest) =
      readFrom stack (before ++ [.element tag attributes nodes]) rest := by
  rw [readFrom, marks_printClosing htag, Option.bind_map, readFrom]
  congr 1
  funext later
  exact if_pos rfl

/-- Printed nodes are read behind those that were read before. -/
theorem WellNamed.readFrom_printAll {printed : List Node} (h : WellNamed printed) :
    readFrom stack nodes (Node.printAll printed ++ rest) =
      readFrom stack (nodes ++ printed) rest := by
  -- The content of an element is read inside of it, with the nodes before it put on the stack.
  induction h generalizing stack nodes rest with
  | nil => rw [Node.printAll, List.nil_append, List.append_nil]
  | @char c later _ ih =>
    rw [Node.printAll, Node.print, List.append_assoc, readFrom_char, ih, List.append_assoc]
    rfl
  | @element tag attributes content later htag hkeys _ _ ihcontent ih =>
    simp only [Node.printAll, Node.print, List.append_assoc]
    rw [readFrom_opening htag hkeys, ihcontent, List.nil_append, readFrom_closing htag, ih,
      List.append_assoc]
    rfl

end

/-- What is printed is read back. -/
theorem WellNamed.readNodes_printAll {nodes : List Node} (h : WellNamed nodes) :
    readNodes (String.ofList (Node.printAll nodes)) = some nodes := by
  have hread : readFrom [] [] (Node.printAll nodes ++ []) = readFrom [] ([] ++ nodes) [] :=
    h.readFrom_printAll
  rw [List.append_nil, List.nil_append] at hread
  rw [readNodes, String.toList_ofList, hread]
  rfl

end HeaderSynopsis.Output
