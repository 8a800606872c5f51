import HeaderSynopsis.Output.Markup

namespace HeaderSynopsis.Output

open Declaration Writing

/-- Deletes every tag, from its opening to the next closing bracket. The flag tells whether the text
begins inside a tag. -/
def withoutTags : Bool → List Char → List Char
  | _, [] => []
  | true, c :: rest => withoutTags (c ≠ '>') rest
  | false, c :: rest => if c = '<' then withoutTags true rest else c :: withoutTags false rest

/-- Decodes the four entities that `escapeChar` writes; every other ampersand stands for itself. -/
def decodeEntities : List Char → List Char
  | '&' :: 'a' :: 'm' :: 'p' :: ';' :: rest => '&' :: decodeEntities rest
  | '&' :: 'l' :: 't' :: ';' :: rest => '<' :: decodeEntities rest
  | '&' :: 'g' :: 't' :: ';' :: rest => '>' :: decodeEntities rest
  | '&' :: 'q' :: 'u' :: 'o' :: 't' :: ';' :: rest => '"' :: decodeEntities rest
  | c :: rest => c :: decodeEntities rest
  | [] => []

def visibleChars (markup : List Char) : List Char := decodeEntities (withoutTags false markup)

def visibleText (markup : String) : String := String.ofList (visibleChars markup.toList)

example : visibleText "<a id=\"&gt;\"></a>a&lt;<b>&amp;lt;" = "a<&lt;" := by decide +kernel

def Shows (markup text : List Char) : Prop :=
  ∀ rest, visibleChars (markup ++ rest) = text ++ visibleChars rest

theorem Shows.nil : Shows [] [] := fun _ => rfl

theorem Shows.append {markup text markup' text' : List Char} (h : Shows markup text)
    (h' : Shows markup' text') : Shows (markup ++ markup') (text ++ text') := by
  intro rest
  rw [List.append_assoc, h, h', List.append_assoc]

theorem Shows.visibleChars_eq {markup text : List Char} (h : Shows markup text) :
    visibleChars markup = text := by
  have hh := h []
  rwa [List.append_nil, show visibleChars [] = [] from rfl, List.append_nil] at hh

/-- A character that neither opens a tag nor begins an entity is read as itself. -/
theorem shows_char {c : Char} (ht : c ≠ '<') (he : c ≠ '&') : Shows [c] [c] := by
  intro rest
  have hd (cs : List Char) : decodeEntities (c :: cs) = c :: decodeEntities cs := by
    rw [decodeEntities] <;> intro _ h <;> exact absurd h he
  simp only [visibleChars, List.cons_append, List.nil_append, withoutTags, if_neg ht, hd]

/-- Text without brackets of tags and without ampersands is read as itself. -/
theorem shows_self {cs : List Char} (h : ∀ c ∈ cs, c ≠ '<' ∧ c ≠ '&') : Shows cs cs := by
  induction cs with
  | nil => exact Shows.nil
  | cons c cs ih =>
    obtain ⟨ht, he⟩ := h c List.mem_cons_self
    exact (shows_char ht he).append (ih fun d hd => h d (List.mem_cons_of_mem _ hd))

theorem shows_escapeChar (c : Char) : Shows (escapeChar c) [c] := by
  unfold escapeChar
  split
  · exact fun _ => rfl
  · exact fun _ => rfl
  · exact fun _ => rfl
  · exact fun _ => rfl
  · rename_i ha hl _ _
    exact shows_char hl ha

theorem shows_escape (text : String) : Shows (escape text).toList text.toList := by
  rw [escape, String.toList_ofList]
  induction text.toList with
  | nil => exact Shows.nil
  | cons c cs ih => exact (shows_escapeChar c).append ih

theorem withoutTags_inside {body : List Char} (h : '>' ∉ body) (rest : List Char) :
    withoutTags true (body ++ '>' :: rest) = withoutTags false rest := by
  induction body with
  | nil => rfl
  | cons c body ih =>
    rw [List.mem_cons, not_or] at h
    rw [List.cons_append, withoutTags, decide_eq_true (Ne.symm h.1)]
    exact ih h.2

/-- Nothing is seen of a tag. -/
theorem shows_tag {body : List Char} (h : '>' ∉ body) : Shows ('<' :: body ++ ['>']) [] := by
  intro rest
  rw [visibleChars, List.append_assoc, List.cons_append, List.singleton_append, withoutTags,
    if_pos rfl, withoutTags_inside h]
  rfl

/-- No tag can be closed from within an escaped text. -/
theorem closing_notMem_escape (text : String) : '>' ∉ (escape text).toList := by
  rw [escape, String.toList_ofList, List.mem_flatMap]
  rintro ⟨c, _, hc⟩
  unfold escapeChar at hc
  split at hc
  · revert hc
    decide
  · revert hc
    decide
  · revert hc
    decide
  · revert hc
    decide
  · rename_i _ _ hg _
    exact hg (List.mem_singleton.mp hc).symm

/-- Nothing is seen of an opening tag with a value in it that cannot close it. -/
theorem shows_openTag {lead value : String} {start : List Char} (hl : lead.toList = '<' :: start)
    (hs : '>' ∉ start) (hv : '>' ∉ value.toList) :
    Shows (lead ++ value ++ "\">").toList [] := by
  have hend : "\">".toList = ['"'] ++ ['>'] := by decide
  have hbody : '>' ∉ start ++ value.toList ++ ['"'] := by
    rw [List.mem_append, List.mem_append]
    rintro ((h | h) | h)
    · exact hs h
    · exact hv h
    · exact absurd h (by decide)
  have htag := shows_tag hbody
  rw [String.toList_append, String.toList_append, hl, hend, ← List.append_assoc]
  exact htag

theorem shows_closeTag {tag : String} (body : List Char) (ht : tag.toList = '<' :: body ++ ['>'])
    (hb : '>' ∉ body) : Shows tag.toList [] := by
  rw [ht]
  exact shows_tag hb

/-- Between an opening and a closing tag a text is seen as it is on its own. -/
theorem shows_element {opening closing markup : String} {text : List Char}
    (ho : Shows opening.toList []) (hm : Shows markup.toList text) (hc : Shows closing.toList []) :
    Shows (opening ++ markup ++ closing).toList text := by
  have h := (ho.append hm).append hc
  rw [List.nil_append, List.append_nil] at h
  rw [String.toList_append, String.toList_append]
  exact h

theorem shows_anchorTag (id : Id) : Shows (Markup.anchorTag id).toList [] := by
  have hlead : "<a id=\"".toList = '<' :: "a id=\"".toList := by decide
  have hopen := shows_openTag hlead (by decide) (closing_notMem_escape id.text)
  have hclose : Shows "</a>".toList [] := shows_closeTag "/a".toList (by decide) (by decide)
  -- The end of the first tag and the second one stand in one literal.
  have hend : "\"></a>" = "\">" ++ "</a>" := by decide
  have h := hopen.append hclose
  rw [List.append_nil, ← String.toList_append, String.append_assoc, ← hend] at h
  exact h

/-- Of a token only its text is seen. -/
theorem shows_span (kind : TokenKind) (text : String) :
    Shows (Markup.span kind text).toList text.toList := by
  have hlead : "<span class=\"".toList = '<' :: "span class=\"".toList := by decide
  have hkind : '>' ∉ kind.word.toList := by cases kind <;> decide
  have hopen := shows_openTag hlead (by decide) hkind
  have hclose : Shows "</span>".toList [] :=
    shows_closeTag "/span".toList (by decide) (by decide)
  exact shows_element hopen (shows_escape text) hclose

theorem linkTag_cons (target : Id) (others : List Id) (name : String) :
    Markup.linkTag (target :: others) name =
      "<a class=\"reference\" href=\"#" ++ escape target.text ++ "\">" ++ escape name ++ "</a>" :=
  rfl

theorem shows_linkTag (targets : List Id) (name : String) :
    Shows (Markup.linkTag targets name).toList name.toList := by
  cases targets with
  | nil => exact shows_span .reference name
  | cons target others =>
    have hlead : "<a class=\"reference\" href=\"#".toList =
        '<' :: "a class=\"reference\" href=\"#".toList := by decide
    have hopen := shows_openTag hlead (by decide) (closing_notMem_escape target.text)
    have hclose : Shows "</a>".toList [] := shows_closeTag "/a".toList (by decide) (by decide)
    rw [linkTag_cons]
    exact shows_element hopen (shows_escape name) hclose

end HeaderSynopsis.Output
