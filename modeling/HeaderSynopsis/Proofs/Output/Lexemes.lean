import HeaderSynopsis.Proofs.Output.VisibleText
import Mathlib.Data.List.Basic

namespace HeaderSynopsis.Output

open Declaration Writing

inductive Lexeme where
  | char (c : Char)
  | tag (parts : List (List Char))
deriving DecidableEq

/-- The lexemes of some markup. If it begins in a tag, the tag has begun with the given body. -/
def lexemes : Option (List Char) → List Char → List Lexeme
  | _, [] => []
  | none, c :: rest => if c = '<' then lexemes (some []) rest else .char c :: lexemes none rest
  | some body, c :: rest =>
      if c = '>' then .tag (body.splitOn '"') :: lexemes none rest
      else lexemes (some (body ++ [c])) rest

def Lexeme.anchorId? : Lexeme → Option String
  | .tag [key, value, []] => if key = "a id=".toList then some (String.ofList value) else none
  | _ => none

def closingTag : Lexeme := .tag ["/a".toList]

/-- The identities of the anchors among some lexemes. An anchor is closed where it is opened. -/
def anchorsAmong : List Lexeme → List String
  | [] => []
  | lexeme :: rest =>
      (if rest.head? = some closingTag then lexeme.anchorId?.toList else []) ++ anchorsAmong rest

def targetsAmong : List (List Char) → List String
  | key :: value :: rest =>
      (if "href=".toList <:+ key ∧ value.head? = some '#' then [String.ofList value.tail] else []) ++
        targetsAmong rest
  | _ => []

def Lexeme.targets : Lexeme → List String
  | .char _ => []
  | .tag parts => targetsAmong parts

def anchorsIn (markup : List Char) : List String := anchorsAmong (lexemes none markup)

def targetsIn (markup : List Char) : List String := (lexemes none markup).flatMap Lexeme.targets

def anchorIds (document : String) : List String := anchorsIn document.toList

def linkTargets (document : String) : List String := targetsIn document.toList

example :
    let document := "<a id=\"p\"></a><b>x</b><a class=\"reference\" href=\"#q\"> href=\"#r\"</a>"
    anchorIds document = ["p"] ∧ linkTargets document = ["q"] := by decide +kernel

def CutsInto (markup : List Char) (cut : List Lexeme) : Prop :=
  ∀ rest, lexemes none (markup ++ rest) = cut ++ lexemes none rest

namespace CutsInto

theorem append {markup markup' : List Char} {cut cut' : List Lexeme} (h : CutsInto markup cut)
    (h' : CutsInto markup' cut') : CutsInto (markup ++ markup') (cut ++ cut') := by
  intro rest
  rw [List.append_assoc, h, h', List.append_assoc]

/-- Outside of tags every character is by itself. -/
theorem chars {cs : List Char} (h : '<' ∉ cs) : CutsInto cs (cs.map .char) := by
  intro rest
  induction cs with
  | nil => rfl
  | cons c cs ih =>
    rw [List.mem_cons, not_or] at h
    rw [List.cons_append, lexemes, if_neg (Ne.symm h.1), ih h.2]
    rfl

theorem body {inner rest : List Char} (h : '>' ∉ inner) (start : List Char) :
    lexemes (some start) (inner ++ '>' :: rest) =
      .tag ((start ++ inner).splitOn '"') :: lexemes none rest := by
  induction inner generalizing start with
  | nil => rw [List.nil_append, lexemes, if_pos rfl, List.append_nil]
  | cons c inner ih =>
    rw [List.mem_cons, not_or] at h
    rw [List.cons_append, lexemes, if_neg (Ne.symm h.1), ih h.2, List.append_assoc]
    rfl

theorem tag {inner : List Char} (h : '>' ∉ inner) :
    CutsInto ('<' :: inner ++ ['>']) [.tag (inner.splitOn '"')] := by
  intro rest
  rw [List.append_assoc, List.cons_append, lexemes, if_pos rfl, List.singleton_append, body h,
    List.nil_append]
  rfl

end CutsInto

/-- A name and a value in quotes are two parts. -/
theorem splitOn_attribute {key value : List Char} (hk : '"' ∉ key) (hv : '"' ∉ value)
    (rest : List Char) :
    (key ++ '"' :: (value ++ '"' :: rest)).splitOn '"' = key :: value :: rest.splitOn '"' := by
  have hpart {part : List Char} (h : '"' ∉ part) (after : List Char) :
      (part ++ '"' :: after).splitOn '"' = part :: after.splitOn '"' := by
    refine List.splitOnP_append_cons_of_forall_mem (fun c hc => ?_) '"' rfl after
    exact beq_eq_false_iff_ne.mpr fun he => h (he ▸ hc)
  rw [hpart hk, hpart hv]

/-- The characters that could end a value or a tag, or begin one, are escaped. -/
theorem notMem_escape {c : Char} (hc : c ∈ ['<', '>', '"']) (text : String) :
    c ∉ (escape text).toList := by
  rw [escape, String.toList_ofList, List.mem_flatMap]
  rintro ⟨d, -, hd⟩
  have hreplaced (spelling : List Char) (h : ∀ e ∈ ['<', '>', '"'], e ∉ spelling) : c ∉ spelling :=
    h c hc
  unfold escapeChar at hd
  split at hd
  · exact hreplaced _ (by simp) hd
  · exact hreplaced _ (by simp) hd
  · exact hreplaced _ (by simp) hd
  · exact hreplaced _ (by simp) hd
  · rename_i _ hl hg hq
    obtain rfl := List.mem_singleton.mp hd
    simp only [List.mem_cons, List.not_mem_nil, or_false] at hc
    exact hc.elim hl fun hc => hc.elim hg hq

/-- An opening tag with one attribute. -/
theorem cutsInto_openTag {lead value : String} {key : List Char}
    (hl : lead.toList = '<' :: key ++ ['"']) (hk : '"' ∉ key ∧ '>' ∉ key)
    (hv : '"' ∉ value.toList ∧ '>' ∉ value.toList) :
    CutsInto (lead ++ value ++ "\">").toList [.tag [key, value.toList, []]] := by
  have hinner : '>' ∉ key ++ '"' :: (value.toList ++ ['"']) := by simp [hk.2, hv.2]
  have htag := CutsInto.tag hinner
  rw [splitOn_attribute hk.1 hv.1, List.splitOn_nil] at htag
  have hend : "\">".toList = ['"', '>'] := by decide
  simpa [String.toList_append, hl, hend] using htag

theorem cutsInto_closeTag {tag : String} {body : List Char} (ht : tag.toList = '<' :: body ++ ['>'])
    (hq : '"' ∉ body) (hb : '>' ∉ body) : CutsInto tag.toList [.tag [body]] := by
  rw [ht, ← List.splitOn_eq_singleton hq]
  exact CutsInto.tag hb

theorem cutsInto_escape (text : String) :
    CutsInto (escape text).toList ((escape text).toList.map .char) :=
  CutsInto.chars (notMem_escape (by decide) text)

/-- A token is cut into its tags and the characters of its text. -/
theorem cutsInto_span (kind : TokenKind) (text : String) :
    CutsInto (Markup.span kind text).toList
      (.tag ["span class=".toList, kind.word.toList, []] ::
        ((escape text).toList.map .char ++ [.tag ["/span".toList]])) := by
  have hlead : "<span class=\"".toList = '<' :: "span class=".toList ++ ['"'] := by decide
  have hkind : '"' ∉ kind.word.toList ∧ '>' ∉ kind.word.toList := by cases kind <;> decide
  have hopen := cutsInto_openTag hlead (by decide) hkind
  have hclose : CutsInto "</span>".toList [.tag ["/span".toList]] :=
    cutsInto_closeTag (by decide) (by decide) (by decide)
  have h := hopen.append ((cutsInto_escape text).append hclose)
  rwa [← String.toList_append, ← String.toList_append, ← String.append_assoc] at h

theorem cutsInto_linkTag (target : Id) (others : List Id) (name : String) :
    CutsInto (Markup.linkTag (target :: others) name).toList
      (.tag ["a class=".toList, "reference".toList, " href=".toList,
          '#' :: (escape target.text).toList, []] ::
        ((escape name).toList.map .char ++ [closingTag])) := by
  have hvalue : '"' ∉ '#' :: (escape target.text).toList := by
    simp [notMem_escape (c := '"') (by decide) target.text]
  have hinner : '>' ∉ "a class=".toList ++ '"' :: ("reference".toList ++ '"' ::
      (" href=".toList ++ '"' :: ('#' :: (escape target.text).toList ++ ['"']))) := by
    simp [notMem_escape (c := '>') (by decide) target.text]
  have hopen := CutsInto.tag hinner
  rw [splitOn_attribute (by decide) (by decide), splitOn_attribute (by decide) hvalue,
    List.splitOn_nil] at hopen
  have hclose : CutsInto "</a>".toList [closingTag] :=
    cutsInto_closeTag (by decide) (by decide) (by decide)
  have h := hopen.append ((cutsInto_escape name).append hclose)
  have hlead : "<a class=\"reference\" href=\"#".toList = '<' :: "a class=".toList ++ '"' ::
      ("reference".toList ++ '"' :: (" href=".toList ++ ['"', '#'])) := by decide
  have hend : "\">".toList = ['"', '>'] := by decide
  simpa [linkTag_cons, String.toList_append, hlead, hend] using h

/-- An anchor is cut into the tag with its identity and the tag that closes it. -/
theorem cutsInto_anchorTag (id : Id) :
    CutsInto (Markup.anchorTag id).toList
      [.tag ["a id=".toList, (escape id.text).toList, []], closingTag] := by
  have hlead : "<a id=\"".toList = '<' :: "a id=".toList ++ ['"'] := by decide
  have hvalue := And.intro (notMem_escape (c := '"') (by decide) id.text)
    (notMem_escape (c := '>') (by decide) id.text)
  have hopen := cutsInto_openTag hlead (by decide) hvalue
  have hclose : CutsInto "</a>".toList [closingTag] :=
    cutsInto_closeTag (by decide) (by decide) (by decide)
  -- The end of the first tag and the second one stand in one literal.
  have hend : "\"></a>" = "\">" ++ "</a>" := by decide
  have h := hopen.append hclose
  rw [← String.toList_append, String.append_assoc, ← hend] at h
  exact h

def Finds (read : List Char → List String) (markup : List Char) (values : List String) : Prop :=
  ∀ rest, read (markup ++ rest) = values ++ read rest

namespace Finds

variable {read : List Char → List String} {markup markup' : List Char} {values values' : List String}

theorem nil : Finds read [] [] := fun _ => rfl

theorem append (h : Finds read markup values) (h' : Finds read markup' values') :
    Finds read (markup ++ markup') (values ++ values') := by
  intro rest
  rw [List.append_assoc, h, h', List.append_assoc]

end Finds

theorem CutsInto.finds_targets {markup : List Char} {cut : List Lexeme} (h : CutsInto markup cut) :
    Finds targetsIn markup (cut.flatMap Lexeme.targets) := by
  intro rest
  rw [targetsIn, h, List.flatMap_append]
  rfl

/-- Where no lexeme opens an anchor, no anchor is found. -/
theorem CutsInto.finds_noAnchors {markup : List Char} {cut : List Lexeme} (h : CutsInto markup cut)
    (hn : ∀ lexeme ∈ cut, lexeme.anchorId? = none) : Finds anchorsIn markup [] := by
  intro rest
  rw [anchorsIn, h, List.nil_append, anchorsIn]
  -- The last of these lexemes may come before the end of an anchor, but it opens none.
  generalize lexemes none rest = later
  clear h
  induction cut with
  | nil => rfl
  | cons lexeme cut ih =>
    rw [List.forall_mem_cons] at hn
    rw [List.cons_append, anchorsAmong, hn.1, ih hn.2]
    simp

theorem finds_anchorTag (id : Id) :
    Finds anchorsIn (Markup.anchorTag id).toList [escape id.text] := by
  intro rest
  have hopen : Lexeme.anchorId? (.tag ["a id=".toList, (escape id.text).toList, []]) =
      some (escape id.text) := by
    rw [Lexeme.anchorId?, if_pos rfl, String.ofList_toList]
  have hclose : closingTag.anchorId? = none := rfl
  rw [anchorsIn, cutsInto_anchorTag, List.cons_append, anchorsAmong, List.singleton_append,
    anchorsAmong, hopen, hclose, List.head?_cons, if_pos rfl]
  simp [anchorsIn]

theorem targets_chars (cs : List Char) : (cs.map Lexeme.char).flatMap Lexeme.targets = [] := by
  rw [List.flatMap_map]
  exact List.flatMap_eq_nil_iff.mpr fun _ _ => rfl

theorem anchorId?_chars (cs : List Char) :
    ∀ lexeme ∈ cs.map Lexeme.char, lexeme.anchorId? = none := by
  rw [List.forall_mem_map]
  exact fun _ _ => rfl

def html? : Write → Option String
  | .token .tokenSeq text => some (escape text)
  | .token kind text => some (Markup.span kind text)
  | .reference targets name => some (Markup.linkTag targets name)
  | _ => none

def target? : Write → Option Id
  | .reference targets _ => targets.head?
  | _ => none

theorem targetsAmong_other {key : List Char} (h : ¬"href=".toList <:+ key) (value : List Char)
    (rest : List (List Char)) : targetsAmong (key :: value :: rest) = targetsAmong rest := by
  rw [targetsAmong, if_neg fun ⟨hk, _⟩ => h hk]
  rfl

theorem targetsAmong_href {key : List Char} (h : "href=".toList <:+ key) (value : List Char)
    (rest : List (List Char)) :
    targetsAmong (key :: ('#' :: value) :: rest) = String.ofList value :: targetsAmong rest := by
  rw [targetsAmong, if_pos ⟨h, rfl⟩]
  rfl

theorem finds_targets_span (kind : TokenKind) (text : String) :
    Finds targetsIn (Markup.span kind text).toList [] := by
  have h := (cutsInto_span kind text).finds_targets
  have hopen : Lexeme.targets (.tag ["span class=".toList, kind.word.toList, []]) = [] :=
    targetsAmong_other (by decide) _ _
  rwa [List.flatMap_cons, List.flatMap_append, targets_chars, hopen] at h

/-- In the markup of a step a link is found if the step has a target. -/
theorem finds_targets_html {w : Write} {html : String} (h : html? w = some html) :
    Finds targetsIn html.toList ((target? w).map (escape ·.text)).toList := by
  cases w with
  | token kind text =>
    have hspan := finds_targets_span kind text
    cases kind with
    | tokenSeq =>
      obtain rfl := Option.some.inj h
      have htext := (cutsInto_escape text).finds_targets
      rwa [targets_chars] at htext
    | _ =>
      obtain rfl := Option.some.inj h
      exact hspan
  | reference targets name =>
    obtain rfl := Option.some.inj h
    -- Only the first target becomes a link, and a reference without one becomes a span.
    cases targets with
    | nil => exact finds_targets_span .reference name
    | cons target others =>
      have hlink := (cutsInto_linkTag target others name).finds_targets
      have hopen : Lexeme.targets (.tag ["a class=".toList, "reference".toList, " href=".toList,
          '#' :: (escape target.text).toList, []]) = [escape target.text] := by
        have hhref : targetsAmong [" href=".toList, '#' :: (escape target.text).toList, []] =
            [String.ofList (escape target.text).toList] := targetsAmong_href (by decide) _ _
        rw [String.ofList_toList] at hhref
        exact (targetsAmong_other (by decide) _ _).trans hhref
      rwa [List.flatMap_cons, List.flatMap_append, targets_chars, hopen] at hlink
  | space => cases h
  | lineBreak => cases h
  | indent => cases h
  | unindent => cases h

/-- An anchor is no link. -/
theorem finds_noTargets_anchorTag (id : Id) : Finds targetsIn (Markup.anchorTag id).toList [] := by
  have h := (cutsInto_anchorTag id).finds_targets
  have hopen : Lexeme.targets (.tag ["a id=".toList, (escape id.text).toList, []]) = [] :=
    targetsAmong_other (by decide) _ _
  rwa [List.flatMap_cons, hopen] at h

theorem finds_noAnchors_span (kind : TokenKind) (text : String) :
    Finds anchorsIn (Markup.span kind text).toList [] := by
  refine (cutsInto_span kind text).finds_noAnchors ?_
  have hopen : Lexeme.anchorId? (.tag ["span class=".toList, kind.word.toList, []]) = none := by
    rw [Lexeme.anchorId?, if_neg (by decide)]
  rw [List.forall_mem_cons, List.forall_mem_append, List.forall_mem_singleton]
  exact ⟨hopen, anchorId?_chars _, rfl⟩

/-- No anchor is found in the markup of a step. -/
theorem finds_noAnchors_html {w : Write} {html : String} (h : html? w = some html) :
    Finds anchorsIn html.toList [] := by
  cases w with
  | token kind text =>
    have hspan := finds_noAnchors_span kind text
    cases kind with
    | tokenSeq =>
      obtain rfl := Option.some.inj h
      exact (cutsInto_escape text).finds_noAnchors (anchorId?_chars _)
    | _ =>
      obtain rfl := Option.some.inj h
      exact hspan
  | reference targets name =>
    obtain rfl := Option.some.inj h
    cases targets with
    | nil => exact finds_noAnchors_span .reference name
    | cons target others =>
      refine (cutsInto_linkTag target others name).finds_noAnchors ?_
      rw [List.forall_mem_cons, List.forall_mem_append, List.forall_mem_singleton]
      exact ⟨rfl, anchorId?_chars _, rfl⟩
  | space => cases h
  | lineBreak => cases h
  | indent => cases h
  | unindent => cases h

end HeaderSynopsis.Output
