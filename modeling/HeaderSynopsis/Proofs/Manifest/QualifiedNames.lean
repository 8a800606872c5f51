import HeaderSynopsis.Proofs.Manifest.ShownNames

/-!
Qualified names by their segments: the names of all that is around an entity and its own, each
without a name called by its index. The identity of an entity is the text that these are joined to
by pairs of colons. Main result: two qualified names with the same text are the same, unless one
goes on into a scope with the name of an operator and the other one imitates that with a longer
name of an operator.
-/

namespace HeaderSynopsis.Manifest

open Declaration

inductive IsSegment : String → Prop
  | name {name : String} (h : nameFault? name = none) : IsSegment name
  | index (n : Nat) : IsSegment ("@" ++ toString n)

/-- A qualified name that is written like another. Where the two part, the other one goes on into a
scope that has the name of an operator, while this one goes on with a name that begins with the name
of the scope and a pair of colons. -/
inductive Imitates : List String → List String → Prop
  | here {scope inner : String} {after inside : List String} (hscope : IsOperatorName scope)
      (hinside : inside ≠ []) (h : pathText (inner :: after) = pathText inside) :
      Imitates ((scope ++ "::" ++ inner) :: after) (scope :: inside)
  | deeper {s t : List String} (around : String) (h : Imitates t s) :
      Imitates (around :: t) (around :: s)

theorem IsSegment.exists_cons {segment : String} (h : IsSegment segment) :
    ∃ c rest, segment.toList = c :: rest ∧ c ≠ ':' := by
  cases h with
  | name h =>
    cases hchars : segment.toList with
    | nil =>
      obtain rfl : segment = "" := String.toList_inj.mp hchars
      exact absurd h (by decide)
    | cons c rest =>
      have hhead := head?_ne_colon h
      rw [hchars] at hhead
      exact ⟨c, rest, rfl, fun hc => hhead (congrArg some hc)⟩
  | index n => exact ⟨'@', (toString n).toList, String.toList_append, by decide⟩

theorem head?_index (n : Nat) : ("@" ++ toString n).toList.head? = some '@' := by
  rw [String.toList_append]
  rfl

theorem IsSegment.ne_operator {segment : String} (h : IsSegment segment) :
    segment ≠ "operator" := by
  intro hword
  cases h with
  | name h =>
    subst hword
    exact absurd h (by decide)
  | index n =>
    have hhead := head?_index n
    rw [hword] at hhead
    cases hhead

/-- No index is the name of an operator. -/
theorem not_isOperatorName_index (n : Nat) : ¬IsOperatorName ("@" ++ toString n) := by
  rintro ⟨symbol, hindex, -⟩
  have hhead := congrArg (List.head? ∘ String.toList) hindex
  rw [Function.comp_apply, Function.comp_apply, head?_index, String.toList_append] at hhead
  cases hhead

/-- No name that is accepted can be taken for an index. -/
theorem ne_index_of_accepted {name : String} (h : nameFault? name = none) (n : Nat) :
    name ≠ "@" ++ toString n := by
  rintro rfl
  have hhead := head?_index n
  obtain ⟨-, hoperator | ⟨first, rest, hname, hstart, -⟩ | ⟨word, hname, -⟩⟩ :=
    nameFault?_eq_none_iff.mp h
  · exact not_isOperatorName_index n hoperator
  · rw [hname] at hhead
    obtain rfl := Option.some.inj hhead
    rw [← isNameStart_iff] at hstart
    exact absurd hstart (by decide)
  · rw [hname, String.toList_append] at hhead
    cases hhead

/-- A colon in a segment belongs to the name of an operator. -/
theorem IsSegment.isOperatorName_of_colon_mem {segment : String} (h : IsSegment segment)
    (hc : ':' ∈ segment.toList) : IsOperatorName segment := by
  cases h with
  | name h => exact Manifest.isOperatorName_of_colon_mem h hc
  | index n =>
    rw [String.toList_append, Nat.toString_eq_repr, Nat.toList_repr, List.mem_append] at hc
    rcases hc with hc | hc
    · exact absurd hc (by decide)
    · have hdigit := Nat.isDigit_of_mem_toDigits (by decide) (by decide) hc
      exact absurd hdigit (by decide)

/-- What stands before a colon in the name of an operator names an operator itself, unless it is the
bare word. -/
theorem isOperatorName_of_append {start : String} {rest : List Char} (hne : start ≠ "operator")
    {name : String} (hname : IsOperatorName name) (h : name.toList = start.toList ++ ':' :: rest) :
    IsOperatorName start := by
  obtain ⟨symbol, rfl, c, others, hsymbol, hc⟩ := hname
  rw [String.toList_append] at h
  rcases List.append_eq_append_iff.mp h with ⟨more, hstart, hmore⟩ | ⟨missing, hword, hcolon⟩
  · -- The name goes on behind the word, so that it goes on with a symbol too.
    cases more with
    | nil =>
      rw [List.append_nil] at hstart
      exact absurd (String.toList_inj.mp hstart) hne
    | cons d more =>
      rw [hsymbol] at hmore
      obtain ⟨rfl, -⟩ := List.cons.inj hmore
      refine ⟨String.ofList (c :: more), ?_, c, more, String.toList_ofList, hc⟩
      apply String.toList_inj.mp
      rw [hstart, String.toList_append, String.toList_ofList (l := c :: more)]
  · cases missing with
    | nil =>
      rw [List.append_nil] at hword
      exact absurd (String.toList_inj.mp hword.symm) hne
    | cons d missing =>
      -- There is no colon in the word.
      obtain ⟨rfl, -⟩ := List.cons.inj hcolon
      have hmem : ':' ∈ "operator".toList := hword ▸ List.mem_append_right _ List.mem_cons_self
      exact absurd hmem (by decide)

def behindSegment (rest : List String) : List Char :=
  if rest = [] then [] else ':' :: ':' :: (pathText rest).toList

@[simp]
theorem behindSegment_nil : behindSegment [] = [] := rfl

@[simp]
theorem behindSegment_cons (segment : String) (rest : List String) :
    behindSegment (segment :: rest) = ':' :: ':' :: (pathText (segment :: rest)).toList := rfl

theorem toList_pathText_cons (segment : String) (rest : List String) :
    (pathText (segment :: rest)).toList = segment.toList ++ behindSegment rest := by
  cases rest with
  | nil => rw [pathText, String.intercalate_singleton, behindSegment_nil, List.append_nil]
  | cons next rest =>
    rw [pathText, String.intercalate_cons_cons, String.toList_append, String.toList_append,
      List.append_assoc]
    rfl

theorem pathText_cons_cons (segment next : String) (rest : List String) :
    pathText (segment :: next :: rest) = pathText ((segment ++ "::" ++ next) :: rest) := by
  rw [pathText, pathText, String.intercalate_cons_cons, String.intercalate_cons_append]

/-- Children of children get the text of their qualified name as their identity. -/
theorem foldl_child_mk {segment : String} (h : segment ≠ "") (rest : List String) :
    rest.foldl Id.child ⟨segment⟩ = ⟨pathText (segment :: rest)⟩ := by
  induction rest generalizing segment with
  | nil => rw [pathText, String.intercalate_singleton, List.foldl_nil]
  | cons next rest ih =>
    have hlonger : segment ++ "::" ++ next ≠ "" := by simp
    rw [List.foldl_cons, Id.child, if_neg h, ih hlonger, pathText_cons_cons]

theorem foldl_child_empty {s : List String} (hs : ∀ a ∈ s, a ≠ "") :
    s.foldl Id.child ⟨""⟩ = ⟨pathText s⟩ := by
  cases s with
  | nil => rfl
  | cons a s => rw [List.foldl_cons, Id.child_empty, foldl_child_mk (hs a List.mem_cons_self)]

/-- Only what is inside something with the name of an operator is imitated. -/
theorem Imitates.exists_scope {s t : List String} (h : Imitates t s) :
    ∃ before scope inside, s = before ++ scope :: inside ∧ inside ≠ [] ∧ IsOperatorName scope := by
  induction h with
  | @here scope inner after inside hscope hinside _ =>
    exact ⟨[], scope, inside, rfl, hinside, hscope⟩
  | deeper around _ ih =>
    obtain ⟨before, scope, inside, rfl, hinside, hscope⟩ := ih
    exact ⟨around :: before, scope, inside, rfl, hinside, hscope⟩

theorem Imitates.ne {s t : List String} (h : Imitates t s) : t ≠ s := by
  induction h with
  | @here scope inner after inside _ _ _ =>
    intro heq
    have hlength := congrArg String.length (List.cons.inj heq).1
    have hcolons : "::".length = 2 := rfl
    rw [String.length_append, String.length_append] at hlength
    omega
  | deeper around _ ih => exact fun heq => ih (List.cons.inj heq).2

theorem Imitates.pathText_eq {s t : List String} (h : Imitates t s) : pathText t = pathText s := by
  apply String.toList_inj.mp
  induction h with
  | @here scope inner after inside _ hinside h =>
    obtain ⟨next, rest, rfl⟩ := List.exists_cons_of_ne_nil hinside
    have htext := congrArg String.toList h
    rw [toList_pathText_cons inner] at htext
    rw [toList_pathText_cons, toList_pathText_cons, behindSegment_cons, ← htext,
      String.toList_append, String.toList_append]
    simp
  | @deeper s t around h ih =>
    rw [toList_pathText_cons, toList_pathText_cons]
    cases h <;> rw [behindSegment_cons, behindSegment_cons, ih]

theorem pathText_eq_of_behindSegment_eq {s t : List String}
    (h : behindSegment s = behindSegment t) : pathText s = pathText t := by
  cases s with
  | nil =>
    cases t with
    | nil => rfl
    | cons b t => cases h
  | cons a s =>
    cases t with
    | nil => cases h
    | cons b t =>
      rw [behindSegment_cons, behindSegment_cons] at h
      exact String.toList_inj.mp (List.cons.inj (List.cons.inj h).2).2

theorem head?_pathText_ne_colon {s : List String} (hs : ∀ a ∈ s, IsSegment a) :
    (pathText s).toList.head? ≠ some ':' := by
  cases s with
  | nil => decide
  | cons a s =>
    obtain ⟨c, rest, ha, hc⟩ := (hs a List.mem_cons_self).exists_cons
    rw [toList_pathText_cons, ha]
    exact fun h => hc (Option.some.inj h)

/-- Of two qualified names with the same text, the one with the longer first segment imitates the
other. -/
theorem imitates_of_longer {a b : String} {s t : List String} (ha : IsSegment a) (hb : IsSegment b)
    (hs : ∀ x ∈ s, IsSegment x) {c : Char} {more : List Char}
    (hlonger : b.toList = a.toList ++ c :: more)
    (htext : behindSegment s = c :: more ++ behindSegment t) : Imitates (b :: t) (a :: s) := by
  have hinside : s ≠ [] := by
    rintro rfl
    cases htext
  obtain ⟨next, rest, rfl⟩ := List.exists_cons_of_ne_nil hinside
  rw [behindSegment_cons] at htext
  obtain ⟨rfl, hafter⟩ := List.cons.inj htext
  cases more with
  | nil =>
    -- A single colon more would leave one for the segment behind it to begin with.
    exfalso
    cases t with
    | nil => cases hafter
    | cons d t =>
      rw [behindSegment_cons] at hafter
      have htail := (List.cons.inj hafter).2
      apply head?_pathText_ne_colon hs
      rw [htail]
      rfl
  | cons d inner =>
    obtain ⟨rfl, htail⟩ := List.cons.inj hafter
    have hcolon : ':' ∈ b.toList := hlonger ▸ List.mem_append_right _ List.mem_cons_self
    have hscope : IsOperatorName a :=
      isOperatorName_of_append ha.ne_operator (hb.isOperatorName_of_colon_mem hcolon) hlonger
    obtain rfl : b = a ++ "::" ++ String.ofList inner := by
      apply String.toList_inj.mp
      rw [hlonger, String.toList_append, String.toList_append, String.toList_ofList (l := inner),
        List.append_assoc]
      rfl
    refine .here hscope hinside (String.toList_inj.mp ?_)
    rw [toList_pathText_cons, String.toList_ofList (l := inner), htail]
    rfl

theorem eq_or_imitates_of_pathText_eq {s t : List String} (hs : ∀ a ∈ s, IsSegment a)
    (ht : ∀ b ∈ t, IsSegment b) (h : pathText s = pathText t) :
    s = t ∨ Imitates s t ∨ Imitates t s := by
  have hne {a : String} {s : List String} (ha : IsSegment a) : pathText (a :: s) ≠ "" := by
    intro h
    obtain ⟨c, rest, hchars, -⟩ := ha.exists_cons
    have htext := congrArg String.toList h
    rw [toList_pathText_cons, hchars] at htext
    cases htext
  -- By induction on one of the paths, as long as both go on with the same segment.
  induction s generalizing t with
  | nil =>
    cases t with
    | nil => exact .inl rfl
    | cons b t => exact absurd h.symm (hne (ht b List.mem_cons_self))
  | cons a s ih =>
    cases t with
    | nil => exact absurd h (hne (hs a List.mem_cons_self))
    | cons b t =>
      rw [List.forall_mem_cons] at hs ht
      have htext := congrArg String.toList h
      rw [toList_pathText_cons, toList_pathText_cons] at htext
      by_cases hab : a = b
      · subst hab
        have hrest := pathText_eq_of_behindSegment_eq (List.append_cancel_left htext)
        rcases ih hs.2 ht.2 hrest with rfl | hst | hts
        · exact .inl rfl
        · exact .inr (.inl (.deeper a hst))
        · exact .inr (.inr (.deeper a hts))
      · -- The names part here, so that one of the two segments is longer.
        rcases List.append_eq_append_iff.mp htext with ⟨more, hb, hmore⟩ | ⟨more, ha, hmore⟩
        · cases more with
          | nil =>
            rw [List.append_nil] at hb
            exact absurd (String.toList_inj.mp hb.symm) hab
          | cons c more => exact .inr (.inr (imitates_of_longer hs.1 ht.1 hs.2 hb hmore))
        · cases more with
          | nil =>
            rw [List.append_nil] at ha
            exact absurd (String.toList_inj.mp ha) hab
          | cons c more => exact .inr (.inl (imitates_of_longer ht.1 hs.1 ht.2 ha hmore))

/-- Two qualified names have the same text exactly if they are the same or one imitates the
other. -/
theorem pathText_eq_iff {s t : List String} (hs : ∀ a ∈ s, IsSegment a)
    (ht : ∀ b ∈ t, IsSegment b) :
    pathText s = pathText t ↔ s = t ∨ Imitates s t ∨ Imitates t s := by
  constructor
  · exact eq_or_imitates_of_pathText_eq hs ht
  · rintro (rfl | h | h)
    · rfl
    · exact h.pathText_eq
    · exact h.pathText_eq.symm

end HeaderSynopsis.Manifest
