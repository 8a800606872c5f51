import HeaderSynopsis.Proofs.Output.Exclusion
import HeaderSynopsis.Proofs.Output.RecordedWrites

namespace HeaderSynopsis.Writing

def Write.isVisible : Write → Bool
  | .indent | .unindent => false
  | _ => true

end HeaderSynopsis.Writing

namespace HeaderSynopsis.Output

open Declaration Writing Generation

def Event.isVisible (event : Event) : Bool := event.write?.any Write.isVisible

def lastVisible? (events : Located Event) : Option (Position × Event) :=
  (events.filter (·.2.isVisible)).getLast?

def FreshLine (events : Located Event) : Prop :=
  ∀ last ∈ lastVisible? events, last.2 = .write .lineBreak

theorem lastVisible?_append (events later : Located Event) :
    lastVisible? (events ++ later) = (lastVisible? later).or (lastVisible? events) := by
  rw [lastVisible?, List.filter_append, List.getLast?_append]
  rfl

/-- The last visible event is one of those with steps of writing. -/
theorem map_snd_lastVisible? (events : Located Event) :
    (lastVisible? events).map Prod.snd =
      ((recordedWrites events).filter Write.isVisible).getLast?.map .write := by
  have hvisible : (events.filter (·.2.isVisible)).map Prod.snd =
      ((recordedWrites events).filter Write.isVisible).map .write := by
    induction events with
    | nil => rfl
    | cons thing rest ih =>
      obtain ⟨position, event⟩ := thing
      cases event with
      | write w => cases hw : w.isVisible <;> simp_all [recordedWrites, Event.isVisible, Event.write?]
      | _ => exact ih
  rw [lastVisible?, ← List.getLast?_map, hvisible, List.getLast?_map]

/-- After whole lines the line is fresh. -/
theorem FreshLine.of_wholeLines {events : Located Event} (h : WholeLines (recordedWrites events)) :
    FreshLine events := by
  intro last hlast
  have hmap := map_snd_lastVisible? events
  rw [Option.mem_def.mp hlast] at hmap
  rcases h with hnil | ⟨ws, hws⟩
  · rw [hnil] at hmap
    exact absurd hmap (by simp)
  · rw [hws, List.filter_append] at hmap
    simpa [Write.isVisible] using hmap

/-- On a line that is fresh after some events, whatever is visible among these is followed by a
break of the line or is one. -/
theorem FreshLine.mem_lineBreak {before between : Located Event} {position : Position}
    {event : Event} (h : FreshLine (before ++ (position, event) :: between))
    (he : event.isVisible = true) :
    .write .lineBreak ∈ event :: between.map Prod.snd := by
  rw [FreshLine, lastVisible?_append] at h
  have hsome : (lastVisible? ((position, event) :: between)).isSome = true := by
    simp [lastVisible?, he]
  obtain ⟨last, hlast⟩ := Option.isSome_iff_exists.mp hsome
  rw [hlast, Option.some_or] at h
  have hm := List.mem_of_getLast? hlast
  rw [← h last rfl]
  exact List.mem_map_of_mem (f := Prod.snd) (List.mem_of_mem_filter hm)

/-- A list that is cut in two is cut behind two of its members, between them or before them. -/
theorem cut_around {α : Type} {front back before between after : List α} {x y : α}
    (h : front ++ back = before ++ x :: between ++ y :: after) :
    (∃ rest, front = before ++ x :: between ++ y :: rest) ∨
      (∃ inner rest, front = before ++ x :: inner ∧ between = inner ++ rest) ∨
      ∃ start, back = start ++ x :: between ++ y :: after := by
  rw [List.append_assoc, List.append_eq_append_iff] at h
  rcases h with ⟨start, -, hback⟩ | ⟨front', rfl, hfront⟩
  · exact Or.inr (Or.inr ⟨start, by rw [hback, List.append_assoc]⟩)
  rw [List.cons_append] at hfront
  rcases List.cons_eq_append_iff.mp hfront with ⟨rfl, hback⟩ | ⟨front', rfl, hrest⟩
  · exact Or.inr (Or.inr ⟨[], by rw [hback]; rfl⟩)
  rcases List.append_eq_append_iff.mp hrest with ⟨inner, rfl, hback⟩ | ⟨rest, rfl, -⟩
  · rcases List.cons_eq_append_iff.mp hback with ⟨rfl, -⟩ | ⟨rest, rfl, -⟩
    · exact Or.inr (Or.inl ⟨between, [], by rw [List.append_nil], by rw [List.append_nil]⟩)
    · exact Or.inl ⟨rest, by simp⟩
  · exact Or.inr (Or.inl ⟨front', rest, rfl, rfl⟩)

section

variable {α : Type} {front part back before between after : List α} {x y : α}
  (h : front ++ part ++ back = before ++ x :: between ++ y :: after)

include h

/-- Behind a part that the second of two members is not in, but only the first one, the list is cut
between them. -/
theorem cut_behind_part (hf : x ∉ front) (hb : x ∉ back) (hp : y ∉ part) :
    ∃ inner rest, front ++ part = before ++ x :: inner ∧ between = inner ++ rest := by
  rcases cut_around h with ⟨rest, hearlier⟩ | hbetween | ⟨start, rfl⟩
  · rcases cut_around hearlier with ⟨rest, rfl⟩ | ⟨inner, rest, rfl, -⟩ | ⟨start, rfl⟩
    · exact absurd (by simp) hf
    · exact absurd (by simp) hf
    · exact absurd (by simp) hp
  · exact hbetween
  · exact absurd (by simp) hb

/-- Before a part that the first of two members is not in, but only the second one, the list is cut
between them. -/
theorem cut_before_part (hf : y ∉ front) (hb : y ∉ back) (hp : x ∉ part) :
    ∃ inner rest, front = before ++ x :: inner ∧ between = inner ++ rest := by
  rw [List.append_assoc front] at h
  rcases cut_around h with ⟨rest, rfl⟩ | hbetween | ⟨start, hlater⟩
  · exact absurd (by simp) hf
  · exact hbetween
  · rcases cut_around hlater with ⟨rest, rfl⟩ | ⟨inner, rest, rfl, -⟩ | ⟨start, rfl⟩
    · exact absurd (by simp) hp
    · exact absurd (by simp) hp
    · exact absurd (by simp) hb

end

namespace Recorder

variable {r : Recorder} {root entity : Entity} {position : Position}

/-- Events of a tree, each with the position of the entity that it belongs to, keep every entity on
lines of its own. -/
structure OwnLines (r : Recorder) (root : Entity) (events : Located Event) : Prop where
  -- Every decision is asked for on a fresh line.
  fresh : ∀ before position event after, events = before ++ (position, event) :: after →
    event.decided?.isSome → FreshLine before
  -- An entity below the root that is not omitted ends its line itself.
  ended : ∀ position entity, r.Reaches root position entity → r.detail entity.id ≠ .omitted →
    position ≠ [] → lastVisible? (events.within position) = some (position, .write .lineBreak)
  -- An entity that is omitted has nothing on any line, and nor has anything below it.
  omitted : ∀ position entity, root.descendant? position = some entity →
    r.detail entity.id = .omitted → lastVisible? (events.within position) = none
  -- Between what two entities put on lines there is a break.
  apart : ∀ before position event between other later after,
    events = before ++ (position, event) :: between ++ (other, later) :: after →
    event.isVisible → later.isVisible → position ≠ other →
    .write .lineBreak ∈ event :: between.map Prod.snd

/-- Below an orderly root no position leads to a file. -/
theorem ne_file_of_reaches (h : ∀ e ∈ root.walk, e.Orderly)
    (hreaches : r.Reaches root position entity) (hp : position ≠ []) :
    entity.kind.word ≠ "file" := by
  induction position generalizing root with
  | nil => exact absurd rfl hp
  | cons index rest ih =>
    obtain ⟨-, child, hchild, hbelow⟩ := reaches_cons.mp hreaches
    have hm := List.mem_of_getElem? hchild
    cases rest with
    | nil =>
      obtain rfl := Option.some.inj hbelow.leads
      exact (h root root.self_mem_walk).noFile _ hm
    | cons next later =>
      exact ih (fun e he => h e (Entity.mem_walk_of_child hm he)) hbelow (List.cons_ne_nil _ _)

theorem lastVisible?_steps_lineBreak (position : Position) (ws : List Write) :
    lastVisible? (steps position (ws ++ [.lineBreak])) = some (position, .write .lineBreak) := by
  rw [steps, List.map_append]
  exact lastVisible?_append _ _

/-- Whatever follows the steps of an entity, its last visible event is the break of its line. -/
theorem lastVisible?_of_lineEnd (hf : entity.kind.word ≠ "file") {before after : Located Event}
    (ws : List Write) (ha : lastVisible? after = none) :
    lastVisible? (before ++ steps position (ws ++ entity.lineEnd) ++ after) =
      some (position, .write .lineBreak) := by
  rw [Entity.lineEnd_eq hf, lastVisible?_append, lastVisible?_append, ha,
    lastVisible?_steps_lineBreak]
  rfl

theorem lastVisible?_within (h : ∀ e ∈ root.walk, e.Orderly)
    (hreaches : r.Reaches root position entity) (hd : r.detail entity.id ≠ .omitted)
    (hp : position ≠ []) :
    lastVisible? ((r.locatedEvents root).within position) = some (position, .write .lineBreak) := by
  have hf := ne_file_of_reaches h hreaches hp
  have hprotocol := r.protocol_locatedEvents root
  have hend : lastVisible? [(position, .containerEnd entity.id)] = none := rfl
  by_cases hc : entity.isContainer = true
  · cases hdetail : r.detail entity.id with
    | omitted => exact absurd hdetail hd
    | declaration =>
      rw [hprotocol.declaration position entity hreaches hdetail hc, ← List.singleton_append]
      exact lastVisible?_of_lineEnd hf _ hend
    | definition =>
      rw [hprotocol.definition position entity hreaches hdetail hc]
      exact lastVisible?_of_lineEnd hf _ hend
  · rw [hprotocol.leaf position entity hreaches hd (Bool.eq_false_iff.mpr hc),
      ← List.singleton_append, ← List.append_nil (_ ++ steps _ _)]
    exact lastVisible?_of_lineEnd hf _ rfl

theorem lastVisible?_of_omitted (hleads : root.descendant? position = some entity)
    (hd : r.detail entity.id = .omitted) :
    lastVisible? ((r.locatedEvents root).within position) = none := by
  have hprotocol := r.protocol_locatedEvents root
  by_cases hreached : ∃ e, r.Reaches root position e
  · obtain ⟨e, hreaches⟩ := hreached
    obtain rfl := Option.some.inj (hleads.symm.trans hreaches.leads)
    rw [hprotocol.omitted position entity hreaches hd]
    cases entity.isContainer <;> rfl
  · rw [hprotocol.unreached position (not_exists.mp hreached)]
    rfl

theorem freshLine_of_decision (h : ∀ e ∈ root.walk, e.Orderly) {before after : Located Event}
    {event : Event} (hsplit : r.locatedEvents root = before ++ (position, event) :: after)
    (hd : event.decided?.isSome) : FreshLine before := by
  obtain ⟨⟨entity, hreaches⟩, hbefore⟩ := split_at_decision hsplit hd
  refine .of_wholeLines ?_
  rw [hbefore]
  exact wholeLines_writtenBefore h hreaches

/-- The events of an entity that is reached begin with its decision. -/
theorem within_eq_cons (hreaches : r.Reaches root position entity) :
    ∃ later, (r.locatedEvents root).within position =
      (position, .of (.enter entity.isContainer entity)) :: later := by
  rw [within_locatedEvents hreaches, located_eq, Located.below, List.map_cons, List.map_cons,
    List.append_nil]
  exact ⟨_, rfl⟩

/-- Whoever has an event is reached. -/
theorem exists_reaches_of_mem {event : Event} (h : (position, event) ∈ r.locatedEvents root) :
    ∃ entity, r.Reaches root position entity := by
  by_contra hnone
  have hnil := (r.protocol_locatedEvents root).unreached position (not_exists.mp hnone)
  exact List.filter_eq_nil_iff.mp hnil _ h (by simp)

/-- Behind all events of an entity that has a visible one the line is fresh. -/
theorem freshLine_behind (h : ∀ e ∈ root.walk, e.Orderly) {event : Event}
    (hm : (position, event) ∈ r.locatedEvents root) (he : event.isVisible = true)
    (hp : position ≠ []) (front : Located Event) :
    FreshLine (front ++ (r.locatedEvents root).within position) := by
  obtain ⟨entity, hreaches⟩ := exists_reaches_of_mem hm
  have hd : r.detail entity.id ≠ .omitted := by
    intro hd
    have hnone := List.getLast?_eq_none_iff.mp (lastVisible?_of_omitted hreaches.leads hd)
    have hwithin : (position, event) ∈ (r.locatedEvents root).within position := by
      simp [Located.within, hm]
    exact List.filter_eq_nil_iff.mp hnone _ hwithin he
  intro last hlast
  rw [lastVisible?_append, lastVisible?_within h hreaches hd hp, Option.some_or] at hlast
  obtain rfl := Option.some.inj hlast
  rfl

/-- Whatever comes before or behind all events at a position is at none that this one leads to. -/
theorem exists_outside_within (r : Recorder) (root : Entity) (position : Position) :
    ∃ front back, front ++ (r.locatedEvents root).within position ++ back = r.locatedEvents root ∧
      ∀ other event, position <+: other → (other, event) ∉ front ∧ (other, event) ∉ back := by
  obtain ⟨front, back, hcut⟩ := (r.protocol_locatedEvents root).contiguous position
  obtain ⟨hfront, hback⟩ := Located.outside_within hcut.symm
  refine ⟨front, back, hcut, fun other event hp => ⟨fun hm => ?_, fun hm => ?_⟩⟩
  · exact List.filter_eq_nil_iff.mp hfront _ hm (by simpa using hp)
  · exact List.filter_eq_nil_iff.mp hback _ hm (by simpa using hp)

/-- Between the events of two entities that are visible the line is broken: the one that is below
the other ends its line, or the second one begins on a fresh line. -/
theorem lineBreak_between (h : ∀ e ∈ root.walk, e.Orderly) {before between after : Located Event}
    {other : Position} {event later : Event}
    (hsplit : r.locatedEvents root =
      before ++ (position, event) :: between ++ (other, later) :: after)
    (he : event.isVisible = true) (hne : position ≠ other) :
    .write .lineBreak ∈ event :: between.map Prod.snd := by
  -- It is enough that the line is fresh at some point between the two, as something visible stands
  -- before that point.
  suffices hfresh : ∃ inner rest, FreshLine (before ++ (position, event) :: inner) ∧
      between = inner ++ rest by
    obtain ⟨inner, rest, hline, rfl⟩ := hfresh
    have hm := hline.mem_lineBreak he
    rw [List.map_append, ← List.cons_append]
    exact List.mem_append_left _ hm
  have hoff {above below : Position} {shown : Event} (hnot : ¬above <+: below) :
      (below, shown) ∉ (r.locatedEvents root).within above :=
    fun hm => hnot (by simpa using (List.mem_filter.mp hm).2)
  -- If the first entity is inside the other one, the point is where the first one ends, and
  -- otherwise it is where the other one begins.
  by_cases hbelow : other <+: position
  · obtain ⟨front, back, hcut, houtside⟩ := exists_outside_within r root position
    obtain ⟨hfront, hback⟩ := houtside position event (List.prefix_refl _)
    have hnot : ¬position <+: other := fun hp => hne (hp.eq_of_length_le hbelow.length_le)
    obtain ⟨inner, rest, hends, hbetween⟩ :=
      cut_behind_part (hcut.trans hsplit) hfront hback (hoff hnot)
    have hm : (position, event) ∈ r.locatedEvents root := by simp [hsplit]
    have hp : position ≠ [] := by
      rintro rfl
      exact hne (List.prefix_nil.mp hbelow).symm
    have hline := freshLine_behind h hm he hp front
    exact ⟨inner, rest, hends ▸ hline, hbetween⟩
  · obtain ⟨front, back, hcut, houtside⟩ := exists_outside_within r root other
    obtain ⟨hfront, hback⟩ := houtside other later (List.prefix_refl _)
    obtain ⟨inner, rest, hends, hbetween⟩ :=
      cut_before_part (hcut.trans hsplit) hfront hback (hoff hbelow)
    have hm : (other, later) ∈ r.locatedEvents root := by simp [hsplit]
    obtain ⟨entity, hreaches⟩ := exists_reaches_of_mem hm
    obtain ⟨own, hown⟩ := within_eq_cons hreaches
    rw [hown] at hcut
    have hline : FreshLine front := by
      refine freshLine_of_decision h (by rw [← hcut, List.append_assoc]; rfl) ?_
      rw [Event.decided?_of_enter]
      rfl
    exact ⟨inner, rest, hends ▸ hline, hbetween⟩

theorem ownLines_locatedEvents (r : Recorder) (h : ∀ e ∈ root.walk, e.Orderly) :
    r.OwnLines root (r.locatedEvents root) where
  fresh _ _ _ _ hsplit hd := freshLine_of_decision h hsplit hd
  ended _ _ hreaches hd hp := lastVisible?_within h hreaches hd hp
  omitted _ _ hleads hd := lastVisible?_of_omitted hleads hd
  apart _ _ _ _ _ _ _ hsplit he _ hne := lineBreak_between h hsplit he hne

end Recorder

end HeaderSynopsis.Output

namespace HeaderSynopsis.Manifest.Loaded

open Declaration Writing Generation Output

/-- Whatever a recorder omits or reduces to declarations, its record of a manifest that loads keeps
every entity on lines of its own. -/
theorem record_keeps_own_lines {source : Source} {manifest : Loaded}
    (h : ofSource source = .ok manifest) (omitted declarations : List Id) :
    let r : Recorder := { omitted, declarations }
    r.record manifest.file = ((r.locatedEvents manifest.file).map Prod.snd, none) ∧
      r.OwnLines manifest.file (r.locatedEvents manifest.file) := by
  intro r
  exact ⟨r.record_eq_locatedEvents rfl manifest.file, r.ownLines_locatedEvents (orderly h)⟩

/-- With the label of a class left out, the member function behind it still ends its own line. -/
theorem record_keeps_own_lines_board :
    let r : Recorder := { omitted := [boardLabel.id] }
    ofSource boardSource = .ok board ∧
      lastVisible? ((r.locatedEvents board.file).within [0, 0]) = none ∧
      lastVisible? ((r.locatedEvents board.file).within [0, 1]) =
        some ([0, 1], .write .lineBreak) := by
  intro r
  obtain ⟨-, hlines⟩ := record_keeps_own_lines ofSource_boardSource [boardLabel.id] []
  have hclear : r.Reaches board.file [0, 1] boardClear := ⟨rfl, by decide⟩
  exact ⟨ofSource_boardSource, hlines.omitted [0, 0] boardLabel rfl (by decide),
    hlines.ended [0, 1] boardClear hclear (by decide) (by decide)⟩

end HeaderSynopsis.Manifest.Loaded
