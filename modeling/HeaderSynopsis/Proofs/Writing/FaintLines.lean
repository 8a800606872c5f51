import HeaderSynopsis.Writing.Write
import Mathlib.Data.List.Basic

/-!
Lines of spaces and tabs. A text is faint if it is not empty and nothing in it can be seen. While
steps of writing are followed, the faint lines that have ended are collected. `Leaves` is a triple
about the current line and about the lines that are left behind.
-/

namespace HeaderSynopsis.Text

def isVisible (cs : List Char) : Bool := cs.any fun c => c ≠ ' ' && c ≠ '\t'

/-- A text of spaces and tabs only, but not an empty one. -/
def Faint (cs : List Char) : Prop := cs ≠ [] ∧ isVisible cs = false

instance (cs : List Char) : Decidable (Faint cs) := inferInstanceAs (Decidable (_ ∧ _))

def faintOf (lines : List String) : List String := lines.filter fun line => Faint line.toList

theorem isVisible_append (cs ds : List Char) :
    isVisible (cs ++ ds) = (isVisible cs || isVisible ds) := List.any_append

theorem faintOf_append (lines later : List String) :
    faintOf (lines ++ later) = faintOf lines ++ faintOf later := List.filter_append ..

theorem faintOf_eq_nil_iff {lines : List String} :
    faintOf lines = [] ↔ ∀ line ∈ lines, ¬Faint line.toList := by
  simp [faintOf]

end HeaderSynopsis.Text

namespace HeaderSynopsis.Writing

open Declaration Text

inductive LineLook where
  -- Nothing.
  | blank
  -- Only empty texts.
  | hollow
  -- A text of spaces and tabs.
  | faint (text : String)
  -- More than that.
  | visible
deriving DecidableEq, Repr

namespace LineLook

def put (text : String) : LineLook → LineLook
  | .visible => .visible
  | .faint before => if isVisible text.toList then .visible else .faint (before ++ text)
  | .blank | .hollow =>
      if isVisible text.toList then .visible else if text = "" then .hollow else .faint text

/-- The lines that the end of the line adds to the faint ones. A hollow line may not end. -/
def ended? : LineLook → Option (List String)
  | .hollow => none
  | .faint text => some [text]
  | .blank | .visible => some []

def Any (_ : LineLook) : Prop := True

def Seen (seen : Bool) (line : LineLook) : Prop := line = if seen then .visible else .blank

def Ends (lines : List String) (line : LineLook) : Prop := line.ended? = some (faintOf lines)

theorem Seen.any {seen : Bool} {line : LineLook} (_ : Seen seen line) : Any line := trivial

theorem Seen.ends {seen : Bool} {line : LineLook} (h : Seen seen line) : Ends [] line := by
  rw [Seen] at h
  rw [h]
  cases seen <;> rfl

theorem put_of_isVisible {text : String} (h : isVisible text.toList = true) (line : LineLook) :
    line.put text = .visible := by
  cases line <;> simp [put, h]

end LineLook

structure Survey where
  line : LineLook := .blank
  faint : List String := []
deriving DecidableEq, Repr

namespace Survey

def put (s : Survey) (text : String) : Survey := { s with line := s.line.put text }

/-- After a step of writing. A hollow line may not have its level lowered either. -/
def next? : Write → Survey → Option Survey
  | .token _ text, s => some (s.put text)
  | .reference _ name, s => some (s.put name)
  | .space, s => some (s.put " ")
  | .indent, s => some s
  | .unindent, s => if s.line = .hollow then none else some s
  | .lineBreak, s => s.line.ended?.map fun ended => ⟨.blank, s.faint ++ ended⟩

def run? : List Write → Survey → Option Survey
  | [], s => some s
  | w :: ws, s => (next? w s).bind (run? ws)

theorem run?_append (ws vs : List Write) (s : Survey) :
    run? (ws ++ vs) s = (run? ws s).bind (run? vs) := by
  induction ws generalizing s with
  | nil => rfl
  | cons w ws ih =>
    rw [List.cons_append, run?, run?, Option.bind_assoc]
    exact congrArg _ (funext ih)

end Survey

open Survey LineLook

/-- From every line in `before` the steps can be taken and end on a line in `after`. The faint lines
that they end are those among `lines`. -/
def Leaves (before : LineLook → Prop) (ws : List Write) (lines : List String)
    (after : LineLook → Prop) : Prop :=
  ∀ s : Survey, before s.line →
    ∃ line, run? ws s = some ⟨line, s.faint ++ faintOf lines⟩ ∧ after line

def Write.isInline : Write → Bool
  | .lineBreak | .unindent => false
  | _ => true

def Write.isSeen : Write → Bool
  | .token _ text => isVisible text.toList
  | .reference _ name => isVisible name.toList
  | _ => false

/-- A step within the line changes nothing else, and what can be seen stays. -/
theorem Survey.next?_of_isInline {w : Write} (h : w.isInline = true) (s : Survey) :
    ∃ line, next? w s = some { s with line } ∧ (s.line = .visible → line = .visible) := by
  have hput (text : String) (hs : s.line = .visible) : s.line.put text = .visible := by
    rw [hs]
    rfl
  cases w with
  | token kind text => exact ⟨_, rfl, hput text⟩
  | reference targets name => exact ⟨_, rfl, hput name⟩
  | space => exact ⟨_, rfl, hput " "⟩
  | indent => exact ⟨s.line, rfl, id⟩
  | lineBreak => exact absurd h Bool.false_ne_true
  | unindent => exact absurd h Bool.false_ne_true

namespace Leaves

variable {before middle after : LineLook → Prop} {ws vs : List Write} {lines later : List String}

theorem nil (h : ∀ line, before line → after line) : Leaves before [] [] after := by
  intro s hs
  exact ⟨s.line, by rw [run?, faintOf, List.filter_nil, List.append_nil], h _ hs⟩

theorem append (h : Leaves before ws lines middle) (h' : Leaves middle vs later after) :
    Leaves before (ws ++ vs) (lines ++ later) after := by
  intro s hs
  obtain ⟨line, hrun, hmiddle⟩ := h s hs
  obtain ⟨line', hrun', hafter⟩ := h' ⟨line, s.faint ++ faintOf lines⟩ hmiddle
  refine ⟨line', ?_, hafter⟩
  rw [run?_append, hrun, Option.bind_some, hrun', faintOf_append, List.append_assoc]

/-- Steps behind others that leave no lines themselves. -/
theorem append_nil (h : Leaves before ws lines middle) (h' : Leaves middle vs [] after) :
    Leaves before (ws ++ vs) lines after := by
  have hboth := h.append h'
  rwa [List.append_nil] at hboth

theorem weaken {before' after' : LineLook → Prop} (h : Leaves before ws lines after)
    (hb : ∀ line, before' line → before line) (ha : ∀ line, after line → after' line) :
    Leaves before' ws lines after' := by
  intro s hs
  obtain ⟨line, hrun, hafter⟩ := h s (hb _ hs)
  exact ⟨line, hrun, ha line hafter⟩

/-- What the end of a line leaves is known from the line. -/
theorem lineBreak : Leaves (Ends lines) [.lineBreak] lines (Seen false) := by
  intro s hs
  rw [Ends] at hs
  exact ⟨.blank, by rw [run?, next?, hs]; rfl, rfl⟩

/-- A line that is blank or can be seen is not left behind. -/
theorem lineBreak_seen (seen : Bool) : Leaves (Seen seen) [.lineBreak] [] (Seen false) :=
  lineBreak.weaken (fun _ => Seen.ends) fun _ => id

theorem unindent (seen : Bool) : Leaves (Seen seen) [.unindent] [] (Seen seen) := by
  intro s hs
  have hsettled : s.line ≠ .hollow := by
    rw [Seen] at hs
    rw [hs]
    cases seen <;> exact LineLook.noConfusion
  exact ⟨s.line, by rw [run?, next?, if_neg hsettled, faintOf, List.filter_nil, List.append_nil]; rfl,
    hs⟩

theorem of_next? {w : Write} (h : ∀ s : Survey, before s.line →
    ∃ line, next? w s = some { s with line } ∧ after line) : Leaves before [w] [] after := by
  intro s hs
  obtain ⟨line, hnext, hafter⟩ := h s hs
  refine ⟨line, ?_, hafter⟩
  rw [run?, hnext, Option.bind_some, run?, faintOf, List.filter_nil, List.append_nil]

/-- Steps that each keep what is known of the line keep it together. -/
theorem forall_mem (h : ∀ w ∈ ws, Leaves before [w] [] before) : Leaves before ws [] before := by
  induction ws with
  | nil => exact nil fun _ => id
  | cons w ws ih =>
    rw [List.forall_mem_cons] at h
    exact h.1.append (ih h.2)

/-- Steps within the line can always be taken. -/
theorem of_isInline (h : ws.all Write.isInline = true) : Leaves before ws [] Any := by
  have hany : Leaves Any ws [] Any := by
    apply forall_mem
    intro w hw
    refine of_next? fun s _ => ?_
    obtain ⟨line, hnext, -⟩ := next?_of_isInline (List.all_eq_true.mp h w hw) s
    exact ⟨line, hnext, trivial⟩
  exact hany.weaken (fun _ _ => trivial) fun _ => id

/-- A line on which something can be seen stays such a line. -/
theorem of_visible (h : ws.all Write.isInline = true) : Leaves (Seen true) ws [] (Seen true) := by
  apply forall_mem
  intro w hw
  refine of_next? fun s hs => ?_
  obtain ⟨line, hnext, hkeeps⟩ := next?_of_isInline (List.all_eq_true.mp h w hw) s
  exact ⟨line, hnext, hkeeps hs⟩

/-- Steps within the line make it visible as soon as one of them is. -/
theorem of_isSeen (hi : ws.all Write.isInline = true) (hv : ws.any Write.isSeen = true) :
    Leaves before ws [] (Seen true) := by
  obtain ⟨w, hw, hseen⟩ := List.any_eq_true.mp hv
  obtain ⟨first, last, rfl⟩ := List.append_of_mem hw
  rw [List.all_append, List.all_cons, Bool.and_eq_true, Bool.and_eq_true] at hi
  have hstep : Leaves Any [w] [] (Seen true) := by
    refine of_next? fun s _ => ?_
    cases w with
    | token kind text => exact ⟨_, rfl, put_of_isVisible hseen _⟩
    | reference targets name => exact ⟨_, rfl, put_of_isVisible hseen _⟩
    | _ => exact absurd hseen Bool.false_ne_true
  have hfirst : Leaves before first [] Any := of_isInline hi.1
  exact hfirst.append (hstep.append (of_visible hi.2.2))

/-- A text, if it is not empty, has the line to itself unless something can be seen before it. -/
theorem run (kind : TokenKind) (text : String) (seen : Bool) :
    Leaves (Seen seen) (if text = "" then [] else [.token kind text]) []
      (Ends (if seen then [] else [text])) := by
  split
  · rename_i hempty
    subst hempty
    refine nil fun line hline => ?_
    have hends := hline.ends
    cases seen <;> exact hends
  · rename_i hne
    refine of_next? fun s hs => ⟨s.line.put text, rfl, ?_⟩
    rw [Seen] at hs
    rw [hs, Ends]
    cases seen with
    | true => rfl
    | false =>
      by_cases hv : isVisible text.toList = true
      · simp [LineLook.put, hv, ended?, faintOf, Faint]
      · simp [LineLook.put, hv, hne, ended?, faintOf, Faint]

theorem flatMap {α : Type} {parts : List α} {writes : α → List Write} {lines : α → List String}
    (h : ∀ part ∈ parts, Leaves before (writes part) (lines part) before) :
    Leaves before (parts.flatMap writes) (parts.flatMap lines) before := by
  induction parts with
  | nil => exact nil fun _ => id
  | cons part rest ih =>
    rw [List.flatMap_cons, List.flatMap_cons]
    exact (h part List.mem_cons_self).append (ih fun p hp => h p (List.mem_cons_of_mem _ hp))

theorem optional {α : Type} {value : Option α} {writes : α → List Write} {lines : α → List String}
    (hnil : ∀ line, before line → after line) (h : ∀ a, Leaves before (writes a) (lines a) after) :
    Leaves before ((value.map writes).getD []) ((value.map lines).getD []) after := by
  cases value with
  | none => exact nil hnil
  | some a => exact h a

/-- Items with commas between them. Each begins on a line on which something can be seen. -/
theorem separated {α : Type} {items : List α} {writes : α → List Write} {lines : α → List String}
    (h : ∀ item ∈ items, Leaves (Seen true) (writes item) (lines item) Any) :
    Leaves (Seen true) (Writing.separated (items.map writes)) (items.flatMap lines) Any := by
  induction items with
  | nil => exact nil fun _ => Seen.any
  | cons item rest ih =>
    have hitem := h item List.mem_cons_self
    have hrest := ih fun i hi => h i (List.mem_cons_of_mem _ hi)
    cases rest with
    | nil =>
      rw [Writing.separated, List.map_singleton, List.intercalate_singleton, List.flatMap_singleton]
      exact hitem
    | cons next others =>
      have hcomma : Leaves Any commaWrites [] (Seen true) := of_isSeen rfl rfl
      rw [Writing.separated, List.map_cons, List.map_cons, List.intercalate_cons_cons,
        List.flatMap_cons]
      exact (hitem.append_nil hcomma).append hrest

end Leaves

end HeaderSynopsis.Writing
