import HeaderSynopsis.Writing.Write

namespace HeaderSynopsis.Writing

open Declaration

inductive LineState where
  -- Nothing.
  | blank
  -- Only empty texts.
  | hollow
  | begun
deriving DecidableEq, Repr

namespace LineState

def put (text : String) : LineState → LineState
  | .begun => .begun
  | _ => if text = "" then .hollow else .begun

/-- The line after a step of writing. A hollow line may not end, nor have its level lowered. -/
def next? : Write → LineState → Option LineState
  | .token _ text, s => some (s.put text)
  | .reference _ name, s => some (s.put name)
  | .space, _ => some .begun
  | .indent, s => some s
  | .lineBreak, s => if s = .hollow then none else some .blank
  | .unindent, s => if s = .hollow then none else some s

def run? : List Write → LineState → Option LineState
  | [], s => some s
  | w :: ws, s => (next? w s).bind (run? ws)

theorem run?_append (ws vs : List Write) (s : LineState) :
    run? (ws ++ vs) s = (run? ws s).bind (run? vs) := by
  induction ws generalizing s with
  | nil => rfl
  | cons w ws ih =>
    rw [List.cons_append, run?, run?, Option.bind_assoc]
    exact congrArg _ (funext ih)

def Settled (s : LineState) : Prop := s ≠ .hollow

def Begun (s : LineState) : Prop := s = .begun

end LineState

open LineState

def Leads (before : LineState → Prop) (ws : List Write) (after : LineState → Prop) : Prop :=
  ∀ s, before s → ∃ s', run? ws s = some s' ∧ after s'

namespace Leads

variable {before middle after : LineState → Prop} {ws vs : List Write}

theorem nil (h : ∀ s, before s → after s) : Leads before [] after :=
  fun s hs => ⟨s, rfl, h s hs⟩

theorem append (h : Leads before ws middle) (h' : Leads middle vs after) :
    Leads before (ws ++ vs) after := by
  intro s hs
  obtain ⟨s₁, hr, hm⟩ := h s hs
  obtain ⟨s₂, hr', ha⟩ := h' s₁ hm
  exact ⟨s₂, by rw [run?_append, hr, Option.bind_some, hr'], ha⟩

theorem flatMap {α : Type} {parts : List α} {writes : α → List Write}
    (h : ∀ part ∈ parts, Leads before (writes part) before) :
    Leads before (parts.flatMap writes) before := by
  induction parts with
  | nil => exact nil fun _ hs => hs
  | cons part rest ih =>
    rw [List.flatMap_cons]
    exact (h part List.mem_cons_self).append (ih fun p hp => h p (List.mem_cons_of_mem _ hp))

end Leads

end HeaderSynopsis.Writing
