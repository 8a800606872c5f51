import HeaderSynopsis.Proofs.Output.Layout
import HeaderSynopsis.Proofs.Writing.Depth

namespace HeaderSynopsis.Output

open Declaration Writing Generation Layout

variable {indentation : Indentation}

/-- A step that does not lead below zero changes the level of the next line as it says. -/
theorem nextLevel_write (indentation : Indentation) (w : Write) (l : Layout)
    (h : -(l.nextLevel : Int) ≤ depth [w]) :
    (((Layout.generator indentation).write w l).nextLevel : Int) = l.nextLevel + depth [w] := by
  have hput (text : String) :
      ((l.put indentation.unit text).nextLevel : Int) = l.nextLevel + 0 := by
    rw [put_nextLevel, Int.add_zero]
  cases w with
  | token kind text => exact hput text
  | reference targets name => exact hput name
  | space => exact hput " "
  | lineBreak => exact (Int.add_zero _).symm
  | indent => rfl
  | unindent =>
    change -(l.nextLevel : Int) ≤ -1 at h
    change ((l.nextLevel - 1 : Nat) : Int) = l.nextLevel + -1
    omega

/-- Steps that never lead below zero change the level of the next line by as much as they lead. -/
theorem nextLevel_writeAll (indentation : Indentation) {ws : List Write} {l : Layout}
    (h : StaysAbove (-(l.nextLevel : Int)) ws) :
    (((Layout.generator indentation).writeAll ws l).nextLevel : Int) = l.nextLevel + depth ws := by
  induction ws generalizing l with
  | nil => exact (Int.add_zero _).symm
  | cons w rest ih =>
    obtain ⟨hw, hrest⟩ := h.of_cons
    have hstep := nextLevel_write indentation w l hw
    have habove : StaysAbove (-(((Layout.generator indentation).write w l).nextLevel : Int)) rest :=
      hrest.weaken (by omega)
    rw [Generator.writeAll_cons, ih habove, hstep, depth_cons w rest, Int.add_assoc]

/-- Steps that are paired leave the level of the next line as it is. -/
theorem nextLevel_of_paired {inside : Bool} {ws : List Write} (h : Paired inside ws) (l : Layout)
    (hl : inside = true → l.nextLevel ≠ 0) :
    ((Layout.generator indentation).writeAll ws l).nextLevel = l.nextLevel := by
  have habove : StaysAbove (-(l.nextLevel : Int)) ws := by
    refine h.staysAbove.weaken ?_
    cases inside with
    | false => exact Int.neg_nonpos_of_nonneg (Int.natCast_nonneg _)
    | true =>
      have hpos := hl rfl
      change -(l.nextLevel : Int) ≤ -1
      omega
  have hlevel := nextLevel_writeAll indentation habove
  rw [h.depth_eq, Int.add_zero] at hlevel
  exact_mod_cast hlevel

/-- Beginning on a blank line, an entity ends on one of the same level. Only an access label needs a
level below it. -/
theorem writeAll_written_blank {decide : Entity → Detail} {entity : Entity}
    (h : ∀ e ∈ entity.walk, e.Orderly) (hd : decide entity ≠ .omitted)
    (hf : entity.kind.word ≠ "file") {n : Nat} (hn : entity.kind.word = "access" → n ≠ 0)
    {text text' : String}
    (ht : ((Layout.generator indentation).writeAll (written decide entity) (blank text n)).text =
      text') :
    (Layout.generator indentation).writeAll (written decide entity) (blank text n) =
      blank text' n := by
  have hpaired : Paired (entity.kind.word = "access") (written decide entity) :=
    paired_written h fun ha => decide_eq_true ha
  have hlevel : ((Layout.generator indentation).writeAll (written decide entity)
      (blank text n)).nextLevel = n :=
    nextLevel_of_paired hpaired _ fun hinside => hn (of_decide_eq_true hinside)
  -- The last step breaks the line, so that the text and the next level are all that is left.
  obtain ⟨ws, hw⟩ := written_endsLine hd hf
  rw [hw, Generator.writeAll_append] at ht hlevel ⊢
  subst ht
  exact congrArg (Layout.blank _) hlevel

end HeaderSynopsis.Output
