import HeaderSynopsis.Generation.Generator
import HeaderSynopsis.Output.Indentation

/-!
Plain text, indented or not. A line gets its indentation with its first text, so that blank lines
have none. A deeper level counts from the next line on, a lower one already on a line that is still
blank.
-/

namespace HeaderSynopsis.Output

open Declaration Writing Generation

structure Layout where
  text : String := ""
  -- The level of the current line.
  level : Nat := 0
  -- The level of the next line.
  nextLevel : Nat := 0
  -- Whether nothing was put on the current line yet.
  atLineStart : Bool := true

namespace Layout

def margin (unit : String) (level : Nat) : String := String.join (List.replicate level unit)

def put (unit text : String) (l : Layout) : Layout :=
  if text = "" then l
  else if l.atLineStart then
    { l with text := l.text ++ margin unit l.level ++ text, atLineStart := false }
  else { l with text := l.text ++ text }

def breakLine (l : Layout) : Layout :=
  { l with text := l.text ++ "\n", level := l.nextLevel, atLineStart := true }

def deeper (l : Layout) : Layout := { l with nextLevel := l.nextLevel + 1 }

def shallower (l : Layout) : Layout :=
  let next := l.nextLevel - 1
  { l with nextLevel := next, level := if l.atLineStart then min l.level next else l.level }

def write (unit : String) : Write → Layout → Layout
  | .token _ text => put unit text
  | .reference _ name => put unit name
  | .space => put unit " "
  | .lineBreak => breakLine
  | .indent => deeper
  | .unindent => shallower

def generator (indentation : Indentation) : Generator Layout where
  enter _ _ l := (some .definition, l)
  leave _ l := l
  write := write indentation.unit

end Layout

def bareText : Generator String where
  enter _ _ s := (some .definition, s)
  leave _ s := s
  write w s := s ++ w.text

end HeaderSynopsis.Output
