namespace HeaderSynopsis.Text

def occurrencesFrom (pattern : List Char) (start : Nat) : List Char → List Nat
  | [] => if pattern.isPrefixOf [] then [start] else []
  | c :: rest =>
      let later := occurrencesFrom pattern (start + c.utf8Size) rest
      if pattern.isPrefixOf (c :: rest) then start :: later else later

def firstOffset? (pattern text : String) : Option Nat :=
  (occurrencesFrom pattern.toList 0 text.toList).head?

def lastOffset? (pattern text : String) : Option Nat :=
  (occurrencesFrom pattern.toList 0 text.toList).getLast?

structure Span where
  offset : Nat
  length : Nat
deriving DecidableEq, Repr

end HeaderSynopsis.Text
