namespace HeaderSynopsis.Text

def splitFeeds : List Char → List (List Char)
  | [] => [[]]
  | c :: rest =>
      if c = '\n' then [] :: splitFeeds rest
      else
        match splitFeeds rest with
        | [] => [[c]]
        | part :: parts => (c :: part) :: parts

def dropReturn (cs : List Char) : List Char :=
  if cs.getLast? = some '\r' then cs.dropLast else cs

def pieces (text : String) : List String :=
  (splitFeeds text.toList).map fun part => String.ofList (dropReturn part)

/-- The lines of a text. A carriage return belongs to the line break only before a line feed, and
the text after the last line feed is a line only if it is not empty. -/
def lines (text : String) : List String :=
  let parts := splitFeeds text.toList
  let ended := parts.dropLast.map fun part => String.ofList (dropReturn part)
  match parts.getLast? with
  | some (c :: rest) => ended ++ [String.ofList (c :: rest)]
  | _ => ended

theorem splitFeeds_ne_nil (cs : List Char) : splitFeeds cs ≠ [] := by
  cases cs with
  | nil => simp [splitFeeds]
  | cons c rest =>
    simp only [splitFeeds]
    split
    · simp
    · split <;> simp

/-- Joining the parts by line feeds gives the text back. -/
theorem intercalate_splitFeeds (cs : List Char) :
    List.intercalate ['\n'] (splitFeeds cs) = cs := by
  induction cs with
  | nil => simp [splitFeeds]
  | cons c rest ih =>
    obtain ⟨part, parts, hs⟩ := List.exists_cons_of_ne_nil (splitFeeds_ne_nil rest)
    rw [hs] at ih
    by_cases h : c = '\n'
    · rw [splitFeeds, if_pos h, hs, h, ← ih]
      simp [List.intercalate, List.intersperse]
    · rw [splitFeeds, if_neg h, hs, ← ih]
      cases parts <;> simp [List.intercalate, List.intersperse]

end HeaderSynopsis.Text
