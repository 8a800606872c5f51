namespace HeaderSynopsis.Output

inductive Indentation where
  | spaces (width : Nat)
  | tab
deriving DecidableEq, Repr

namespace Indentation

def widest : Nat := 16

def standard : Indentation := .spaces 4

def unit : Indentation → String
  | .spaces width => String.ofList (List.replicate (min width widest) ' ')
  | .tab => "\t"

def display : Indentation → String
  | .spaces width => toString width
  | .tab => "tab"

def width? (cs : List Char) : Option Nat :=
  let digits :=
    match cs with
    | '+' :: rest => rest
    | cs => cs
  if digits.isEmpty || !digits.all Char.isDigit then none
  else some (digits.foldl (fun n c => n * 10 + (c.toNat - '0'.toNat)) 0)

/-- The unit that a text asks for: the word for a tab in any case of its letters, or a width. -/
def parse? (text : String) : Option Indentation :=
  if text.toList.map Char.toLower = ['t', 'a', 'b'] then some .tab
  else
    match width? text.toList with
    | some width => if width ≤ widest then some (.spaces width) else none
    | none => none

def refusal (text : String) : String :=
  "invalid indentation '" ++ text ++ "', expected a width between 0 and 16 or 'tab'"

end Indentation

end HeaderSynopsis.Output
