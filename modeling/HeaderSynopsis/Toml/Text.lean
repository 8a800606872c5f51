import HeaderSynopsis.Text.Reader

namespace HeaderSynopsis.Toml

open Text

def isBlank (c : Char) : Bool := c = ' ' || c = '\t'

def skipBlanks (cs : List Char) : List Char := cs.dropWhile isBlank

def isPlain (c : Char) : Bool := c = '\t' || (32 ≤ c.toNat && c.toNat ≠ 127)

/-- Skips blanks, line breaks and comments. The flag tells whether a comment is under way. -/
def skipTrivia : Bool → List Char → Option (List Char)
  | _, [] => some []
  | inComment, c :: rest =>
      if c = '\n' then skipTrivia false rest
      else if c = '\r' && rest.head? = some '\n' then skipTrivia false rest
      else if inComment then if isPlain c then skipTrivia true rest else none
      else if isBlank c then skipTrivia false rest
      else if c = '#' then skipTrivia true rest
      else some (c :: rest)

def lineEnd : Bool → List Char → Option (List Char)
  | _, [] => some []
  | inComment, c :: rest =>
      if c = '\n' then some rest
      else if c = '\r' && rest.head? = some '\n' then lineEnd inComment rest
      else if inComment then if isPlain c then lineEnd true rest else none
      else if isBlank c then lineEnd false rest
      else if c = '#' then lineEnd true rest
      else none

def numberedChar (count : Nat) (cs : List Char) : Option (Char × List Char) := do
  let (number, rest) ← hexNumber 0 count cs
  if number.isValidChar then return (Char.ofNat number, rest) else none

def escape : Reader Char
  | [] => none
  | c :: rest =>
      match c with
      | 'b' => some ('\x08', rest)
      | 't' => some ('\t', rest)
      | 'n' => some ('\n', rest)
      | 'f' => some ('\x0c', rest)
      | 'r' => some ('\r', rest)
      | 'e' => some ('\x1b', rest)
      | '"' => some ('"', rest)
      | '\\' => some ('\\', rest)
      | 'x' => numberedChar 2 rest
      | 'u' => numberedChar 4 rest
      | 'U' => numberedChar 8 rest
      | _ => none

/-- The rest of a string on one line; `before` holds what was read, last first. -/
def basicRest (before : List Char) (cs : List Char) : Option (String × List Char) :=
  match cs with
  | [] => none
  | '"' :: rest => some (String.ofList before.reverse, rest)
  | '\\' :: rest =>
      match escape rest with
      | none => none
      | some (c, after) =>
          if _ : after.length < rest.length + 1 then basicRest (c :: before) after else none
  | c :: rest => if isPlain c then basicRest (c :: before) rest else none
termination_by cs.length

def literalRest (before : List Char) : Reader String
  | [] => none
  | c :: rest =>
      if c = '\'' then some (String.ofList before.reverse, rest)
      else if isPlain c then literalRest (c :: before) rest
      else none

/-- The end of a string over several lines, if at least three quotes stand there. Up to two more
belong to the string. -/
def closing? (quote : Char) (before cs : List Char) : Option (String × List Char) :=
  let count := (cs.takeWhile (· = quote)).length
  if count < 3 then none
  else
    let inside := min (count - 3) 2
    some (String.ofList (before.reverse ++ List.replicate inside quote), cs.drop (inside + 3))

def skipBreaks : List Char → List Char
  | [] => []
  | c :: rest =>
      if isBlank c || c = '\n' then skipBreaks rest
      else if c = '\r' && rest.head? = some '\n' then skipBreaks rest
      else c :: rest

def breaksNext (cs : List Char) : Bool :=
  match skipBlanks cs with
  | '\n' :: _ => true
  | '\r' :: '\n' :: _ => true
  | _ => false

def multilinePart : Reader (List Char)
  | [] => none
  | '\\' :: rest =>
      if breaksNext rest then some ([], skipBreaks rest)
      else (escape rest).map fun (c, after) => ([c], after)
  | '\r' :: '\n' :: rest => some (['\r', '\n'], rest)
  | c :: rest => if isPlain c || c = '\n' then some ([c], rest) else none

def multilineRest (before : List Char) (cs : List Char) : Option (String × List Char) :=
  match closing? '"' before cs with
  | some found => some found
  | none =>
      match multilinePart cs with
      | none => none
      | some (part, after) =>
          if _ : after.length < cs.length then multilineRest (part.reverse ++ before) after
          else none
termination_by cs.length

def multilineLiteralRest (before : List Char) : Reader String
  | [] => none
  | c :: rest =>
      match closing? '\'' before (c :: rest) with
      | some found => some found
      | none =>
          if isPlain c || c = '\n' || (c = '\r' && rest.head? = some '\n') then
            multilineLiteralRest (c :: before) rest
          else none

def skipFirstBreak : List Char → List Char
  | '\n' :: rest => rest
  | '\r' :: '\n' :: rest => rest
  | cs => cs

def string : Reader String
  | '"' :: '"' :: '"' :: rest => multilineRest [] (skipFirstBreak rest)
  | '"' :: rest => basicRest [] rest
  | '\'' :: '\'' :: '\'' :: rest => multilineLiteralRest [] (skipFirstBreak rest)
  | '\'' :: rest => literalRest [] rest
  | _ => none

def isKeyChar (c : Char) : Bool := c.isAlphanum || c = '_' || c = '-'

/-- One part of a key: a string on one line or a run of letters, digits, underscores and dashes. -/
def keyPart : Reader String
  | '"' :: rest => basicRest [] rest
  | '\'' :: rest => literalRest [] rest
  | cs =>
      match cs.takeWhile isKeyChar with
      | [] => none
      | letters => some (String.ofList letters, cs.dropWhile isKeyChar)

def keyParts (cs : List Char) : Option (List String × List Char) :=
  match keyPart cs with
  | none => none
  | some (part, rest) =>
      match skipBlanks rest with
      | '.' :: after =>
          let after := skipBlanks after
          if _ : after.length < cs.length then
            (keyParts after).map fun (parts, after) => (part :: parts, after)
          else none
      | rest => some ([part], rest)
termination_by cs.length

def nestingLimit : Nat := 80

/-- A key. Each of its parts opens a table, so their number is limited. -/
def key (cs : List Char) : Option (List String × List Char) :=
  (keyParts cs).filter (·.1.length ≤ nestingLimit)

end HeaderSynopsis.Toml
