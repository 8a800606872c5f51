import HeaderSynopsis.Toml.Text
import HeaderSynopsis.Toml.Scalar
import HeaderSynopsis.Toml.Table

/-!
Reading a TOML document. Every loop goes on only with a shorter rest of the text, and values nest at
most `nestingLimit` deep, so reading ends.
-/

namespace HeaderSynopsis.Toml

open Data Text

def isScalarChar (c : Char) : Bool :=
  c.isAlphanum || c = '+' || c = '-' || c = '_' || c = '.' || c = ':'

/-- A value without quotes. A date may go on with a time after one blank. -/
def scalar (cs : List Char) : Option (Datum × List Char) :=
  let word := cs.takeWhile isScalarChar
  let rest := cs.dropWhile isScalarChar
  match rest with
  | ' ' :: c :: after =>
      if c.isDigit && date? word = some [] then
        let time := (c :: after).takeWhile isScalarChar
        (scalar? (word ++ ' ' :: time)).map (·, (c :: after).dropWhile isScalarChar)
      else (scalar? word).map (·, rest)
  | _ => (scalar? word).map (·, rest)

def listItems (value : Reader Datum) (before : List Datum) (cs : List Char) :
    Option (List Datum × List Char) :=
  match skipTrivia false cs with
  | none => none
  | some (']' :: after) => some (before.reverse, after)
  | some cs' =>
      match value cs' with
      | none => none
      | some (item, rest) =>
          match skipTrivia false rest with
          | some (']' :: after) => some ((item :: before).reverse, after)
          | some (',' :: after) =>
              if _ : after.length < cs.length then listItems value (item :: before) after
              else none
          | _ => none
termination_by cs.length

/-- A key, an equals sign and a value; `skipGap` skips what may stand around the equals sign. -/
def keyValue (skipGap : List Char → Option (List Char)) (value : Reader Datum) (cs : List Char) :
    Option ((List String × Datum) × List Char) := do
  let (path, rest) ← key cs
  let '=' :: rest ← skipGap rest | none
  let (datum, after) ← value (← skipGap rest)
  return ((path, datum), after)

/-- The fields of a table after its brace. Line breaks and comments may stand everywhere between
the signs, but not within a key. -/
def tableFields (value : Reader Datum) (before : Entries) (cs : List Char) :
    Option (Entries × List Char) :=
  match skipTrivia false cs with
  | none => none
  | some ('}' :: after) => some (before, after)
  | some cs' =>
      match keyValue (skipTrivia false) value cs' with
      | none => none
      | some ((path, datum), rest) =>
          match before.assign datum true path, skipTrivia false rest with
          | some entries, some ('}' :: after) => some (entries, after)
          | some entries, some (',' :: after) =>
              if _ : after.length < cs.length then tableFields value entries after else none
          | _, _ => none
termination_by cs.length

def value : Nat → Reader Datum
  | depth, cs =>
      match cs with
      | '[' :: rest =>
          match depth with
          | 0 => none
          | depth + 1 =>
              (listItems (value depth) [] rest).map fun (items, after) => (.list items, after)
      | '{' :: rest =>
          match depth with
          | 0 => none
          | depth + 1 =>
              (tableFields (value depth) [] rest).map fun (entries, after) =>
                (.table (fieldsOf entries), after)
      | '"' :: _ | '\'' :: _ => (string cs).map fun (text, after) => (.text text, after)
      | _ => scalar cs

structure Progress where
  root : Entries
  header : List String

def Progress.enter (p : Progress) (path : List String)
    (change : String → Entries → Option Entries) : Option Progress :=
  match path.getLast? with
  | none => none
  | some name => (p.root.atPath (change name) path.dropLast).map (⟨·, path⟩)

def statement (p : Progress) (cs : List Char) : Option (Progress × List Char) :=
  match cs with
  | '[' :: '[' :: rest =>
      match key (skipBlanks rest) with
      | some (path, ']' :: ']' :: after) => do
          let after ← lineEnd false after
          let p ← p.enter path Entries.openElement
          return (p, after)
      | _ => none
  | '[' :: rest =>
      match key (skipBlanks rest) with
      | some (path, ']' :: after) => do
          let after ← lineEnd false after
          let p ← p.enter path Entries.openTable
          return (p, after)
      | _ => none
  | cs => do
      let ((path, datum), after) ← keyValue (some ∘ skipBlanks) (value nestingLimit) cs
      let after ← lineEnd false after
      let root ← p.root.atPath (Entries.assign datum true path) p.header
      return ({ p with root := root }, after)

def statements (p : Progress) (cs : List Char) : Option Progress :=
  match skipTrivia false cs with
  | none => none
  | some [] => some p
  | some cs' =>
      match statement p cs' with
      | none => none
      | some (p, after) => if _ : after.length < cs.length then statements p after else none
termination_by cs.length

def skipMark : List Char → List Char
  | '\ufeff' :: rest => rest
  | cs => cs

def read (text : String) : Option Fields :=
  (statements ⟨[], []⟩ (skipMark text.toList)).map fun p => fieldsOf p.root

end HeaderSynopsis.Toml
