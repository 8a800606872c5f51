import HeaderSynopsis.Declaration.Reference
import HeaderSynopsis.Text.Lines

/-!
The single steps of writing out a declaration: classified tokens, references, blanks, line breaks
and changes of the indentation.
-/

namespace HeaderSynopsis.Writing

open Declaration

inductive TokenKind where
  | keyword
  | identifier
  | reference
  | punctuation
  | strLiteral
  | intLiteral
  | floatLiteral
  | preprocessor
  | tokenSeq
deriving DecidableEq, Repr

def TokenKind.word : TokenKind → String
  | .keyword => "keyword"
  | .identifier => "identifier"
  | .reference => "reference"
  | .punctuation => "punctuation"
  | .strLiteral => "str-literal"
  | .intLiteral => "int-literal"
  | .floatLiteral => "float-literal"
  | .preprocessor => "preprocessor"
  | .tokenSeq => "token-seq"

inductive Write where
  | token (kind : TokenKind) (text : String)
  | reference (targets : List Id) (name : String)
  -- A blank where two tokens have to be kept apart.
  | space
  | lineBreak
  | indent
  | unindent
deriving DecidableEq, Repr

namespace Write

def keyword (text : String) : Write := .token .keyword text

def identifier (text : String) : Write := .token .identifier text

def punctuation (text : String) : Write := .token .punctuation text

def preprocessor (text : String) : Write := .token .preprocessor text

def link (target : Reference) : Write := .reference target.targets target.name

def text : Write → String
  | token _ text => text
  | reference _ name => name
  | space => " "
  | lineBreak => "\n"
  | indent => ""
  | unindent => ""

end Write

def runWrites (text : String) : List Write := if text = "" then [] else [.token .tokenSeq text]

/-- A spelling of several lines. Its line breaks are steps of their own. -/
def verbatimWrites (spelling : String) : List Write :=
  [.lineBreak].intercalate ((Text.pieces spelling).map runWrites)

def commaWrites : List Write := [.punctuation ",", .space]

def separated (items : List (List Write)) : List Write := commaWrites.intercalate items

end HeaderSynopsis.Writing
