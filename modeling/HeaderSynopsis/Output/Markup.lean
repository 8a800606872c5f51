import HeaderSynopsis.Output.Layout

namespace HeaderSynopsis.Output

open Declaration Writing Generation

def escapeChar (c : Char) : List Char :=
  match c with
  | '&' => ['&', 'a', 'm', 'p', ';']
  | '<' => ['&', 'l', 't', ';']
  | '>' => ['&', 'g', 't', ';']
  | '"' => ['&', 'q', 'u', 'o', 't', ';']
  | c => [c]

def escape (text : String) : String := String.ofList (text.toList.flatMap escapeChar)

structure Markup where
  layout : Layout := {}
  -- The entity whose anchor is still to be written.
  anchor : Option Id := none

namespace Markup

def anchorTag (id : Id) : String := "<a id=\"" ++ escape id.text ++ "\"></a>"

def span (kind : TokenKind) (text : String) : String :=
  "<span class=\"" ++ kind.word ++ "\">" ++ escape text ++ "</span>"

def linkTag (targets : List Id) (name : String) : String :=
  match targets with
  | target :: _ =>
      "<a class=\"reference\" href=\"#" ++ escape target.text ++ "\">" ++ escape name ++ "</a>"
  | [] => span .reference name

def put (unit markup : String) (m : Markup) : Markup :=
  match m.anchor with
  | some id => { layout := m.layout.put unit (anchorTag id ++ markup), anchor := none }
  | none => { m with layout := m.layout.put unit markup }

def write (unit : String) : Write → Markup → Markup
  | .token .tokenSeq text => put unit (escape text)
  | .token kind text => put unit (span kind text)
  | .reference targets name => put unit (linkTag targets name)
  | w => fun m => { m with layout := m.layout.write unit w }

/-- Remembers the anchor of an entity; only a file has none. -/
def enter (entity : Entity) (m : Markup) : Markup :=
  if entity.occupiesLine then { m with anchor := some entity.id } else m

def generator (indentation : Indentation) : Generator Markup where
  enter _ entity m := (some .definition, m.enter entity)
  leave _ m := m
  write := write indentation.unit

def finish (m : Markup) : String :=
  "<pre><code class=\"language-cpp\">" ++ m.layout.text ++ "</code></pre>\n"

end Markup

end HeaderSynopsis.Output
