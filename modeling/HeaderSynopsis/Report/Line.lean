namespace HeaderSynopsis.Report

inductive Line where
  | title (text : String)
  | heading (name : String)
  | keyValue (key value : String)
  | indentedKeyValue (key value : String)
  | warning (text : String)
  | preformatted (text : String)
  | blank
deriving DecidableEq, Repr

namespace Line

/-- What a part adds to the main text. Titles are underlined, and warnings do not belong to it. -/
def output : Line → String
  | title text => text ++ "\n" ++ String.ofList (List.replicate text.length '=') ++ "\n"
  | heading name => name ++ ":\n"
  | keyValue key value => key ++ ": " ++ value ++ "\n"
  | indentedKeyValue key value => "  " ++ key ++ ": " ++ value ++ "\n"
  | warning _ => ""
  | preformatted text => text ++ "\n"
  | blank => "\n"

def message : Line → String
  | warning text => "warning: " ++ text ++ "\n"
  | _ => ""

end Line

def outputText (lines : List Line) : String := String.join (lines.map Line.output)

def messageText (lines : List Line) : String := String.join (lines.map Line.message)

end HeaderSynopsis.Report
