import HeaderSynopsis.Output.Markup
import HeaderSynopsis.Output.Selection

namespace HeaderSynopsis.Output

open Declaration Generation

def renderText (indentation : Indentation) (selection : Selection) (entity : Entity) : String :=
  (generate (selection.narrow (Layout.generator indentation)) entity {}).state.text

def renderHtml (indentation : Indentation) (selection : Selection) (entity : Entity) : String :=
  (generate (selection.narrow (Markup.generator indentation)) entity {}).state.finish

end HeaderSynopsis.Output
