import HeaderSynopsis.Text.Search
import Mathlib.Data.List.Basic

namespace HeaderSynopsis.Text

end HeaderSynopsis.Text
