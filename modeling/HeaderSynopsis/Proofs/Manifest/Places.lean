import HeaderSynopsis.Manifest.Source
import HeaderSynopsis.Proofs.Text.Search

namespace HeaderSynopsis.Manifest

open Text

namespace Source

def places (source : Source) (name : String) : List Nat :=
  (patterns name).flatMap fun (pattern, skip) =>
    (occurrencesFrom pattern.toList 0 source.text.toList).map (· + skip)

variable {source : Source} {name : String}

end Source

end HeaderSynopsis.Manifest
