import HeaderSynopsis.Main
import HeaderSynopsis.Command.FileTree
import HeaderSynopsis.Generation.Steps
import HeaderSynopsis.Json.Reader
import HeaderSynopsis.Output.Recorder
import HeaderSynopsis.Proofs.Coding.RoundTrip
import HeaderSynopsis.Proofs.Generation.Brackets
import HeaderSynopsis.Proofs.Manifest.Acceptance
import HeaderSynopsis.Proofs.Manifest.IdleOptions
import HeaderSynopsis.Proofs.Manifest.LineBreaks
import HeaderSynopsis.Proofs.Manifest.Unresolved
import HeaderSynopsis.Proofs.Output.Composition
import HeaderSynopsis.Proofs.Output.Exclusion
import HeaderSynopsis.Proofs.Output.Interruption
import HeaderSynopsis.Proofs.Output.Links
import HeaderSynopsis.Proofs.Output.MarkupText
import HeaderSynopsis.Proofs.Output.Protocol
import HeaderSynopsis.Proofs.Output.Reduction
import HeaderSynopsis.Proofs.Report.Traversals
import HeaderSynopsis.Proofs.Output.Stacking
import HeaderSynopsis.Proofs.Generation.Placement
import HeaderSynopsis.Proofs.Output.RecordedWrites
import HeaderSynopsis.Proofs.Writing.Depth
import HeaderSynopsis.Proofs.Output.RecordedLevels
import HeaderSynopsis.Proofs.Output.RecordedLines
import HeaderSynopsis.Proofs.Generation.Programs
import HeaderSynopsis.Proofs.Output.NestedScopes
import HeaderSynopsis.Proofs.Output.BareText
import HeaderSynopsis.Proofs.Output.Elements
import HeaderSynopsis.Proofs.Writing.ArrayTypes
import HeaderSynopsis.Proofs.Writing.Specializations
import HeaderSynopsis.Proofs.Output.LineMargins
import HeaderSynopsis.Proofs.Manifest.FirstFault
import HeaderSynopsis.Proofs.Output.RecordedSpellings
import HeaderSynopsis.Proofs.Manifest.Overriding
import HeaderSynopsis.Proofs.Manifest.ShownNames
import HeaderSynopsis.Proofs.Coding.Integers
import HeaderSynopsis.Proofs.Manifest.Labels
import HeaderSynopsis.Proofs.Report.Comments
import HeaderSynopsis.Proofs.Manifest.BlankLines
import HeaderSynopsis.Proofs.Manifest.SiblingNames
