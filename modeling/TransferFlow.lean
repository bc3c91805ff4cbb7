import TransferFlow.Main
import TransferFlow.Pattern.Writer
import TransferFlow.Segment.Writer
import TransferFlow.Proofs.BuilderNodes
import TransferFlow.Proofs.Reading
import TransferFlow.Proofs.SegmentGrammar
import TransferFlow.Proofs.EdgeEnds
import TransferFlow.Proofs.Blanks
import TransferFlow.Proofs.Balance
import TransferFlow.Proofs.Parts
import TransferFlow.Proofs.StepSearch
import TransferFlow.Proofs.FieldBalance
import TransferFlow.Proofs.LoneBranch
import TransferFlow.Proofs.GraphShape
import TransferFlow.Proofs.Roles
import TransferFlow.Proofs.Signs
import TransferFlow.Proofs.SpacedTexts
import TransferFlow.Proofs.WrittenSteps
import TransferFlow.Proofs.Legible
import TransferFlow.Proofs.WrittenSegments
import TransferFlow.Proofs.Canonical
import TransferFlow.Proofs.Listing
import TransferFlow.Proofs.PlainPatterns
import TransferFlow.Graph.Tables
import TransferFlow.Proofs.BuilderSteps
import TransferFlow.Proofs.DocumentLines
import TransferFlow.Proofs.Reachability
import TransferFlow.Proofs.Continuations
import TransferFlow.Proofs.Nesting
import TransferFlow.Proofs.ChainParts
import TransferFlow.Proofs.Places
import TransferFlow.Proofs.Ways
import TransferFlow.Proofs.Confinement
import TransferFlow.Proofs.HopLoop
import TransferFlow.Proofs.Room
import TransferFlow.Proofs.Refusals
import TransferFlow.Proofs.Regrouping
import TransferFlow.Proofs.GroupPlaces
import TransferFlow.Proofs.Renumbering
import TransferFlow.Proofs.BranchOrder
import TransferFlow.Proofs.FanInSteps
import TransferFlow.Proofs.AppendedHops
import TransferFlow.Proofs.GrownGraph
import TransferFlow.Proofs.OuterMarks
import TransferFlow.Proofs.PostChains
import TransferFlow.Proofs.MirroredTexts
import TransferFlow.Proofs.MirroredSteps
import TransferFlow.Proofs.MirroredPatterns
import TransferFlow.Proofs.MirroredGraphs
import TransferFlow.Proofs.StepForms
import TransferFlow.Proofs.SettingsHistory
import TransferFlow.Proofs.DocumentChecks
import TransferFlow.Proofs.StoredDocuments
import TransferFlow.Proofs.Pairing
import TransferFlow.Proofs.StackPairing
import TransferFlow.Proofs.CutPlaces
import TransferFlow.Proofs.Summaries
