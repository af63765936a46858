import ChomskyNormal.Journal
import ChomskyNormal.Main
import ChomskyNormal.Proofs.Grammar.Changes
import ChomskyNormal.Proofs.Grammar.WellFormed
import ChomskyNormal.Proofs.Rewriting
import ChomskyNormal.Proofs.Table.Filling
import ChomskyNormal.Proofs.Membership
import ChomskyNormal.Proofs.Letters
import ChomskyNormal.Proofs.RuleFile.Scanning
import ChomskyNormal.Proofs.RuleFile.Rules
import ChomskyNormal.Proofs.FirstOccurrences
import ChomskyNormal.Proofs.RuleFile.Building
import ChomskyNormal.Proofs.RuleFile.Reading
import ChomskyNormal.Proofs.RuleFile.RoundTrip
import ChomskyNormal.Proofs.Heights
import ChomskyNormal.Proofs.Sampling
import ChomskyNormal.Proofs.Sampling.Steering
import ChomskyNormal.Proofs.Grammar.Counting
import ChomskyNormal.Proofs.Grammar.Store
import ChomskyNormal.Proofs.Grammar.Consistency
import ChomskyNormal.Proofs.Grammar.History
import ChomskyNormal.Proofs.Grammar.Reordering
import ChomskyNormal.Proofs.RuleFile.Offences
import ChomskyNormal.Proofs.RuleFile.LineFaults
import ChomskyNormal.Proofs.RuleFile.Reports
import ChomskyNormal.Proofs.RuleFile.NormalForm
import ChomskyNormal.Proofs.Grammar.Inclusion
import ChomskyNormal.Proofs.RuleFile.Layout
import ChomskyNormal.Proofs.RuleFile.LineOrder
import ChomskyNormal.Proofs.Heights.Settling
import ChomskyNormal.Proofs.Sampling.DepthLimit
import ChomskyNormal.Proofs.Sampling.Series
import ChomskyNormal.Proofs.Table.Parts
import ChomskyNormal.Proofs.CommandLine.Stepping
import ChomskyNormal.Proofs.CommandLine.Runs
import ChomskyNormal.Proofs.Table.Density
import ChomskyNormal.Proofs.Grammar.RightHandSides
import ChomskyNormal.Proofs.Table.Arena
import ChomskyNormal.Proofs.Columns
import ChomskyNormal.Proofs.Table.Picture
import ChomskyNormal.Proofs.RuleFile.Rounds
import ChomskyNormal.Proofs.Messages
