import Reprise.Grammar.Parts
import Reprise.Grammar.Session
import Reprise.Main
import Reprise.Proofs.Completion
import Reprise.Proofs.Endings
import Reprise.Proofs.Failures
import Reprise.Proofs.Faultless
import Reprise.Proofs.HexLines
import Reprise.Proofs.Hints
import Reprise.Proofs.Independence
import Reprise.Proofs.Integers
import Reprise.Proofs.Isolation
import Reprise.Proofs.Offsets
import Reprise.Proofs.PayloadPolicies
import Reprise.Proofs.Progress
import Reprise.Proofs.ReadBack
import Reprise.Proofs.Repeating
import Reprise.Proofs.SeparatedRepetition
import Reprise.Proofs.Streaming
import Reprise.Proofs.Fields
import Reprise.Proofs.Records
import Reprise.Proofs.Representations
import Reprise.Proofs.RecordLines
import Reprise.Proofs.Transparency
import Reprise.Proofs.Effects
import Reprise.Proofs.Nesting
import Reprise.Proofs.FirstOccurrence
import Reprise.Proofs.AnnouncedValues
import Reprise.Proofs.Containers
import Reprise.Proofs.Filling
import Reprise.Proofs.Additive
import Reprise.Proofs.Stalling
import Reprise.Proofs.FixedWidth
import Reprise.Proofs.Reservations
import Reprise.Proofs.AllowedCounts
import Reprise.Proofs.Prefixes
import Reprise.Proofs.Previews
import Reprise.Proofs.Diagnostics
import Reprise.Proofs.CountSequences
import Reprise.Proofs.LongestRuns
import Reprise.Proofs.Elements
