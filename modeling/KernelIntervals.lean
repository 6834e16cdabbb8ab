import KernelIntervals.Main
import KernelIntervals.Proofs.Ends
import KernelIntervals.Proofs.Net
import KernelIntervals.Proofs.Regions
import KernelIntervals.Proofs.Observe
import KernelIntervals.Proofs.Underway
import KernelIntervals.Proofs.Opening
import KernelIntervals.Proofs.Growth
import KernelIntervals.Proofs.Severed
import KernelIntervals.Proofs.Labels
import KernelIntervals.Proofs.Settling
import KernelIntervals.Proofs.Admission
import KernelIntervals.Proofs.BlockMoves
import KernelIntervals.Proofs.Verified
import KernelIntervals.Proofs.Summaries
import KernelIntervals.Proofs.Completion
import KernelIntervals.Proofs.Regrouped
import KernelIntervals.Proofs.FirstPass
import KernelIntervals.Proofs.Lineage
import KernelIntervals.Proofs.Descent
import KernelIntervals.Proofs.Subdivision
import KernelIntervals.Proofs.SplitPoints
import KernelIntervals.Proofs.Tallied
import KernelIntervals.Proofs.SingleEntry
import KernelIntervals.Proofs.Partition
import KernelIntervals.Proofs.Narrow
import KernelIntervals.Proofs.IntervalMoves
import KernelIntervals.Proofs.SecondPass
import KernelIntervals.Proofs.Quotients
import KernelIntervals.Proofs.Covered
import KernelIntervals.Proofs.Upkeep
import KernelIntervals.Proofs.Segments
import KernelIntervals.Proofs.Handover
import KernelIntervals.Proofs.FinalIntervals
import KernelIntervals.Proofs.CoarseBudget
import KernelIntervals.Proofs.Unfoldable
import KernelIntervals.Proofs.Copies
import KernelIntervals.Proofs.Convergence
import KernelIntervals.Proofs.Openers
import KernelIntervals.Proofs.Pops
import KernelIntervals.Proofs.Reachability
import KernelIntervals.Proofs.ExactQuotient
import KernelIntervals.Proofs.Escapes
import KernelIntervals.Proofs.DotText
import KernelIntervals.Proofs.RoundTrip
import KernelIntervals.Proofs.Shapes
import KernelIntervals.Proofs.Contraction
import KernelIntervals.Proofs.Collapse
import KernelIntervals.Proofs.Twins
import KernelIntervals.Proofs.Scopes
import KernelIntervals.Proofs.ExactMoves
import KernelIntervals.Proofs.Tails
import KernelIntervals.Proofs.GreedyCut
import KernelIntervals.Proofs.Trimmed
import KernelIntervals.Proofs.Gathered
import KernelIntervals.Proofs.Harvest
import KernelIntervals.Proofs.Maximality
import KernelIntervals.Proofs.Stable
import KernelIntervals.Proofs.Agreement
import KernelIntervals.Proofs.Kinship
import KernelIntervals.Proofs.Findings
import KernelIntervals.Proofs.Lockstep
import KernelIntervals.Proofs.BlockLockstep
import KernelIntervals.Proofs.IntervalLockstep
import KernelIntervals.Proofs.Departure
import KernelIntervals.Proofs.Discipline
import KernelIntervals.Proofs.Operations
import KernelIntervals.Proofs.Reuse
import KernelIntervals.Proofs.Repeats
import KernelIntervals.Proofs.Rerun
import KernelIntervals.Proofs.Renaming
import KernelIntervals.Proofs.BlockFootprint
import KernelIntervals.Proofs.IntervalFootprint
import KernelIntervals.Proofs.Marking
import KernelIntervals.Proofs.Outcomes
import KernelIntervals.Proofs.Names
import KernelIntervals.Proofs.SelfFed
import KernelIntervals.Proofs.LiveIns
import KernelIntervals.Proofs.Ports
import KernelIntervals.Proofs.Layout
import KernelIntervals.Proofs.Rows
import KernelIntervals.Proofs.Wiring
import KernelIntervals.Proofs.Guarding
import KernelIntervals.Proofs.Naming
import KernelIntervals.Proofs.Pattern
import KernelIntervals.Proofs.RegisterWords
import KernelIntervals.Proofs.Snapshots
import KernelIntervals.Proofs.TextCuts
import KernelIntervals.Proofs.OperandText
import KernelIntervals.Proofs.InstText
import KernelIntervals.Proofs.Lexemes
import KernelIntervals.Proofs.TokenPattern
import KernelIntervals.Proofs.LineBlind
import KernelIntervals.Proofs.Padding
