import CanonicalLR.Ascending
import CanonicalLR.Automaton
import CanonicalLR.Closure
import CanonicalLR.CommandLine
import CanonicalLR.Construction
import CanonicalLR.Dump
import CanonicalLR.Fingerprint
import CanonicalLR.FirstFollow
import CanonicalLR.Fixpoint
import CanonicalLR.Grammar
import CanonicalLR.IdSet
import CanonicalLR.Interner
import CanonicalLR.Item
import CanonicalLR.ItemMap
import CanonicalLR.Machine
import CanonicalLR.Main
import CanonicalLR.Parser
import CanonicalLR.Printer
import CanonicalLR.Proofs.AccessingSymbols
import CanonicalLR.Proofs.Arena
import CanonicalLR.Proofs.Beginnings
import CanonicalLR.Proofs.BitRows
import CanonicalLR.Proofs.Bounds
import CanonicalLR.Proofs.Canonicity
import CanonicalLR.Proofs.Clashes
import CanonicalLR.Proofs.Collection
import CanonicalLR.Proofs.Completeness
import CanonicalLR.Proofs.Conflicts
import CanonicalLR.Proofs.Control
import CanonicalLR.Proofs.Correspondence
import CanonicalLR.Proofs.Demands
import CanonicalLR.Proofs.Derivations
import CanonicalLR.Proofs.Exactness
import CanonicalLR.Proofs.Execution
import CanonicalLR.Proofs.Exploration
import CanonicalLR.Proofs.Forms
import CanonicalLR.Proofs.Frozen
import CanonicalLR.Proofs.Grid
import CanonicalLR.Proofs.Handles
import CanonicalLR.Proofs.HashConsing
import CanonicalLR.Proofs.IdWidth
import CanonicalLR.Proofs.Independence
import CanonicalLR.Proofs.InputUse
import CanonicalLR.Proofs.Interning
import CanonicalLR.Proofs.ItemFacts
import CanonicalLR.Proofs.Layout
import CanonicalLR.Proofs.LeastClosure
import CanonicalLR.Proofs.Lockstep
import CanonicalLR.Proofs.Loops
import CanonicalLR.Proofs.MoreTerminals
import CanonicalLR.Proofs.Numbering
import CanonicalLR.Proofs.Orderliness
import CanonicalLR.Proofs.Outcomes
import CanonicalLR.Proofs.Prediction
import CanonicalLR.Proofs.Prefixes
import CanonicalLR.Proofs.PrintedForms
import CanonicalLR.Proofs.Reachability
import CanonicalLR.Proofs.ReductionBound
import CanonicalLR.Proofs.Refusals
import CanonicalLR.Proofs.AcceptedCalls
import CanonicalLR.Proofs.Registration
import CanonicalLR.Proofs.Renaming
import CanonicalLR.Proofs.Reports
import CanonicalLR.Proofs.Rightmost
import CanonicalLR.Proofs.Rounds
import CanonicalLR.Proofs.SampleTexts
import CanonicalLR.Proofs.Saturation
import CanonicalLR.Proofs.SetForms
import CanonicalLR.Proofs.Simulation
import CanonicalLR.Proofs.SingleLookahead
import CanonicalLR.Proofs.Soundness
import CanonicalLR.Proofs.StackHeights
import CanonicalLR.Proofs.Steps
import CanonicalLR.Proofs.StringQueries
import CanonicalLR.Proofs.Sums
import CanonicalLR.Proofs.Survey
import CanonicalLR.Proofs.Sweeps
import CanonicalLR.Proofs.Tabulation
import CanonicalLR.Proofs.Termination
import CanonicalLR.Proofs.TreeTexts
import CanonicalLR.Proofs.Unambiguity
import CanonicalLR.Proofs.Validity
import CanonicalLR.Proofs.ViableItems
import CanonicalLR.Proofs.ViablePrefixes
import CanonicalLR.Proofs.Words
import CanonicalLR.Proofs.WrittenTrees
import CanonicalLR.RuleText
import CanonicalLR.Rules
import CanonicalLR.Sample
import CanonicalLR.Scalar
import CanonicalLR.Spelling
import CanonicalLR.Symbol
import CanonicalLR.Table
import CanonicalLR.Text.Blank
import CanonicalLR.Text.Column
import CanonicalLR.Text.Hidden
import CanonicalLR.Text.Quoted
