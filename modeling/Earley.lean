import Earley.Symbol
import Earley.Text.Numeral
import Earley.Text.Line
import Earley.Text.Field
import Earley.Error
import Earley.Construction
import Earley.Grammar
import Earley.Grammar.Dependency
import Earley.Grammar.Draft
import Earley.Grammar.Reader
import Earley.Parser.Charting
import Earley.Parser.Outcome
import Earley.CommandLine
import Earley.Main
import Earley.Proofs.Text.Trimming
import Earley.Proofs.Text.Layout
import Earley.Proofs.Source.Report
import Earley.Proofs.Digraph
import Earley.Proofs.Grammar.Row
import Earley.Proofs.Grammar.Derivability
import Earley.Proofs.Grammar.Rightmost
import Earley.Proofs.Grammar.Validity
import Earley.Proofs.Grammar.Drafting
import Earley.Proofs.Grammar.Reachability
import Earley.Proofs.Grammar.Collection
import Earley.Proofs.Grammar.Rows
import Earley.Proofs.Grammar.Recognition
import Earley.Proofs.Grammar.Layout
import Earley.Proofs.Grammar.Display
import Earley.Proofs.Chart.Contents
import Earley.Proofs.Chart.Insertion
import Earley.Proofs.Chart.Growth
import Earley.Proofs.Parser.Inference
import Earley.Proofs.Parser.Viability
import Earley.Proofs.Parser.Bounds
import Earley.Proofs.Parser.Saturation
import Earley.Proofs.Parser.Charting
import Earley.Proofs.Parser.Completeness
import Earley.Proofs.Parser.Provenance
import Earley.Proofs.Parser.Ancestry
import Earley.Proofs.Parser.Termination
import Earley.Proofs.Parser.Lockstep
import Earley.Proofs.Parser.Stability
import Earley.Proofs.Derivation.Search
import Earley.Proofs.Derivation.Trail
import Earley.Proofs.Derivation.LevelOrder
import Earley.Proofs.Derivation.Replay
import Earley.Proofs.Derivation.Agreement
import Earley.Proofs.Parser.Outcome
import Earley.Proofs.Parser.Totality
import Earley.Proofs.Derivation.Soundness
import Earley.Proofs.Derivation.Completeness
import Earley.Proofs.Derivation.Order
import Earley.Proofs.Grammar.Reduction
import Earley.Proofs.Parser.Reduction
import Earley.Proofs.Source.Location
import Earley.Proofs.Grammar.Rejection
import Earley.Proofs.Source.Marker
import Earley.Proofs.Source.Place
import Earley.Proofs.Grammar.Sharing
import Earley.Proofs.Grammar.Building
