import Constituency.CommandLine.Directory
import Constituency.Event
import Constituency.Grammar.Edit
import Constituency.Main
import Constituency.Proofs.Key
import Constituency.Proofs.Rewriting
import Constituency.Proofs.Spanning
import Constituency.Tree.Outline
import Constituency.Proofs.References
import Constituency.Proofs.Agreement
import Constituency.Proofs.Recognition
import Constituency.Proofs.Division
import Constituency.Proofs.Expansion
import Constituency.Proofs.Shape
import Constituency.Proofs.Uniqueness
import Constituency.Proofs.Derivation
import Constituency.Proofs.Converted
import Constituency.Proofs.Flattening
import Constituency.Proofs.Separation
import Constituency.Proofs.Loading
import Constituency.Proofs.Parsing
import Constituency.Proofs.ChartDerivation
import Constituency.Proofs.Restoration
import Constituency.Proofs.Reloading
import Constituency.Proofs.Reordering
import Constituency.Proofs.Locality
import Constituency.Proofs.StartSymbol
import Constituency.Proofs.Bracketing
import Constituency.Proofs.Phrases
import Constituency.Proofs.Splicing
import Constituency.Proofs.Files
import Constituency.Proofs.Rebracketing
import Constituency.Proofs.Transcript
import Constituency.Proofs.Arguments
import Constituency.Proofs.Reporting
import Constituency.Proofs.Tiling
import Constituency.Proofs.Unfolding
import Constituency.Proofs.Breadth
import Constituency.Proofs.ShortestChains
import Constituency.Proofs.Idempotence
import Constituency.Proofs.Lexicon
import Constituency.Proofs.Pruning
import Constituency.Proofs.Statements
import Constituency.Proofs.Ranking
import Constituency.Proofs.Lookups
import Constituency.Proofs.Requests
import Constituency.Proofs.Schedule
