import Specializer.CommandLine.Run
import Specializer.Job
import Specializer.Main
import Specializer.Manifest
import Specializer.Proofs.Accounting
import Specializer.Proofs.BatchEffects
import Specializer.Proofs.Coherence
import Specializer.Proofs.CommentEnds
import Specializer.Proofs.Coverage
import Specializer.Proofs.Diamonds
import Specializer.Proofs.DocOrder
import Specializer.Proofs.Failures
import Specializer.Proofs.Frame
import Specializer.Proofs.Interleaving
import Specializer.Proofs.KeptEntries
import Specializer.Proofs.NestedReferences
import Specializer.Proofs.Nesting
import Specializer.Proofs.ObjectArguments
import Specializer.Proofs.OutputNames
import Specializer.Proofs.Packing
import Specializer.Proofs.PositionalNames
import Specializer.Proofs.Remnants
import Specializer.Proofs.Renaming
import Specializer.Proofs.Schedules
import Specializer.Proofs.Strays
import Specializer.Proofs.Tiling
import Specializer.Proofs.Trivia
import Specializer.Proofs.TypeName
import Specializer.Proofs.TypeTests
import Specializer.Proofs.Uniformity
import Specializer.Report.Render
import Specializer.Template
import Specializer.Token.Listing
import Specializer.Tree.Listing
import Specializer.Proofs.LineNumbers
import Specializer.Proofs.TextBlocks
import Specializer.Proofs.Snippets
import Specializer.Proofs.JobEndings
import Specializer.Proofs.Searches
import Specializer.Proofs.ManifestRuns
import Specializer.Proofs.Composition
import Specializer.Proofs.Segments
import Specializer.Proofs.TypeLists
