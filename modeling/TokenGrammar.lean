import TokenGrammar.Config.File
import TokenGrammar.Conversion
import TokenGrammar.Evaluation
import TokenGrammar.Leaf
import TokenGrammar.Trace.Repetition
import TokenGrammar.Proofs.Abort
import TokenGrammar.Proofs.ModeSwitch
import TokenGrammar.Proofs.Unmixed
import TokenGrammar.Proofs.Segments
import TokenGrammar.Proofs.Conservation
import TokenGrammar.Proofs.Growth
import TokenGrammar.Proofs.Alternatives
import TokenGrammar.Proofs.Nesting
import TokenGrammar.Proofs.Recovery
import TokenGrammar.Proofs.Survey
import TokenGrammar.Proofs.FirstMatch
import TokenGrammar.Proofs.Permutation
import TokenGrammar.Proofs.Partition
import TokenGrammar.Proofs.Headroom
import TokenGrammar.Proofs.Ranking
import TokenGrammar.Proofs.Placement
import TokenGrammar.Proofs.Parallel
import TokenGrammar.Proofs.Shape
import TokenGrammar.Proofs.ExplicitMode
import TokenGrammar.Proofs.Deferral
import TokenGrammar.Proofs.Entries
import TokenGrammar.Proofs.Wrapping
import TokenGrammar.Proofs.RoundTrip
import TokenGrammar.Proofs.LeftRecursion
import TokenGrammar.Proofs.Levels
import TokenGrammar.Proofs.Slices
import TokenGrammar.Proofs.Partials
import TokenGrammar.Proofs.Equivalence
import TokenGrammar.Proofs.Trials
import TokenGrammar.Proofs.Toleration
import TokenGrammar.Proofs.Divergence
import TokenGrammar.Proofs.Regrouping
import TokenGrammar.Proofs.Flattening
import TokenGrammar.Proofs.Iteration
import TokenGrammar.Proofs.Cutting
import TokenGrammar.Proofs.Healing
import TokenGrammar.Proofs.Height
import TokenGrammar.Proofs.Ceiling
import TokenGrammar.Proofs.Repetitions
import TokenGrammar.Proofs.Lines
import TokenGrammar.Proofs.Listing
import TokenGrammar.Proofs.Logging
import TokenGrammar.Proofs.Extents
import TokenGrammar.Proofs.Members
import TokenGrammar.Proofs.Leniency
import TokenGrammar.Proofs.Decoding
import TokenGrammar.Proofs.RecordForms
import TokenGrammar.Proofs.WrittenForms
