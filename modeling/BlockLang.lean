import BlockLang.Main
import BlockLang.Proofs.Simulation
import BlockLang.Proofs.CallTree.WellFormed
import BlockLang.Proofs.CallTree.Reading
import BlockLang.Proofs.CallTree.Building
import BlockLang.Proofs.CallTree.Writing
import BlockLang.Proofs.CallTree.Postorder
import BlockLang.Proofs.CallTree.Soundness
import BlockLang.Proofs.CallTree.Pure
import BlockLang.Proofs.Value.Identity
import BlockLang.Proofs.Value.Errors
import BlockLang.Proofs.Value.Sums
import BlockLang.Proofs.Code.RoundTrip
import BlockLang.Proofs.Code.Pool
import BlockLang.Proofs.Code.Faithful
import BlockLang.Proofs.Code.Validity
import BlockLang.Proofs.Machine.Pieces
import BlockLang.Proofs.Machine.Isolation
import BlockLang.Proofs.Machine.Caching
import BlockLang.Proofs.Machine.Validity
import BlockLang.Proofs.Machine.Scoping
import BlockLang.Proofs.Machine.Fuel
import BlockLang.Proofs.Machine.Evaluation
import BlockLang.Proofs.Machine.Rewriting
import BlockLang.Proofs.Value.Fractions
import BlockLang.Proofs.Value.Contents
import BlockLang.Proofs.Machine.SharedFactor
import BlockLang.Proofs.CallTree.Repeating
import BlockLang.Proofs.Code.Repeating
import BlockLang.Proofs.Machine.Returning
import BlockLang.Proofs.Machine.Resembling
import BlockLang.Proofs.Machine.Following
import BlockLang.Proofs.Machine.FollowingForms
import BlockLang.Proofs.Machine.FollowingRuns
import BlockLang.Proofs.Machine.Marking
import BlockLang.Proofs.Machine.Memoizing
import BlockLang.Proofs.Reading.Paths
import BlockLang.Proofs.Reading.Brackets
import BlockLang.Proofs.CallTree.Heads
import BlockLang.Proofs.CallTree.Labels
import BlockLang.Proofs.CallTree.Operands
import BlockLang.Proofs.Machine.Orderly
import BlockLang.Proofs.Machine.OrderlyBlocks
import BlockLang.Proofs.Machine.OrderlyForms
import BlockLang.Proofs.Machine.OrderlyRuns
import BlockLang.Proofs.Machine.Pending
import BlockLang.Proofs.Machine.Attributes
import BlockLang.Proofs.Code.Appending
import BlockLang.Proofs.Memo
import BlockLang.Proofs.Machine.Levels
import BlockLang.Proofs.Machine.LevelRuns
import BlockLang.Proofs.Machine.Deepening
import BlockLang.Proofs.Machine.DepthBound
import BlockLang.Proofs.Value.Ending
import BlockLang.Proofs.Reading.Rereading
import BlockLang.Proofs.Machine.Recompiling
import BlockLang.Proofs.Machine.Looping
import BlockLang.Proofs.Machine.Gathering
import BlockLang.Proofs.Machine.LateBinding
import BlockLang.Proofs.Value.Exactness
import BlockLang.Proofs.CallTree.Placeholders
import BlockLang.Proofs.Machine.Arities
import BlockLang.Proofs.Value.LowestTerms
import BlockLang.Proofs.Value.Comparing
import BlockLang.Proofs.Value.Equivalence
import BlockLang.Proofs.Text.EditDistance
import BlockLang.Proofs.Text.Suggestions
import BlockLang.Proofs.Reading.Lexemes
import BlockLang.Proofs.Reading.Items
import BlockLang.Proofs.Reading.Longest
import BlockLang.Proofs.Reading.Tiling
import BlockLang.Proofs.Reading.Lines
import BlockLang.Proofs.Reading.Segments
import BlockLang.Proofs.CallTree.Traversing
import BlockLang.Proofs.Value.Hashing
