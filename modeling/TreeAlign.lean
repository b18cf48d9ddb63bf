import TreeAlign.Command.Disk
import TreeAlign.Main
import TreeAlign.Matching.Annotations
import TreeAlign.Matching.Codec
import TreeAlign.Proofs.Cover.Bounds
import TreeAlign.Proofs.Cover.Search
import TreeAlign.Proofs.Dispatch
import TreeAlign.Proofs.Scores
import TreeAlign.Proofs.Refinement
import TreeAlign.Proofs.Comparison
import TreeAlign.Proofs.KnownUnequal
import TreeAlign.Proofs.Recording
import TreeAlign.Proofs.Cover.Passes
import TreeAlign.Proofs.Cover.Isomorphism
import TreeAlign.Proofs.Refusal
import TreeAlign.Proofs.Cover.Markers
import TreeAlign.Proofs.Assignment.Exactness
import TreeAlign.Proofs.Asking
import TreeAlign.Proofs.Outlines
import TreeAlign.Proofs.Invariance
import TreeAlign.Proofs.Json.Spelling
import TreeAlign.Proofs.Json.Reading
import TreeAlign.Proofs.Documents
import TreeAlign.Proofs.Assignment.Faithful
import TreeAlign.Proofs.PairedChildren
import TreeAlign.Proofs.Verdicts
import TreeAlign.Proofs.Cover.Rescoring
import TreeAlign.Proofs.Cover.Crossing
import TreeAlign.Proofs.Overlaps
import TreeAlign.Proofs.Cover.Pricing
import TreeAlign.Proofs.Cover.BestSeen
import TreeAlign.Proofs.ForcedOrder
import TreeAlign.Proofs.Counting
import TreeAlign.Proofs.Arena
import TreeAlign.Proofs.Cover.Breakup
import TreeAlign.Proofs.Cover.Graph
import TreeAlign.Proofs.Cover.Progress
import TreeAlign.Proofs.Generator
