import BranchingTubes.Mesh.Measure
import BranchingTubes.Mesh.Fingerprint
import BranchingTubes.Growth.Grammar
import BranchingTubes.Derivation.Modules
import BranchingTubes.Json.Reader
import BranchingTubes.Json.Writer
import BranchingTubes.Codec.Drawing
import BranchingTubes.Codec.Rules
import BranchingTubes.Proofs.BranchIsolation
import BranchingTubes.Proofs.InterpretationOutcome
import BranchingTubes.Proofs.TubeTopology
import BranchingTubes.Proofs.BracketDepth
import BranchingTubes.Proofs.UnsignedSums
import BranchingTubes.Proofs.BracketedGrowth
import BranchingTubes.Proofs.BranchAxes
import BranchingTubes.Proofs.NumberedWords
import BranchingTubes.Proofs.SkeletonTree
import BranchingTubes.Proofs.WordExtension
import BranchingTubes.Proofs.DecayedPen
import BranchingTubes.Proofs.SymbolCensus
import BranchingTubes.Proofs.ParameterInfluence
import BranchingTubes.Proofs.StartOrientation
import BranchingTubes.Proofs.ChoiceStream
import BranchingTubes.Proofs.FiniteGeometry
import BranchingTubes.Proofs.InertAlternatives
import BranchingTubes.Proofs.MarkedOccurrences
import BranchingTubes.Proofs.SharedRules
import BranchingTubes.Proofs.WeightedGrowth
import BranchingTubes.Proofs.InsertionHistory
import BranchingTubes.Proofs.QuietBlocks
import BranchingTubes.Proofs.LengthOverrides
import BranchingTubes.Proofs.MirroredTurns
import BranchingTubes.Proofs.TightBounds
import BranchingTubes.Proofs.NonNegativeMass
import BranchingTubes.Proofs.GrowthCaps
import BranchingTubes.Proofs.JsonRoundTrip
import BranchingTubes.Proofs.CommandHistory
