import WordScript.Main
import WordScript.Tree.Cursor
import WordScript.Typing.Shared
import WordScript.World.Memory
import WordScript.Proofs.Correctness
import WordScript.Proofs.ModuleRoundTrip
import WordScript.Proofs.SourceRoundTrip
import WordScript.Proofs.GraphExecution
import WordScript.Proofs.GraphBuilding
import WordScript.Proofs.GraphSimulation
import WordScript.Proofs.GraphFollows
import WordScript.Proofs.GraphFunctions
import WordScript.Proofs.ReturnPaths
import WordScript.Proofs.GraphFlow
import WordScript.Proofs.GraphValues
import WordScript.Proofs.GraphWellFormed
import WordScript.Proofs.Reachability
import WordScript.Proofs.Representation
import WordScript.Proofs.RepresentationPoints
import WordScript.Proofs.SafeLowering
import WordScript.Proofs.RepresentationRuns
import WordScript.Proofs.TruthValues
import WordScript.Proofs.NoneValues
import WordScript.Proofs.RunDerivation
import WordScript.Proofs.GraphRefinement
import WordScript.Proofs.MachineSafety
import WordScript.Proofs.Cancellation
import WordScript.Proofs.IndexedReading
import WordScript.Proofs.IndexedLoading
import WordScript.Proofs.IndexedExecution
import WordScript.Proofs.Positions
import WordScript.Proofs.TreeShape
import WordScript.Proofs.CheckSpans
import WordScript.Proofs.TreePositions
import WordScript.Proofs.Building
import WordScript.Proofs.ReadingEnds
import WordScript.Proofs.Compiling
import WordScript.Proofs.FunctionOrder
import WordScript.Proofs.Layout
import WordScript.Proofs.LayoutEdits
import WordScript.Proofs.Indentation
import WordScript.Proofs.Annotations
import WordScript.Proofs.Unfolding
import WordScript.Proofs.Printing
import WordScript.Proofs.Listings
import WordScript.Proofs.Underlines
import WordScript.Proofs.Navigation
import WordScript.Proofs.Power
