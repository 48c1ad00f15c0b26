import Accumulator.Machine.Step
import Accumulator.Wire
import Accumulator.Text.Quoted
import Accumulator.Text.Decimal
import Accumulator.Listing.Printer
import Accumulator.Listing.Parser
import Accumulator.Listing.InPlace
import Accumulator.Flow.Dump
import Accumulator.Flow.Canonical
import Accumulator.Flow.Spill
import Accumulator.Flow.Coalesce
import Accumulator.Flow.Run
import Accumulator.Layout.Program
import Accumulator.Tree.Build
import Accumulator.Tree.Decode
import Accumulator.Tree.Run
import Accumulator.Compile
import Accumulator.Main
import Accumulator.Proofs.Arena
import Accumulator.Proofs.Sound
import Accumulator.Proofs.Editing
import Accumulator.Proofs.Agree
import Accumulator.Proofs.CoalesceMeaning
import Accumulator.Proofs.CoalescedLength
import Accumulator.Proofs.CodeChart
import Accumulator.Proofs.CodeLength
import Accumulator.Proofs.DecidableTrees
import Accumulator.Proofs.Declared
import Accumulator.Proofs.DivisionRange
import Accumulator.Proofs.Depth
import Accumulator.Proofs.Building
import Accumulator.Proofs.BuildingBodies
import Accumulator.Proofs.TreeRuns
import Accumulator.Proofs.SpillMeaning
import Accumulator.Proofs.StackCode
import Accumulator.Proofs.Statistics
import Accumulator.Proofs.OperandsInPlace
import Accumulator.Proofs.Compiling
import Accumulator.Proofs.Verifying
import Accumulator.Proofs.FrameTiling
import Accumulator.Proofs.FunctionHeaders
import Accumulator.Proofs.ListingGrammar
import Accumulator.Proofs.ListingLines
import Accumulator.Proofs.ListingRoundTrip
import Accumulator.Proofs.ComplementMeaning
import Accumulator.Proofs.TreeMeaning
import Accumulator.Proofs.BuildMeaning
import Accumulator.Proofs.MachineRuns
import Accumulator.Proofs.RecipeRuns
import Accumulator.Proofs.PlacedJumps
import Accumulator.Proofs.Placing
import Accumulator.Proofs.SelectedRuns
import Accumulator.Proofs.LoweringMeaning
import Accumulator.Proofs.LinkedRuns
import Accumulator.Proofs.CompileMeaning
import Accumulator.Proofs.RecipeResults
import Accumulator.Proofs.StrayBranches
import Accumulator.Proofs.ReadingFaults
import Accumulator.Proofs.StepLimits
import Accumulator.Proofs.ConstantRuns
import Accumulator.Proofs.CoalesceFixpoint
import Accumulator.Proofs.BuildSteps
import Accumulator.Proofs.BuildShape
import Accumulator.Proofs.FiniteSets
import Accumulator.Proofs.WalkOrder
import Accumulator.Proofs.ParserPositions
import Accumulator.Proofs.ReadingInPlace
import Accumulator.Proofs.ListingPositions
