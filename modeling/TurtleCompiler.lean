import TurtleCompiler.Main
import TurtleCompiler.Proofs.Calls
import TurtleCompiler.Proofs.LetterCase
import TurtleCompiler.Proofs.MachineNames
import TurtleCompiler.Proofs.LineBreaks
import TurtleCompiler.Proofs.Diagnostics
import TurtleCompiler.Proofs.DefinitionOrder
import TurtleCompiler.Proofs.Printing
import TurtleCompiler.Proofs.StraightCode
import TurtleCompiler.Proofs.IntegerFolding
import TurtleCompiler.Proofs.ValueStack
import TurtleCompiler.Proofs.Comparison
import TurtleCompiler.Proofs.FirstAssignment
import TurtleCompiler.Proofs.Partition
import TurtleCompiler.Proofs.Arguments
import TurtleCompiler.Proofs.Indentation
import TurtleCompiler.Proofs.FiniteConstants
import TurtleCompiler.Proofs.Fuel
import TurtleCompiler.Proofs.Rounds
import TurtleCompiler.Proofs.Rendering
import TurtleCompiler.Proofs.AliasChains
import TurtleCompiler.Proofs.InsertionOrder
