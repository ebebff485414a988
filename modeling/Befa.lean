import Befa.Assembly.AddressExpr
import Befa.Assembly.AddressTable
import Befa.Assembly.BlockHeaders
import Befa.Assembly.BlockOwners
import Befa.Assembly.BlockStream
import Befa.Assembly.DecodeWindow
import Befa.Assembly.FetchSymbols
import Befa.Assembly.FileHandles
import Befa.Assembly.FunctionCode
import Befa.Assembly.FunctionMap
import Befa.Assembly.JumpTargets
import Befa.Assembly.ListedProgram
import Befa.Assembly.Mirror
import Befa.Assembly.Moves
import Befa.Assembly.Observers
import Befa.Assembly.OwnBytes
import Befa.Assembly.PrintLoop
import Befa.Assembly.Reruns
import Befa.Assembly.Resolution
import Befa.Assembly.SectionListing
import Befa.Assembly.SeparateOperands
import Befa.Assembly.SymbolPartition
import Befa.Assembly.TextItems
import Befa.Assembly.WindowBounds
import Befa.Assembly.WindowOrder
import Befa.Llvm.BranchTargets
import Befa.Llvm.BranchTraces
import Befa.Llvm.Compositional
import Befa.Llvm.DefUse
import Befa.Llvm.FlagSimulation
import Befa.Llvm.Lookups
import Befa.Llvm.Mapper
import Befa.Llvm.PrintedIr
