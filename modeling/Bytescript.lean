import Bytescript.Address
import Bytescript.Assembly.Basic
import Bytescript.Assembly.Generate
import Bytescript.Bytes
import Bytescript.Code.Instruction
import Bytescript.Code.Opcode
import Bytescript.Command.Basic
import Bytescript.Command.Directory
import Bytescript.Command.Path
import Bytescript.Compile
import Bytescript.Constant
import Bytescript.Environment
import Bytescript.Floating.Arithmetic
import Bytescript.Floating.Decimal
import Bytescript.Floating.Format
import Bytescript.Floating.Half
import Bytescript.Issue
import Bytescript.Literal.Basic
import Bytescript.Machine.Fault
import Bytescript.Machine.Run
import Bytescript.Machine.Stack
import Bytescript.Machine.Step
import Bytescript.Main
import Bytescript.Pool
import Bytescript.Primitive
import Bytescript.Program.Basic
import Bytescript.Program.Builder
import Bytescript.Program.Equality
import Bytescript.Program.Wire
import Bytescript.Proofs.Acceptance
import Bytescript.Proofs.Agreement
import Bytescript.Proofs.Annotation
import Bytescript.Proofs.Bookkeeping
import Bytescript.Proofs.CanonicalTruth
import Bytescript.Proofs.Containment
import Bytescript.Proofs.Correctness
import Bytescript.Proofs.Course
import Bytescript.Proofs.DeclarationOrder
import Bytescript.Proofs.Depth
import Bytescript.Proofs.Encoding
import Bytescript.Proofs.Evaluation
import Bytescript.Proofs.Execution
import Bytescript.Proofs.ExpressionErrors
import Bytescript.Proofs.FieldPaths
import Bytescript.Proofs.Footprint
import Bytescript.Proofs.Gates
import Bytescript.Proofs.Generation
import Bytescript.Proofs.HalfStorage
import Bytescript.Proofs.Identity
import Bytescript.Proofs.InPlace
import Bytescript.Proofs.InRange
import Bytescript.Proofs.IntegerCasts
import Bytescript.Proofs.IntegerOperations
import Bytescript.Proofs.Judgement
import Bytescript.Proofs.LaidOut
import Bytescript.Proofs.Layout
import Bytescript.Proofs.LiteralArithmetic
import Bytescript.Proofs.LiteralPrograms
import Bytescript.Proofs.LiteralTexts
import Bytescript.Proofs.LiteralValues
import Bytescript.Proofs.Loading
import Bytescript.Proofs.Lockstep
import Bytescript.Proofs.LoopFree
import Bytescript.Proofs.Lowering
import Bytescript.Proofs.MarkedExpressions
import Bytescript.Proofs.MarkedStatements
import Bytescript.Proofs.ModuleNames
import Bytescript.Proofs.NarrowestTypes
import Bytescript.Proofs.Numerals
import Bytescript.Proofs.Occupancy
import Bytescript.Proofs.Operations
import Bytescript.Proofs.Partition
import Bytescript.Proofs.Placement
import Bytescript.Proofs.Reached
import Bytescript.Proofs.ReadBack
import Bytescript.Proofs.Realization
import Bytescript.Proofs.RegisterWords
import Bytescript.Proofs.Registers
import Bytescript.Proofs.Registration
import Bytescript.Proofs.Room
import Bytescript.Proofs.ScriptFile
import Bytescript.Proofs.SharedConstants
import Bytescript.Proofs.Simulation
import Bytescript.Proofs.Sites
import Bytescript.Proofs.StoredText
import Bytescript.Proofs.Strictness
import Bytescript.Proofs.Tiling
import Bytescript.Proofs.Tree
import Bytescript.Proofs.TruthBytes
import Bytescript.Proofs.TypedCode
import Bytescript.Proofs.Universe
import Bytescript.Proofs.Variables
import Bytescript.Script.Basic
import Bytescript.Script.Image
import Bytescript.Script.Listing
import Bytescript.Text.Columns
import Bytescript.Text.Quoted
import Bytescript.Text.Unprinted
import Bytescript.Text.Utf16
import Bytescript.Types.Basic
import Bytescript.Types.Catalog
import Bytescript.Types.Conversion
import Bytescript.Typing.Infer
import Bytescript.Typing.Note
import Bytescript.Typing.Rules
