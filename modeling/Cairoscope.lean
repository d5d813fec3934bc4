import Cairoscope.Analysis.Analyzer
import Cairoscope.Analysis.Assignments
import Cairoscope.Analysis.Coverage
import Cairoscope.Analysis.Inventory
import Cairoscope.Analysis.Naming
import Cairoscope.Analysis.Overflow
import Cairoscope.Analysis.Report
import Cairoscope.Analysis.Token
import Cairoscope.Artifact.Annotation
import Cairoscope.Artifact.Basic
import Cairoscope.Artifact.Listing
import Cairoscope.Artifact.Signature
import Cairoscope.CallGraph
import Cairoscope.CommandLine.Arguments
import Cairoscope.CommandLine.Console
import Cairoscope.CommandLine.ContractTool
import Cairoscope.CommandLine.SierraTool
import Cairoscope.Components
import Cairoscope.Contract.Basic
import Cairoscope.Contract.Disassembly
import Cairoscope.Contract.InstructionText
import Cairoscope.Contract.Load
import Cairoscope.Contract.Prototype
import Cairoscope.DataFlow.Colour
import Cairoscope.DataFlow.Drawing
import Cairoscope.DataFlow.Graph
import Cairoscope.DataFlow.Taint
import Cairoscope.Decompiler.Program
import Cairoscope.Decompiler.State
import Cairoscope.Decompiler.Statement
import Cairoscope.Dot
import Cairoscope.Fault
import Cairoscope.Field
import Cairoscope.FlowGraph.Basic
import Cairoscope.FlowGraph.Build
import Cairoscope.FlowGraph.Complexity
import Cairoscope.FlowGraph.Edge
import Cairoscope.FlowGraph.Merge
import Cairoscope.FlowGraph.Path
import Cairoscope.Instruction.Basic
import Cairoscope.Instruction.Decode
import Cairoscope.Instruction.Record
import Cairoscope.Json.Access
import Cairoscope.Json.Basic
import Cairoscope.Json.Display
import Cairoscope.Json.Key
import Cairoscope.Json.Reader
import Cairoscope.Json.Writer
import Cairoscope.Main
import Cairoscope.Memory.Basic
import Cairoscope.Memory.Variable
import Cairoscope.Proofs.Acceptance
import Cairoscope.Proofs.Allocation
import Cairoscope.Proofs.ApMoves
import Cairoscope.Proofs.AssertedProblems
import Cairoscope.Proofs.Attenuation
import Cairoscope.Proofs.Blocks
import Cairoscope.Proofs.Braces
import Cairoscope.Proofs.Branches
import Cairoscope.Proofs.CallEdges
import Cairoscope.Proofs.CallResults
import Cairoscope.Proofs.Cells
import Cairoscope.Proofs.Clauses
import Cairoscope.Proofs.Complexity
import Cairoscope.Proofs.Decoding
import Cairoscope.Proofs.DepthFirst
import Cairoscope.Proofs.Documents
import Cairoscope.Proofs.Effects
import Cairoscope.Proofs.ElementText
import Cairoscope.Proofs.Encoding
import Cairoscope.Proofs.EntryBlocks
import Cairoscope.Proofs.Enumeration
import Cairoscope.Proofs.Equality
import Cairoscope.Proofs.FallThrough
import Cairoscope.Proofs.FirstPass
import Cairoscope.Proofs.Frames
import Cairoscope.Proofs.Graphs
import Cairoscope.Proofs.JumpTargets
import Cairoscope.Proofs.Linking
import Cairoscope.Proofs.Listing
import Cairoscope.Proofs.LoadedCode
import Cairoscope.Proofs.Meaning
import Cairoscope.Proofs.MergeSearch
import Cairoscope.Proofs.MergedOperands
import Cairoscope.Proofs.Modes
import Cairoscope.Proofs.NumberReading
import Cairoscope.Proofs.Numerals
import Cairoscope.Proofs.OperandEdges
import Cairoscope.Proofs.Operations
import Cairoscope.Proofs.Outcome
import Cairoscope.Proofs.Ownership
import Cairoscope.Proofs.Passes
import Cairoscope.Proofs.Paths
import Cairoscope.Proofs.Prototypes
import Cairoscope.Proofs.RecordText
import Cairoscope.Proofs.RecordedValues
import Cairoscope.Proofs.Rendering
import Cairoscope.Proofs.RequestForms
import Cairoscope.Proofs.ReturnArity
import Cairoscope.Proofs.Sections
import Cairoscope.Proofs.Sierra.Bracketing
import Cairoscope.Proofs.Sierra.BranchTargets
import Cairoscope.Proofs.Sierra.Callees
import Cairoscope.Proofs.Sierra.Conditions
import Cairoscope.Proofs.Sierra.Declarations
import Cairoscope.Proofs.Sierra.InnerTypes
import Cairoscope.Proofs.Sierra.Loading
import Cairoscope.Proofs.Sierra.Names
import Cairoscope.Proofs.Sierra.Partition
import Cairoscope.Proofs.Sierra.Pieces
import Cairoscope.Proofs.Sierra.Stretches
import Cairoscope.Proofs.Sierra.Termination
import Cairoscope.Proofs.Sierra.VariableNames
import Cairoscope.Proofs.Spreading
import Cairoscope.Proofs.Steps
import Cairoscope.Proofs.StraightLine
import Cairoscope.Proofs.StrongComponents
import Cairoscope.Proofs.Sweep
import Cairoscope.Proofs.TestCases
import Cairoscope.Proofs.TestedCells
import Cairoscope.Proofs.Traces
import Cairoscope.Proofs.WellFormed
import Cairoscope.Proofs.WrapAround
import Cairoscope.Session
import Cairoscope.Sierra.Analyzer
import Cairoscope.Sierra.Blocks
import Cairoscope.Sierra.Decompiler
import Cairoscope.Sierra.Drawing
import Cairoscope.Sierra.Nesting
import Cairoscope.Sierra.Program
import Cairoscope.Sierra.Reader
import Cairoscope.Sierra.Syntax
import Cairoscope.Sierra.Text
import Cairoscope.Symbolic.Execution
import Cairoscope.Symbolic.Polynomial
import Cairoscope.Symbolic.Problem
import Cairoscope.Symbolic.Projection
import Cairoscope.Symbolic.Request
import Cairoscope.Symbolic.Roots
import Cairoscope.Symbolic.Search
import Cairoscope.Symbolic.Settings
import Cairoscope.Symbolic.System
import Cairoscope.Text.Blank
import Cairoscope.Text.Digit
import Cairoscope.Text.LineEnd
import Cairoscope.Text.Numeral
import Cairoscope.Text.Palette
import Cairoscope.Text.Printable
import Cairoscope.Text.Ranges
import Cairoscope.Text.Split
import Cairoscope.Text.Utf8
import Cairoscope.Text.Word
import Cairoscope.Yaml.Reader
import Cairoscope.Yaml.Scalar
import Cairoscope.Proofs.Comments
import Cairoscope.Proofs.BranchEnds
import Cairoscope.Proofs.StatementBraces
import Cairoscope.Proofs.CodeBraces
import Cairoscope.Proofs.Transfers
import Cairoscope.Proofs.Hints
import Cairoscope.Proofs.OverflowReports
import Cairoscope.Proofs.RecordedCalls
import Cairoscope.Proofs.ArgumentLabels
import Cairoscope.Proofs.Disassembly
