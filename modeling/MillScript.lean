import MillScript.Location
import MillScript.Decimal.Exact
import MillScript.Decimal.Write
import MillScript.Decimal.Read
import MillScript.Vec
import MillScript.LengthUnit
import MillScript.Quantity.Basic
import MillScript.Operator
import MillScript.ValueKind
import MillScript.Builtin
import MillScript.SyntaxTree
import MillScript.Fault
import MillScript.FileSystem
import MillScript.Quantity.Arithmetic
import MillScript.Token
import MillScript.Token.Scan
import MillScript.SyntaxTree.State
import MillScript.SyntaxTree.Parse
import MillScript.Program
import MillScript.Program.Lower
import MillScript.Value
import MillScript.Scopes
import MillScript.Material
import MillScript.Machine
import MillScript.Toolpath
import MillScript.Gcode.Line
import MillScript.Gcode.Emit
import MillScript.Machining.Steps
import MillScript.Machining.Motion
import MillScript.Machining.Operations
import MillScript.Spacing
import MillScript.World
import MillScript.Call
import MillScript.Evaluation
import MillScript.Session
import MillScript.CommandLine
import MillScript.Main
import MillScript.Proofs.Outcome
import MillScript.Proofs.Vec
import MillScript.Proofs.Decimal.Exact
import MillScript.Proofs.Value
import MillScript.Proofs.Token.Gaps
import MillScript.Proofs.Token.LongestMatch
import MillScript.Proofs.Token.Layout
import MillScript.Proofs.Token.BreakingPoint
import MillScript.Proofs.Grammar.Derives
import MillScript.Proofs.Grammar.Soundness
import MillScript.Proofs.Grammar.Completeness
import MillScript.Proofs.Grammar.ViablePrefix
import MillScript.Proofs.Relocation.Parsing
import MillScript.Proofs.Relocation.Lowering
import MillScript.Proofs.Token.Concatenation
import MillScript.Proofs.Program.Literals
import MillScript.Proofs.Machining.Plan
import MillScript.Proofs.Machining.Frame
import MillScript.Proofs.Machining.Faults
import MillScript.Proofs.Call
import MillScript.Proofs.Machining.Discipline
import MillScript.Proofs.Machining.Settings
import MillScript.Proofs.Machining.Recorded
import MillScript.Proofs.Machining.Mirror
import MillScript.Proofs.Machining.OnRecord
import MillScript.Proofs.Machining.Level
import MillScript.Proofs.Machining.Blind
import MillScript.Proofs.Gcode.Text
import MillScript.Proofs.Gcode.Numbers
import MillScript.Proofs.Gcode.Lines
import MillScript.Proofs.Gcode.Controller
import MillScript.Proofs.Gcode.ModalSuppression
import MillScript.Proofs.Gcode.Remarks
import MillScript.Proofs.Gcode.Writable
import MillScript.Proofs.Evaluation.Scripted
import MillScript.Proofs.Evaluation.Agreement
import MillScript.Proofs.Evaluation.Frames
import MillScript.Proofs.Evaluation.Lexical
import MillScript.Proofs.Evaluation.Shapes
import MillScript.Proofs.Evaluation.StaticFaults
import MillScript.Proofs.Relocation.Evaluation
import MillScript.Proofs.Session.Runs
import MillScript.Proofs.Session.FailedRuns
import MillScript.Proofs.Session.History
import MillScript.Proofs.Session.MotionDiscipline
import MillScript.Proofs.Session.Calls
import MillScript.Proofs.Session.RealValues
import MillScript.Proofs.Session.Output
import MillScript.Proofs.Session.Mirror
import MillScript.Proofs.Session.Geometry
import MillScript.Proofs.Session.OnRecord
import MillScript.Proofs.Session.Layout
import MillScript.Proofs.Session.Concatenation
import MillScript.Proofs.Grammar.Lowering
import MillScript.Proofs.Evaluation.Blame
import MillScript.Proofs.Evaluation.Innermost
import MillScript.Proofs.Session.Blame
import MillScript.Proofs.Machining.Upkeep
import MillScript.Proofs.Session.Upkeep
import MillScript.Proofs.Token.Spelling
import MillScript.Proofs.Program.Arguments
import MillScript.Proofs.Program.Binding
import MillScript.Proofs.Program.Printing
import MillScript.Proofs.Program.RoundTrip
import MillScript.Proofs.CommandLine.Groups
import MillScript.Proofs.CommandLine.Outcome
import MillScript.Proofs.Decimal.Value
import MillScript.Proofs.Decimal.Rounding
import MillScript.Proofs.Decimal.Numerals
import MillScript.Proofs.Machining.Strokes
import MillScript.Proofs.Machining.Stages
import MillScript.Proofs.Machining.Courses
import MillScript.Proofs.Decimal.Arithmetic
import MillScript.Proofs.Lengths
import MillScript.Proofs.Machining.ArcEnds
import MillScript.Proofs.Machining.DepthStaging
import MillScript.Proofs.Machining.Repetition
import MillScript.Proofs.Machining.RingSteps
import MillScript.Proofs.Machining.Validation
