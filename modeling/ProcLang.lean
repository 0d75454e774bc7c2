import ProcLang.Command.Folder
import ProcLang.Main
import ProcLang.Proofs.Generation.Code
import ProcLang.Proofs.Generation.State
import ProcLang.Proofs.Parsing.WellFormed
import ProcLang.Proofs.Generation.Expression
import ProcLang.Proofs.Register.Shuffle
import ProcLang.Proofs.Generation.Call
import ProcLang.Proofs.Generation.Statement
import ProcLang.Proofs.Generation.Program
import ProcLang.Proofs.Generation.Outcome
import ProcLang.Proofs.Asm.Label
import ProcLang.Proofs.Stack.Shape
import ProcLang.Proofs.Simulation.Call
import ProcLang.Proofs.Simulation.Layout
import ProcLang.Proofs.Stack.Discipline
import ProcLang.Proofs.Stack.Alignment
import ProcLang.Proofs.Stack.Storage
import ProcLang.Proofs.Stack.Jump
import ProcLang.Proofs.Simulation.Frame
import ProcLang.Proofs.Register.Session
import ProcLang.Proofs.Simulation.Block
import ProcLang.Proofs.Simulation.Statement
import ProcLang.Proofs.Simulation.Procedure
import ProcLang.Proofs.Token.Utf8
import ProcLang.Proofs.Token.Lexis
import ProcLang.Proofs.Token.Munch
import ProcLang.Proofs.Parsing.Grammar
import ProcLang.Proofs.Parsing.Sound
import ProcLang.Proofs.Parsing.Complete
import ProcLang.Proofs.Parsing.Report
import ProcLang.Proofs.Generation.Import
import ProcLang.Proofs.Observer.Refusal
import ProcLang.Proofs.Generation.Symbols
import ProcLang.Proofs.Machine.Guard
import ProcLang.Proofs.Bytes.Expression
import ProcLang.Proofs.Bytes.Call
import ProcLang.Proofs.Bytes.Statement
import ProcLang.Proofs.Bytes.Program
import ProcLang.Proofs.Token.Printing
import ProcLang.Proofs.Observer.Task
import ProcLang.Proofs.Observer.Worker
import ProcLang.Proofs.Generation.Steps
import ProcLang.Proofs.Generation.Nodes
import ProcLang.Proofs.Generation.Erasure
import ProcLang.Proofs.Observer.Shape
import ProcLang.Proofs.Token.Lines
import ProcLang.Proofs.Ast.PostOrder
import ProcLang.Proofs.Parsing.PostOrder
import ProcLang.Proofs.Generation.Demand
import ProcLang.Proofs.Simulation.Fault
import ProcLang.Proofs.Simulation.Evaluation
import ProcLang.Proofs.Register.Home
import ProcLang.Proofs.Parsing.Expression
import ProcLang.Proofs.Generation.Annotation
import ProcLang.Proofs.Simulation.CallSequence
import ProcLang.Proofs.Token.Place
import ProcLang.Proofs.Generation.Constants
import ProcLang.Proofs.Generation.Replay
import ProcLang.Proofs.Asm.StringData
import ProcLang.Proofs.Token.Number
import ProcLang.Proofs.Asm.Legible
import ProcLang.Proofs.Ast.Printer
import ProcLang.Proofs.Parsing.Printed
import ProcLang.Proofs.Token.Comment
import ProcLang.Proofs.Parsing.Locality
import ProcLang.Proofs.Simulation.Homecoming
