import Wordcode.Code.ControlFlow
import Wordcode.Code.Image
import Wordcode.Code.Instruction
import Wordcode.Code.Listing
import Wordcode.Code.Opcode
import Wordcode.Compile.Diagnostic
import Wordcode.Compile.Emitter
import Wordcode.Compile.Lowering
import Wordcode.Journal
import Wordcode.Machine.Exec
import Wordcode.Machine.Fault
import Wordcode.Machine.Limits
import Wordcode.Machine.Run
import Wordcode.Machine.Settings
import Wordcode.Machine.State
import Wordcode.Machine.Step
import Wordcode.Operator.Arithmetic
import Wordcode.Operator.Basic
import Wordcode.Sample
import Wordcode.Session
import Wordcode.Span
import Wordcode.Text.Blank
import Wordcode.Tree.Basic
import Wordcode.Tree.Equality
import Wordcode.Tree.NormalForm
import Wordcode.Tree.Survey
import Wordcode.Tree.Text
import Wordcode.Tree.Transformer
import Wordcode.Tree.Visitor
import Wordcode.Word
import Wordcode.Yaml.Anchor
import Wordcode.Yaml.Character
import Wordcode.Yaml.Count
import Wordcode.Yaml.Cursor
import Wordcode.Yaml.Mapping
import Wordcode.Yaml.Scalar
import Wordcode.Yaml.Scalar.Block
import Wordcode.Yaml.Scalar.Plain
import Wordcode.Yaml.Scalar.Quoted
import Wordcode.Yaml.Token
import Wordcode.Yaml.Token.Lexer
import Wordcode.Proofs.Layout
import Wordcode.Proofs.Emission
import Wordcode.Proofs.Evaluation
import Wordcode.Proofs.Action
import Wordcode.Proofs.Configuration
import Wordcode.Proofs.Instructions
import Wordcode.Proofs.BodySimulation
import Wordcode.Proofs.ProgramSimulation
import Wordcode.Proofs.Correctness
import Wordcode.Proofs.Frames
import Wordcode.Proofs.Isolation
import Wordcode.Proofs.Guarded
import Wordcode.Proofs.Relocation
import Wordcode.Proofs.Containment
import Wordcode.Proofs.Renaming
import Wordcode.Proofs.Balance
import Wordcode.Proofs.StackBound
import Wordcode.Proofs.Correspondence
import Wordcode.Proofs.Reordering
import Wordcode.Proofs.CheckedFlow
import Wordcode.Proofs.OperandText
import Wordcode.Proofs.CanonicalText
import Wordcode.Proofs.ListingLines
import Wordcode.Proofs.LosslessListing
import Wordcode.Proofs.Collapse
import Wordcode.Proofs.Grouping
import Wordcode.Proofs.FlowRules
import Wordcode.Proofs.Sites
import Wordcode.Proofs.OperandRuns
import Wordcode.Proofs.Discipline
import Wordcode.Proofs.CallDepth
import Wordcode.Proofs.Termination
import Wordcode.Proofs.ExactArithmetic
import Wordcode.Proofs.FaultSites
import Wordcode.Proofs.Traversal
import Wordcode.Proofs.ListingSections
