import ClassLang.Check.Expr
import ClassLang.Check.Infer
import ClassLang.Check.Session
import ClassLang.Check.Stmt
import ClassLang.Check.Types
import ClassLang.Check.Unit
import ClassLang.CommandLine
import ClassLang.CommandLine.Flag
import ClassLang.CommandLine.Memory
import ClassLang.Compile
import ClassLang.Constant
import ClassLang.Diagnostic
import ClassLang.Graph
import ClassLang.Graph.Builder
import ClassLang.Graph.Dominance
import ClassLang.Graph.Lower
import ClassLang.Graph.Op
import ClassLang.Graph.Print
import ClassLang.Graph.Sketch
import ClassLang.Graph.Verify
import ClassLang.Layout
import ClassLang.Layout.Yaml
import ClassLang.Llvm.Emit
import ClassLang.Llvm.Module
import ClassLang.Llvm.Print
import ClassLang.Machine
import ClassLang.Machine.Action
import ClassLang.Machine.Host
import ClassLang.Machine.Value
import ClassLang.Main
import ClassLang.Number.Calendar
import ClassLang.Number.Double
import ClassLang.Number.Shortest
import ClassLang.Number.Word
import ClassLang.Proofs.Check.Agreement
import ClassLang.Proofs.Check.Annotation
import ClassLang.Proofs.Check.Answers
import ClassLang.Proofs.Check.Collect
import ClassLang.Proofs.Check.Collection
import ClassLang.Proofs.Check.Constants
import ClassLang.Proofs.Check.Erasure
import ClassLang.Proofs.Check.Expr
import ClassLang.Proofs.Check.Folding
import ClassLang.Proofs.Check.Generic
import ClassLang.Proofs.Check.Infer
import ClassLang.Proofs.Check.Inference
import ClassLang.Proofs.Check.Initializer
import ClassLang.Proofs.Check.Limit
import ClassLang.Proofs.Check.Result
import ClassLang.Proofs.Check.Session
import ClassLang.Proofs.Check.Stmt
import ClassLang.Proofs.Check.Truncation
import ClassLang.Proofs.Check.Types
import ClassLang.Proofs.Check.Unit
import ClassLang.Proofs.Check.Visits
import ClassLang.Proofs.Code.Function
import ClassLang.Proofs.Formed.Collect
import ClassLang.Proofs.Formed.Expr
import ClassLang.Proofs.Formed.Stmt
import ClassLang.Proofs.Formed.Type
import ClassLang.Proofs.Formed.Unit
import ClassLang.Proofs.Graph.Builder
import ClassLang.Proofs.Graph.Dominance
import ClassLang.Proofs.Graph.Dominators
import ClassLang.Proofs.Graph.Examined
import ClassLang.Proofs.Graph.Expr
import ClassLang.Proofs.Graph.Function
import ClassLang.Proofs.Graph.Logic
import ClassLang.Proofs.Graph.Returns
import ClassLang.Proofs.Graph.Routes
import ClassLang.Proofs.Graph.Rules
import ClassLang.Proofs.Graph.Shape
import ClassLang.Proofs.Graph.Stage
import ClassLang.Proofs.Graph.Stmt
import ClassLang.Proofs.Graph.Unit
import ClassLang.Proofs.Graph.Verified
import ClassLang.Proofs.Graph.Verify
import ClassLang.Proofs.Graph.Walk
import ClassLang.Proofs.Layout
import ClassLang.Proofs.Layout.Direct
import ClassLang.Proofs.Layout.Dispatch
import ClassLang.Proofs.Llvm.Blocks
import ClassLang.Proofs.Llvm.Chains
import ClassLang.Proofs.Llvm.Comparison
import ClassLang.Proofs.Llvm.Declared
import ClassLang.Proofs.Llvm.Erasure
import ClassLang.Proofs.Llvm.Expr
import ClassLang.Proofs.Llvm.Instruction
import ClassLang.Proofs.Llvm.Labels
import ClassLang.Proofs.Llvm.Locals
import ClassLang.Proofs.Llvm.Rules
import ClassLang.Proofs.Llvm.Steps
import ClassLang.Proofs.Llvm.Stmt
import ClassLang.Proofs.Llvm.Symbols
import ClassLang.Proofs.Llvm.Typing
import ClassLang.Proofs.Llvm.WellFormed
import ClassLang.Proofs.Llvm.WellTyped
import ClassLang.Proofs.Llvm.Writer
import ClassLang.Proofs.Llvm.Written
import ClassLang.Proofs.Machine.Action
import ClassLang.Proofs.Machine.Alike
import ClassLang.Proofs.Machine.Counting
import ClassLang.Proofs.Machine.Depth
import ClassLang.Proofs.Machine.Folding
import ClassLang.Proofs.Machine.Initializer
import ClassLang.Proofs.Machine.Limits
import ClassLang.Proofs.Machine.Operands
import ClassLang.Proofs.Machine.Replay
import ClassLang.Proofs.Machine.Session
import ClassLang.Proofs.Machine.Spares
import ClassLang.Proofs.Machine.Spot
import ClassLang.Proofs.Machine.Step
import ClassLang.Proofs.Meaning.Activation
import ClassLang.Proofs.Meaning.Direct
import ClassLang.Proofs.Meaning.Expr
import ClassLang.Proofs.Meaning.Follows
import ClassLang.Proofs.Meaning.Function
import ClassLang.Proofs.Meaning.Lowering
import ClassLang.Proofs.Meaning.Members
import ClassLang.Proofs.Meaning.Receiver
import ClassLang.Proofs.Meaning.Safety
import ClassLang.Proofs.Meaning.Simulation
import ClassLang.Proofs.Meaning.Soundness
import ClassLang.Proofs.Meaning.Stmt
import ClassLang.Proofs.Meaning.Values
import ClassLang.Proofs.Table.Chain
import ClassLang.Proofs.Table.Cycle
import ClassLang.Proofs.Table.Link
import ClassLang.Proofs.Table.Linking
import ClassLang.Proofs.Text.Utf8
import ClassLang.Proofs.Token.Places
import ClassLang.Proofs.Token.Rendering
import ClassLang.Proofs.Token.Scanner
import ClassLang.Proofs.Token.Spelling
import ClassLang.Proofs.Tree.Complete
import ClassLang.Proofs.Tree.Encoded
import ClassLang.Proofs.Tree.Ends
import ClassLang.Proofs.Tree.Exact
import ClassLang.Proofs.Tree.Follow
import ClassLang.Proofs.Tree.Grammar
import ClassLang.Proofs.Tree.Inside
import ClassLang.Proofs.Tree.Names
import ClassLang.Proofs.Tree.Parse
import ClassLang.Proofs.Tree.Printing
import ClassLang.Proofs.Tree.Run
import ClassLang.Proofs.Tree.Shape
import ClassLang.Proofs.Tree.Sound
import ClassLang.Proofs.Tree.Unique
import ClassLang.Proofs.Tree.Words
import ClassLang.Proofs.Type
import ClassLang.Proofs.Type.Substitution
import ClassLang.Proofs.Typing
import ClassLang.Proofs.Typing.Origin
import ClassLang.Proofs.Typing.Sites
import ClassLang.Scope
import ClassLang.Settings
import ClassLang.Settings.Load
import ClassLang.Settings.Toml
import ClassLang.Settings.Toml.Expression
import ClassLang.Settings.Toml.Moment
import ClassLang.Settings.Yaml
import ClassLang.Settings.Yaml.Node
import ClassLang.Settings.Yaml.Scalar
import ClassLang.Settings.Yaml.Text
import ClassLang.Settings.Yaml.Token
import ClassLang.Source.Position
import ClassLang.Symbol
import ClassLang.Table
import ClassLang.Table.Access
import ClassLang.Text.Lowercase
import ClassLang.Text.Printable
import ClassLang.Text.Quoted
import ClassLang.Text.Utf8
import ClassLang.Token
import ClassLang.Token.Scan
import ClassLang.Tree
import ClassLang.Tree.Nodes
import ClassLang.Tree.Outline
import ClassLang.Tree.Parse
import ClassLang.Tree.Text
import ClassLang.Type
import ClassLang.Typed
import ClassLang.Typed.Facts
import ClassLang.Typed.Outline
