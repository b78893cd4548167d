import ByteAutomata.Compile
import ByteAutomata.Expr.Printer
import ByteAutomata.Graph.Printer
import ByteAutomata.Settings.OfToml
import ByteAutomata.Proofs.Graph.Neighbours
import ByteAutomata.Proofs.Term.Basic
import ByteAutomata.Proofs.Term.Language
import ByteAutomata.Proofs.Term.Priority
import ByteAutomata.Proofs.Tree.Postorder
import ByteAutomata.Proofs.Tree.Reading
import ByteAutomata.Proofs.Builder.Layout
import ByteAutomata.Proofs.Graph.Edges
import ByteAutomata.Proofs.Builder.Rules
import ByteAutomata.Proofs.Builder.Finish
import ByteAutomata.Proofs.Tree.Unrolling
import ByteAutomata.Proofs.ByteSet
import ByteAutomata.Proofs.Builder.Meaning
import ByteAutomata.Proofs.Builder.Recognition
import ByteAutomata.Proofs.Builder.Build
import ByteAutomata.Proofs.Graph.Walk
import ByteAutomata.Proofs.Builder.Preference
import ByteAutomata.Proofs.Builder.Search
import ByteAutomata.Proofs.Builder.Uniform
import ByteAutomata.Proofs.Expr.Language
import ByteAutomata.Proofs.Intervals
import ByteAutomata.Proofs.Text.Utf8
import ByteAutomata.Proofs.Tree.Lowering
import ByteAutomata.Proofs.Tree.Denotation
import ByteAutomata.Proofs.Tree.OfExpr
import ByteAutomata.Proofs.Expr.Build
import ByteAutomata.Proofs.Pattern.Sound
import ByteAutomata.Proofs.Expr.OfAst
import ByteAutomata.Proofs.Compile
import ByteAutomata.Proofs.Expr.Matches
import ByteAutomata.Proofs.Expr.Trimming
import ByteAutomata.Proofs.Expr.ReluctantEnds
import ByteAutomata.Proofs.Tree.Closed
import ByteAutomata.Proofs.Tree.Meaning
import ByteAutomata.Proofs.Builder.InPlace
import ByteAutomata.Proofs.Builder.History
import ByteAutomata.Proofs.Builder.Safety
import ByteAutomata.Proofs.Builder.Errors
import ByteAutomata.Proofs.Graph.Multigraph
import ByteAutomata.Proofs.Graph.Refinement
import ByteAutomata.Proofs.Builder.CaseVariants
import ByteAutomata.Proofs.Characters
import ByteAutomata.Proofs.SetOperations
import ByteAutomata.Proofs.Expr.Simplified
import ByteAutomata.Proofs.Expr.TrimmedLanguage
import ByteAutomata.Proofs.CaseFolding
import ByteAutomata.Proofs.Pattern.CaseFolding
import ByteAutomata.Proofs.Expr.IgnoringCase
import ByteAutomata.Proofs.IgnoringCase
import ByteAutomata.Proofs.Tree.Images
import ByteAutomata.Proofs.Builder.StackDepth
import ByteAutomata.Proofs.FixedText
import ByteAutomata.Proofs.Builder.Changes
import ByteAutomata.Proofs.Builder.Connected
import ByteAutomata.Proofs.Builder.Shape
import ByteAutomata.Proofs.Builder.Entries
import ByteAutomata.Proofs.Decoding
import ByteAutomata.Proofs.Tree.Numbering
import ByteAutomata.Proofs.Tree.NormalForm
import ByteAutomata.Proofs.Term.SameFirst
import ByteAutomata.Proofs.Tree.Alternatives
import ByteAutomata.Proofs.Tree.CharClass
import ByteAutomata.Proofs.Runs
import ByteAutomata.Proofs.Tree.Recursion
import ByteAutomata.Proofs.Text.Legible
import ByteAutomata.Proofs.Graph.Printing
import ByteAutomata.Proofs.Graph.Beside
import ByteAutomata.Proofs.Builder.Locality
import ByteAutomata.Proofs.Graph.Narrow
