import ByteAutomata.Builder.Message
import ByteAutomata.Expr.OfAst
import ByteAutomata.Expr.Trim
import ByteAutomata.Pattern.Parser
import ByteAutomata.Tree.OfExpr

/-! # From pattern to automaton

A pattern is parsed into an expression, whose reluctant end is trimmed; the expression becomes a
tree, and the tree an automaton. -/
namespace ByteAutomata

/-- What is parsed for a pattern. -/
def PatternSettings.text (settings : PatternSettings) (pattern : String) : List Char :=
  if settings.fixedString then Pattern.quote pattern.toList else pattern.toList

def Pattern.Flags.start (settings : PatternSettings) (caseInsensitive : Bool) : Flags where
  caseInsensitive
  dotMatchesNewLine := settings.dotMatchesNewLine
  properties := settings.properties

/-- The expression that a pattern stands for. -/
def Expr.ofPattern (settings : PatternSettings) (caseInsensitive : Bool) (pattern : String) :
    Except SyntaxError Expr := do
  let ast ← Pattern.parse (settings.text pattern)
  return (← ast.toExpr (.start settings caseInsensitive)).1

def Tree.ofPattern (settings : PatternSettings) (caseInsensitive : Bool) (pattern : String) :
    Except PatternError Tree := do
  let e ← (Expr.ofPattern settings caseInsensitive pattern).mapError .syntaxError
  Tree.ofExpr e.trimLazyEnd

inductive CompileError where
  | pattern (error : PatternError)
  | build (failure : BuildFailure)
deriving DecidableEq

/-- The automaton of a pattern, whose matches carry the label. -/
def compile (pattern : String) (label : Nat) (settings : Settings) :
    Except CompileError Graph := do
  let t ← (Tree.ofPattern settings.pattern false pattern).mapError .pattern
  let b ← (Builder.create settings.builder).mapError fun fault => .build (.fault fault)
  match (b.setLabel label).build t with
  | (.ok _, b) => return b.graph
  | (.error e, _) => throw (.build e)

def compileMessages (pattern : String) (label : Nat) (settings : Settings) : List Message :=
  match Tree.ofPattern settings.pattern false pattern with
  | .error _ => []
  | .ok t =>
    match t.outlineText with
    | .error _ => []
    | .ok outline =>
      .parsed pattern outline ::
        match Builder.create settings.builder with
        | .error _ => []
        | .ok b => (b.setLabel label).messages t

end ByteAutomata
