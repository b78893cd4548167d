import ByteAutomata.Fault
import ByteAutomata.Text.Numeral

/-! # Why a tree has no automaton

A build ends early either because the tree is rejected, for one of the causes below, or because
the tree breaks the calling conditions. -/
namespace ByteAutomata

inductive BuildError where
  | unencodableLiteral (codePoint node : Nat)
  | zeroLengthMatch
  /-- The number of fragments does not fit the operator that is reached. -/
  | malformedStack (depth : Nat)
  | emptyRepetition (node : Nat)
  | unexpandedRepetition (node : Nat)
  | missingOperand (node : Nat)
  | unlabeledVertex (vertex : Nat)
  | emptyTree
deriving DecidableEq

namespace BuildError

def codePointText (n : Nat) : String := "U+" ++ Numeral.upperHex 4 n

def message : BuildError → String
  | unencodableLiteral codePoint node =>
    "code point " ++ codePointText codePoint ++ " in node " ++ toString node ++ " can't be encoded"
  | zeroLengthMatch => "pattern matches the empty string"
  | malformedStack depth => "malformed fragment stack (depth: " ++ toString depth ++ ")"
  | emptyRepetition node => "empty repetition in node " ++ toString node
  | unexpandedRepetition node => "unexpanded repetition in node " ++ toString node
  | missingOperand node => "node " ++ toString node ++ " is missing an operand"
  | unlabeledVertex vertex => "vertex " ++ toString vertex ++ " has no transition"
  | emptyTree => "empty parse tree"

end BuildError

inductive BuildFailure where
  | rejected (error : BuildError)
  | fault (fault : Fault)
deriving DecidableEq

end ByteAutomata
