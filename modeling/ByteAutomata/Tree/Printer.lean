import ByteAutomata.BuildError
import ByteAutomata.Text.Outline
import ByteAutomata.Tree.Traversal

/-! # The texts of a tree

A tree is written as a nested list, such as `(re (cat 'a' 'b'))`, or drawn as an outline. Both
come from one pass over the nodes as they are left: a node takes the results of its children from
the top of a stack and puts its own there. -/
namespace ByteAutomata

def NodeKind.repetitionSign (min : Nat) (max : Option Nat) (greedy : Bool) : String :=
  let sign :=
    match min, max with
    | 0, some 1 => "?"
    | 0, none => "*"
    | 1, none => "+"
    | min, none => "\x7b" ++ toString min ++ ",\x7d"
    | min, some max => "\x7b" ++ toString min ++ "," ++ toString max ++ "\x7d"
  if greedy then sign else sign ++ "?"

/-- A printable ASCII character stands for itself, in quotes. -/
def NodeKind.literalText (n : Nat) : String :=
  if 0x20 ≤ n ∧ n < 0x7F then "'" ++ String.singleton (Char.ofNat n) ++ "'"
  else BuildError.codePointText n

def NodeKind.label : NodeKind → String
  | regexp => "regexp"
  | alternation => "alternation"
  | concatenation => "concatenation"
  | repetition min max greedy => "repetition " ++ repetitionSign min max greedy
  | literal n => "literal " ++ literalText n
  | dot => "dot"
  | charClass set => "class " ++ set.toString

def NodeKind.listText (kind : NodeKind) (children : List String) : String :=
  let operator (sign : String) := "(" ++ sign ++ " " ++ " ".intercalate children ++ ")"
  match kind with
  | regexp => operator "re"
  | alternation => operator "alt"
  | concatenation => operator "cat"
  | repetition min max greedy => operator (repetitionSign min max greedy)
  | literal n => literalText n
  | dot => "."
  | charClass set => set.toString

namespace Tree

def takeTop {α : Type} (n : Nat) (stack : List α) : Except Fault (List α × List α) :=
  if (stack.take n).length = n then .ok ((stack.take n).reverse, stack.drop n)
  else .error .stackUnderflow

def reduce {α : Type} (t : Tree) (f : NodeKind → List α → α) (stack : List α) (id : NodeId) :
    Except Fault (List α) := do
  let node ← t.node id
  let (results, rest) ← takeTop node.children.length stack
  return f node.kind results :: rest

def listText (t : Tree) : Except Fault String := do
  let stack ← t.foldLeft (fun fault => fault) (t.reduce NodeKind.listText) []
  return String.join stack.reverse

def outlineText (t : Tree) : Except Fault String := do
  if t.root.isNone then return "<empty>"
  match ← t.foldLeft (fun fault => fault) (t.reduce fun kind => Outline.branch kind.label) [] with
  | outline :: _ => return outline.toString
  | [] => return ""

end Tree
end ByteAutomata
