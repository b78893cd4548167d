import ByteAutomata.BuildError
import ByteAutomata.Tree.Traversal

/-! # Unrolling of counted repetitions

Every repetition becomes a combination of concatenation and the three basic repetitions
`?`, `*` and `+`. With operand `L`, `L{n,}` becomes `n - 1` copies of `L` and `L+`, and `L{n,m}`
becomes `n` copies followed by `m - n` nested optional ones. Copies are not new nodes: all of them
name the one node of the operand. -/
namespace ByteAutomata.Tree

def add (t : Tree) (node : Node) : NodeId × Tree := (t.size, t.push node)

def prepend (child : NodeId) : NodeId × Tree → NodeId × Tree
  | (node, t) => t.add (.concatenation child node)

def optional (greedy : Bool) : NodeId × Tree → NodeId × Tree
  | (node, t) => t.add (.repetition node 0 (some 1) greedy)

/-- `count + 1` nested optional occurrences of `child`. -/
def optionals (t : Tree) (child : NodeId) (greedy : Bool) (count : Nat) : NodeId × Tree :=
  Nat.repeat (fun r => optional greedy (prepend child r)) count (optional greedy (child, t))

def addRepetition (t : Tree) (id child min : Nat) (max : Option Nat) (greedy : Bool) :
    Except BuildError (NodeId × Tree) :=
  match min, max with
  | 0, some 0 => .error (.emptyRepetition id)
  | 1, some 1 => .ok (child, t)
  | 0, some 1 | 0, none | 1, none => .ok (t.add (.repetition child min max greedy))
  | min, none =>
    .ok (Nat.repeat (prepend child) (min - 1) (t.add (.repetition child 1 none greedy)))
  | min, some max =>
    if max < min then .error (.emptyRepetition id)
    else if max = min then .ok (Nat.repeat (prepend child) (min - 1) (child, t))
    else .ok (Nat.repeat (prepend child) min (t.optionals child greedy (max - min - 1)))

/-- The nodes made so far, and for each node of the source the one that stands for it. -/
structure Unrolling where
  result : Tree
  image : Array (Option NodeId)
deriving DecidableEq

namespace Unrolling

def imageOf (u : Unrolling) (id : NodeId) : Option NodeId := (u.image[id]?).join

/-- Makes the image of the node `id`, unless an earlier visit has made it. -/
def visit (source : Tree) (u : Unrolling) (id : NodeId) : Except BuildFailure Unrolling := do
  if (u.imageOf id).isSome then return u
  let node ← (source.node id).mapError .fault
  let left := node.left.bind u.imageOf
  let right := node.right.bind u.imageOf
  let ⟨result,image⟩ := u
  let (new, result) ←
    match node.kind with
    | .repetition min max greedy =>
      match left with
      | none => throw (.rejected (.missingOperand id))
      | some child => (result.addRepetition id child min max greedy).mapError .rejected
    | kind => pure (result.add { kind, left, right })
  return ⟨result,image.setIfInBounds id (some new)⟩

end Unrolling

/-- The tree in which every repetition is one of the three basic ones. -/
def unroll (t : Tree) : Except BuildFailure Tree := do
  let some root := t.root | throw (.rejected .emptyTree)
  let u ← t.foldLeft .fault (Unrolling.visit t) ⟨empty,Array.replicate t.size none⟩
  return { u.result with root := u.imageOf root }

end ByteAutomata.Tree
