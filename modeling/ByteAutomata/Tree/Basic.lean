import ByteAutomata.ByteSet
import ByteAutomata.Fault

/-! # Expression trees

A tree keeps its nodes in an array and names children by index, so that a node may be the child
of several others. Nothing forces a node to have the children that its kind calls for. -/
namespace ByteAutomata

abbrev NodeId := Nat

inductive NodeKind where
  | regexp
  | alternation
  | concatenation
  /-- Between `min` and `max` rounds of the left child, without end if `max` is missing. -/
  | repetition (min : Nat) (max : Option Nat) (greedy : Bool)
  | literal (codePoint : Nat)
  | dot
  | charClass (set : ByteSet)
deriving DecidableEq

structure Node where
  kind : NodeKind
  left : Option NodeId := none
  right : Option NodeId := none
deriving DecidableEq

namespace Node

def regexp (child : NodeId) : Node := { kind := .regexp, left := some child }

def alternation (left right : NodeId) : Node :=
  { kind := .alternation, left := some left, right := some right }

def concatenation (left right : NodeId) : Node :=
  { kind := .concatenation, left := some left, right := some right }

def repetition (child : NodeId) (min : Nat) (max : Option Nat) (greedy : Bool) : Node :=
  { kind := .repetition min max greedy, left := some child }

/-- The children that are present, left before right. -/
def children (node : Node) : List NodeId := node.left.toList ++ node.right.toList

end Node

structure Tree where
  nodes : Array Node := #[]
  root : Option NodeId := none
deriving DecidableEq

namespace Tree

def empty : Tree := {}

def size (t : Tree) : Nat := t.nodes.size

def isEmpty (t : Tree) : Bool := t.size = 0

def get? (t : Tree) (id : NodeId) : Option Node := t.nodes[id]?

def push (t : Tree) (node : Node) : Tree := { t with nodes := t.nodes.push node }

def withRoot (t : Tree) (id : NodeId) : Tree := { t with root := some id }

end Tree
end ByteAutomata
