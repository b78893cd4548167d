import ByteAutomata.Builder.Fragment
import ByteAutomata.BuildError
import ByteAutomata.Settings.Basic
import ByteAutomata.Tree.Traversal

/-! # Assembly of an automaton

An assembly is a graph with a stack of fragments, the start vertex at the bottom. Nodes are taken
in the order in which a traversal leaves them: a leaf adds a fragment, an operator combines the
ones of its operands. There are no empty moves: an optional part is skipped by edges around it,
and the place of these edges among the successors of a vertex says how much skipping is
preferred. -/
namespace ByteAutomata

namespace Graph

def addEdgesAt (g : Graph) (source pos : Nat) : List Vertex → Except Fault Graph
  | [] => .ok g
  | w :: rest => do (← g.addEdgeAt source w pos).addEdgesAt source (pos + 1) rest

def link (g : Graph) (exits : List (Vertex × Nat)) (targets : List Vertex) : Except Fault Graph :=
  exits.foldlM (fun g (v, pos) => g.addEdgesAt v pos targets) g

def addLabeled (g : Graph) (t : Transition) : Graph :=
  { g with vertices := g.vertices.push { transition := some t } }

end Graph

namespace Fragment

/-- Moves the positions of the exits behind `count` new successors. -/
def advanceExits (f : Fragment) (count : Nat) : Fragment :=
  { f with exits := f.exits.map fun (v, pos) => (v, pos + count) }

/-- Whether what follows both fragments comes before the edges between them: it does when the
first skip is not below the second. -/
def yields (first second : Fragment) : Bool :=
  match first.skip, second.skip with
  | some a, some b => decide (b ≤ a)
  | _, _ => false

def alternate (first second : Fragment) (node : NodeId) : Fragment :=
  { entries := first.entries ++ second.entries
    exits := first.exits ++ second.exits
    skip :=
      match first.skip, second.skip with
      | some skip, _ => some skip
      | none, some skip => some (first.entries.length + skip)
      | none, none => none
    node := some node }

/-- The entries of `first`, with those of `second` at the place where `first` is skipped. -/
def spliceEntries (first second : Fragment) : Except Fault (List Vertex) :=
  match first.skip with
  | none => .ok first.entries
  | some skip =>
    if skip ≤ first.entries.length then
      .ok (first.entries.take skip ++ second.entries ++ first.entries.drop skip)
    else .error (.badPosition skip)

/-- The fragment of `first` and then `second`, once the edges between them have been added. -/
def concatenate (first second : Fragment) (node : NodeId) : Except Fault Fragment := do
  let entries ← first.spliceEntries second
  return {
    entries
    exits := if second.isSkippable then first.exits ++ second.exits else second.exits
    skip :=
      match first.skip, second.skip with
      | some a, some b => some (a + b)
      | _, _ => none
    node := some node }

/-- Skipping comes last, or stays where it is. -/
def skipLast (f : Fragment) (node : NodeId) : Fragment :=
  let last := f.entries.length
  { f with skip := some (min (f.skip.getD last) last), node := some node }

def skipFirst (f : Fragment) (node : NodeId) : Fragment :=
  { f with skip := some 0, node := some node }

end Fragment

structure Assembly where
  graph : Graph
  /-- The topmost fragment comes first. -/
  stack : List Fragment
  /-- Whether a root has been reached with a complete automaton. -/
  isGood : Bool
deriving DecidableEq

namespace Assembly

def start : Assembly :=
  { graph := Graph.empty.addVertex, stack := [Fragment.single 0 none], isGood := false }

def ofFault {α : Type} (x : Except Fault α) : Except BuildFailure α := x.mapError .fault

def leaf (a : Assembly) (id : NodeId) (t : Transition) : Assembly :=
  { a with graph := a.graph.addLabeled t, stack := .single a.graph.size (some id) :: a.stack }

def byteTransition (settings : BuilderSettings) (b : UInt8) : Transition :=
  let isUpper := 0x41 ≤ b ∧ b ≤ 0x5A
  let isLower := 0x61 ≤ b ∧ b ≤ 0x7A
  if settings.caseSensitive then .literal b
  else if isUpper then .either b (b + 0x20)
  else if isLower then .either (b - 0x20) b
  else .literal b

def appendByte (settings : BuilderSettings) (g : Graph) (b : UInt8) : Except Fault Graph :=
  let v := g.size
  (g.addLabeled (byteTransition settings b)).addEdge (v - 1) v

/-- One vertex for each of the bytes of the code point, in a row. -/
def spell (settings : BuilderSettings) (a : Assembly) (id codePoint : Nat) :
    List UInt8 → Except BuildFailure Assembly
  | [] => .error (.rejected (.unencodableLiteral codePoint id))
  | b :: rest => do
    let first := a.graph.size
    let g := a.graph.addLabeled (byteTransition settings b)
    let g ← ofFault (rest.foldlM (appendByte settings) g)
    return { a with graph := g, stack := .path first (g.size - 1) (some id) :: a.stack }

def literal (settings : BuilderSettings) (a : Assembly) (id codePoint : Nat) :
    Except BuildFailure Assembly :=
  a.spell settings id codePoint ((settings.encoding.encode codePoint).getD [])

def charClass (settings : BuilderSettings) (a : Assembly) (id : NodeId) (set : ByteSet) :
    Assembly :=
  a.leaf id (.ofSet (if settings.caseSensitive then set else set.foldCase))

def onTop (a : Assembly) (f : Graph → Fragment → Except BuildFailure (Graph × Fragment)) :
    Except BuildFailure Assembly :=
  match a with
  | ⟨graph,top :: rest,isGood⟩ => do
    let (graph, top) ← f graph top
    return ⟨graph,top :: rest,isGood⟩
  | ⟨_,[],_⟩ => .error (.rejected (.malformedStack 0))

def onTopTwo (a : Assembly)
    (f : Graph → Fragment → Fragment → Except BuildFailure (Graph × Fragment)) :
    Except BuildFailure Assembly :=
  match a with
  | ⟨graph,second :: first :: rest,isGood⟩ => do
    let (graph, top) ← f graph first second
    return ⟨graph,top :: rest,isGood⟩
  | ⟨_,_,_⟩ => .error (.rejected (.malformedStack 0))

def alternate (a : Assembly) (id : NodeId) : Except BuildFailure Assembly :=
  a.onTopTwo fun g first second => .ok (g, first.alternate second id)

/-- Leads the exits of the first operand to the entries of the second. Later edges of these exits
go behind the new ones, unless the first operand yields to what follows. -/
def concatenate (a : Assembly) (id : NodeId) : Except BuildFailure Assembly :=
  a.onTopTwo fun g first second => ofFault do
    let g ← g.link first.exits second.entries
    let first' :=
      if first.yields second then first else first.advanceExits second.entries.length
    return (g, ← first'.concatenate second id)

/-- Leads the exits of the operand back to its entries, which are preferred to leaving if the
repetition is greedy. -/
def repeatTop (a : Assembly) (id : NodeId) (greedy : Bool) : Except BuildFailure Assembly :=
  a.onTop fun g top => ofFault do
    let g ← g.link top.exits top.entries
    let top := if greedy then top.advanceExits top.entries.length else top
    return (g, { top with node := some id })

def skipTop (a : Assembly) (id : NodeId) (greedy : Bool) : Except BuildFailure Assembly :=
  a.onTop fun g top => .ok (g, if greedy then top.skipLast id else top.skipFirst id)

def repetition (a : Assembly) (id min : Nat) (max : Option Nat) (greedy : Bool) :
    Except BuildFailure Assembly :=
  match min, max with
  | 0, some 1 => a.skipTop id greedy
  | 0, none => do (← a.repeatTop id greedy).skipTop id greedy
  | 1, none => a.repeatTop id greedy
  | _, _ => .error (.rejected (.unexpandedRepetition id))

def accept (label : Nat) (g : Graph) (v : Vertex) : Except BuildFailure Graph := do
  if v = 0 then throw (.rejected .zeroLengthMatch)
  match ← ofFault (g.transition v) with
  | some _ => ofFault (g.mark v label true)
  | none => throw (.rejected (.unlabeledVertex v))

def finish (label : Nat) (a : Assembly) (id : NodeId) : Except BuildFailure Assembly := do
  if a.stack.length ≠ 2 then throw (.rejected (.malformedStack a.stack.length))
  let a ← a.concatenate id
  match a with
  | ⟨graph,top :: rest,_⟩ =>
    let graph ← (top.exits.map Prod.fst).foldlM (accept label) graph
    return ⟨graph,top :: rest,true⟩
  | ⟨_,[],_⟩ => throw (.rejected (.malformedStack 0))

/-- What a node of the given kind does when it is left. -/
def apply (settings : BuilderSettings) (label : Nat) (a : Assembly) (id : NodeId) :
    NodeKind → Except BuildFailure Assembly
  | .regexp => a.finish label id
  | .alternation => a.alternate id
  | .concatenation => a.concatenate id
  | .repetition min max greedy => a.repetition id min max greedy
  | .literal codePoint => a.literal settings id codePoint
  | .dot => .ok (a.leaf id .any)
  | .charClass set => .ok (a.charClass settings id set)

def visit (settings : BuilderSettings) (label : Nat) (t : Tree) (a : Assembly) (id : NodeId) :
    Except BuildFailure Assembly := do
  let node ← ofFault (t.node id)
  a.apply settings label id node.kind

def ofTree (settings : BuilderSettings) (label : Nat) (t : Tree) :
    Except BuildFailure Assembly := do
  let a ← t.foldLeft .fault (visit settings label t) start
  if a.isGood then return a else throw (.rejected (.malformedStack a.stack.length))

end Assembly
end ByteAutomata
