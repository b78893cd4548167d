import ByteAutomata.Fault
import ByteAutomata.Graph.Transition

/-! # Ordered multigraphs

Every vertex keeps its successors and its predecessors in order, and an edge may occur more than
once. The successors are ordered by preference, so an edge can be put anywhere among them, while a
predecessor is always added at the end. Lists of two or more neighbours live in a pool that all
vertices share. -/
namespace ByteAutomata

/-- The number of a vertex, for which 32 bits are enough up to 2^31 vertices. -/
abbrev Vertex := Nat

/-- The neighbour lists that are too long to be stored inside a vertex. -/
abbrev ListPool := Array (Array Vertex)

inductive Adjacency where
  | zero
  | one (v : Vertex)
  | many (index : Nat)
deriving DecidableEq

namespace Adjacency

def toList (pool : ListPool) : Adjacency → List Vertex
  | zero => []
  | one v => [v]
  | many index => ((pool[index]?).getD #[]).toList

def degree (pool : ListPool) : Adjacency → Nat
  | zero => 0
  | one _ => 1
  | many index => ((pool[index]?).getD #[]).size

def get? (pool : ListPool) (adjacency : Adjacency) (i : Nat) : Option Vertex :=
  match adjacency with
  | zero => none
  | one v => if i = 0 then some v else none
  | many index => do (← pool[index]?)[i]?

/-- Puts `v` at position `pos`; a second neighbour moves the list into the pool. -/
def insert (pool : ListPool) (adjacency : Adjacency) (pos : Nat) (v : Vertex) :
    Except Fault (Adjacency × ListPool) :=
  match adjacency with
  | zero => if pos = 0 then .ok (one v, pool) else .error (.badPosition pos)
  | one w =>
    if pos = 0 then .ok (many pool.size, pool.push #[v, w])
    else if pos = 1 then .ok (many pool.size, pool.push #[w, v])
    else .error (.badPosition pos)
  | many index =>
    if pos ≤ (many index).degree pool then
      .ok (many index, pool.modify index fun list => list.insertIdxIfInBounds pos v)
    else .error (.badPosition pos)

end Adjacency

structure VertexData where
  transition : Option Transition := none
  incoming : Adjacency := .zero
  outgoing : Adjacency := .zero
deriving DecidableEq

structure Graph where
  vertices : Array VertexData := #[]
  lists : ListPool := #[]
deriving DecidableEq

namespace Graph

def empty : Graph := {}

def size (g : Graph) : Nat := g.vertices.size

def vertexBytes : Nat := 56

/-- The bytes that all vertices together can take up, however much memory there is. -/
def byteLimit : Nat := 0x7FFFFFFFFFFFFFFF

/-- Makes sure that there is room for so many vertices more. -/
def reserve (g : Graph) (additional : Nat) : Except Fault Unit :=
  let vertices := g.size + additional
  if vertices * vertexBytes ≤ byteLimit then .ok () else .error (.capacityOverflow vertices)

def addVertex (g : Graph) : Graph := { g with vertices := g.vertices.push {} }

def vertex (g : Graph) (v : Vertex) : Except Fault VertexData :=
  match g.vertices[v]? with
  | some data => .ok data
  | none => .error (.missingVertex v)

/-- Makes `target` the successor of `source` at position `pos`, and `source` the last
predecessor of `target`. -/
def addEdgeAt (g : Graph) (source target : Vertex) (pos : Nat) : Except Fault Graph := do
  let data ← g.vertex source
  let ⟨vertices,lists⟩ := g
  let (outgoing, lists) ← data.outgoing.insert lists pos target
  let g : Graph := ⟨vertices.modify source fun d => { d with outgoing },lists⟩
  let data ← g.vertex target
  let ⟨vertices,lists⟩ := g
  let (incoming, lists) ← data.incoming.insert lists (data.incoming.degree lists) source
  return ⟨vertices.modify target fun d => { d with incoming },lists⟩

def addEdge (g : Graph) (source target : Vertex) : Except Fault Graph := do
  let data ← g.vertex source
  g.addEdgeAt source target (data.outgoing.degree g.lists)

def successors (g : Graph) (v : Vertex) : Except Fault (List Vertex) := do
  return (← g.vertex v).outgoing.toList g.lists

def predecessors (g : Graph) (v : Vertex) : Except Fault (List Vertex) := do
  return (← g.vertex v).incoming.toList g.lists

def outDegree (g : Graph) (v : Vertex) : Except Fault Nat := do
  return (← g.vertex v).outgoing.degree g.lists

def inDegree (g : Graph) (v : Vertex) : Except Fault Nat := do
  return (← g.vertex v).incoming.degree g.lists

def successor (g : Graph) (v : Vertex) (i : Nat) : Except Fault Vertex := do
  match (← g.vertex v).outgoing.get? g.lists i with
  | some w => return w
  | none => throw (.badPosition i)

def predecessor (g : Graph) (v : Vertex) (i : Nat) : Except Fault Vertex := do
  match (← g.vertex v).incoming.get? g.lists i with
  | some w => return w
  | none => throw (.badPosition i)

def hasEdge (g : Graph) (source target : Vertex) : Except Fault Bool := do
  return (← g.successors source).contains target

def transition (g : Graph) (v : Vertex) : Except Fault (Option Transition) := do
  return (← g.vertex v).transition

def modifyTransition (g : Graph) (v : Vertex) (f : Option Transition → Option Transition) :
    Except Fault Graph := do
  let _ ← g.vertex v
  return { g with vertices := g.vertices.modify v fun d => { d with transition := f d.transition } }

def setTransition (g : Graph) (v : Vertex) (t : Transition) : Except Fault Graph :=
  g.modifyTransition v fun _ => some t

/-- Sets the label and the match mark of a vertex that has a transition. -/
def mark (g : Graph) (v : Vertex) (label : Nat) (isMatch : Bool) : Except Fault Graph :=
  g.modifyTransition v (Option.map fun t => { t with label, isMatch })

def accepting (g : Graph) : List Vertex :=
  (List.range g.size).filter fun v =>
    match g.vertices[v]? with
    | some { transition := some t, .. } => t.isMatch
    | _ => false

end Graph
end ByteAutomata
