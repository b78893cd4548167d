import ByteAutomata.Graph.Basic

/-! # The text of a graph

A graph is written after an empty line with one line for each vertex: its index, its transition
and, behind an arrow, its successors in order. -/
namespace ByteAutomata.Graph

def transitionText : Option Transition → String
  | some t => t.toString
  | none => "START"

def vertexText (pool : ListPool) (v : Vertex) (data : VertexData) : String :=
  let arrow :=
    match data.outgoing.toList pool with
    | [] => ""
    | targets => " ->" ++ String.join (targets.map fun w => " " ++ Numeral.decimal 5 w)
  Numeral.decimal 5 v ++ ": " ++ transitionText data.transition ++ arrow ++ "\n"

protected def toString (g : Graph) : String :=
  "\n" ++ String.join (g.vertices.toList.zipIdx.map fun (data, v) => vertexText g.lists v data)

instance : ToString Graph := ⟨Graph.toString⟩

end ByteAutomata.Graph
