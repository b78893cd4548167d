import Mathlib.Computability.Language
import ByteAutomata.Proofs.Graph.Neighbours

/-! # Walks and searches

A text is read along the edges of a graph, each vertex being entered on one byte. A walk may take
any of the edges. A search takes the first edge that leads to a match at all, and ends as soon as
a vertex completes a match. -/
namespace ByteAutomata.Graph
variable {g : Graph} {u v w : Vertex} {b : UInt8} {text : List UInt8}

/-- Whether the vertex is entered on the byte. -/
def accepts (g : Graph) (v : Vertex) (b : UInt8) : Bool := (g.label v).any (·.accepts b)

/-- Whether the vertex completes a match. -/
def isMatch (g : Graph) (v : Vertex) : Bool := (g.label v).any (·.isMatch)

inductive Walk (g : Graph) : Vertex → List UInt8 → Vertex → Prop where
  | stay (v : Vertex) : g.Walk v [] v
  | step {u v w : Vertex} {b : UInt8} {text : List UInt8} (hedge : v ∈ g.outs u)
      (hbyte : g.accepts v b = true) (hrest : g.Walk v text w) : g.Walk u (b :: text) w

/-- What lies behind the first match from the vertex on, with successors tried in order. -/
def search (g : Graph) : List UInt8 → Vertex → Option (List UInt8)
  | text, v =>
    if g.isMatch v then some text
    else
      match text with
      | [] => none
      | b :: rest => (g.outs v).findSome? fun w => if g.accepts w b then g.search rest w else none

/-- The offset at which the search from the start vertex ends. -/
def matchEnd (g : Graph) (text : List UInt8) (start : Nat) : Option Nat :=
  (g.search (text.drop start) 0).map fun rest => text.length - rest.length

/-- The strings that lead from the vertex to a match. -/
def languageFrom (g : Graph) (v : Vertex) : Language UInt8 :=
  {w | ∃ u, g.Walk v w u ∧ g.isMatch u = true}

theorem mem_languageFrom :
    text ∈ g.languageFrom v ↔ ∃ u, g.Walk v text u ∧ g.isMatch u = true := Iff.rfl

theorem nil_mem_languageFrom : [] ∈ g.languageFrom v ↔ g.isMatch v = true := by
  constructor
  · rintro ⟨u,hwalk,hmatch⟩
    cases hwalk
    exact hmatch
  · exact fun hmatch => ⟨v,.stay v,hmatch⟩

theorem cons_mem_languageFrom : b :: text ∈ g.languageFrom v ↔
    ∃ w ∈ g.outs v, g.accepts w b = true ∧ text ∈ g.languageFrom w := by
  constructor
  · rintro ⟨u,hwalk,hmatch⟩
    cases hwalk with
    | step hedge hbyte hrest => exact ⟨_,hedge,hbyte,u,hrest,hmatch⟩
  · rintro ⟨w,hedge,hbyte,u,hrest,hmatch⟩
    exact ⟨u,.step hedge hbyte hrest,hmatch⟩

end ByteAutomata.Graph
