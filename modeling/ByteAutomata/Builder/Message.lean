import ByteAutomata.Builder.Basic
import ByteAutomata.Tree.Printer

/-! # Messages of a build

What a build reports while it runs: the size of the unrolled tree, the topmost fragment after each
node, and how it ended. -/
namespace ByteAutomata

inductive Message where
  | parsed (pattern outline : String)
  | unrolled (before after : Nat)
  | visited (node : NodeId) (top : Fragment)
  | built (label vertices : Nat)
  | rejected (error : BuildError)
deriving DecidableEq

namespace Message

protected def toString : Message → String
  | parsed pattern outline => "TRACE parse tree for `" ++ pattern ++ "`:\n" ++ outline
  | unrolled before after =>
    "DEBUG desugared tree: " ++ toString before ++ " nodes -> " ++ toString after ++ " nodes"
  | visited node top => "TRACE node " ++ toString node ++ ": " ++ top.toString
  | built label vertices =>
    "DEBUG built automaton for label " ++ toString label ++ ": " ++ toString vertices ++ " vertices"
  | rejected error => "DEBUG failed to build automaton: " ++ error.message

instance : ToString Message := ⟨Message.toString⟩

end Message

namespace Assembly

/-- The topmost fragment after each of the nodes, up to the first one that fails. -/
def visits (settings : BuilderSettings) (label : Nat) (t : Tree) :
    Assembly → List NodeId → List Message
  | _, [] => []
  | a, id :: rest =>
    match a.visit settings label t id with
    | .error _ => []
    | .ok a =>
      match a.stack with
      | [] => visits settings label t a rest
      | top :: _ => .visited id top :: visits settings label t a rest

end Assembly

namespace Builder

def progress (settings : BuilderSettings) (label : Nat) (t : Tree) : List Message :=
  match t.unroll with
  | .error _ => []
  | .ok u =>
    .unrolled t.size u.size
      :: Assembly.visits settings label u .start (u.traversal.events.filterMap Event.left?)

def messages (b : Builder) (t : Tree) : List Message :=
  progress b.settings b.label t ++
    match assemble b.settings b.label t with
    | .ok assembly => [.built b.label assembly.graph.size]
    | .error (.rejected e) => [.rejected e]
    | .error (.fault _) => []

end Builder
end ByteAutomata
