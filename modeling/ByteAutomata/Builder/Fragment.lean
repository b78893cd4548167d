import ByteAutomata.Graph.Basic
import ByteAutomata.Tree.Basic

/-! # Fragments

A fragment tells how the automaton of a subexpression joins its surroundings. Whatever comes
before it gets edges to the entries, in order; whatever comes after it is inserted among the
successors of each exit, at the position kept there. -/
namespace ByteAutomata

structure Fragment where
  entries : List Vertex := []
  exits : List (Vertex × Nat) := []
  /-- For a subexpression that matches the empty string, the place among the entries where the
  entries of what follows belong. -/
  skip : Option Nat := none
  node : Option NodeId := none
deriving DecidableEq

namespace Fragment

def path (first last : Vertex) (node : Option NodeId) : Fragment :=
  { entries := [first], exits := [(last, 0)], node }

def single (v : Vertex) (node : Option NodeId) : Fragment := path v v node

def isSkippable (f : Fragment) : Bool := f.skip.isSome

def exitText : Vertex × Nat → String
  | (v, pos) => "(" ++ toString v ++ ", " ++ toString pos ++ ")"

protected def toString (f : Fragment) : String :=
  "in [" ++ ", ".intercalate (f.entries.map toString) ++ "], out ["
    ++ ", ".intercalate (f.exits.map exitText) ++ "]"
    ++ match f.skip with
      | some skip => ", skip " ++ toString skip
      | none => ""

instance : ToString Fragment := ⟨Fragment.toString⟩

end Fragment
end ByteAutomata
