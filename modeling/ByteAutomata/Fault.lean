/-! # Faults

A fault is a breach of an operation's calling conditions, such as an index that names nothing. It
says that the caller is wrong, while an error of the domain says that the input is rejected. -/
namespace ByteAutomata

inductive Fault where
  | missingNode (id : Nat)
  | cyclicTree
  | missingVertex (vertex : Nat)
  /-- A position lies beyond the end of an adjacency list or an entry list. -/
  | badPosition (pos : Nat)
  | stackUnderflow
  /-- More vertices are asked for than any graph has room for. -/
  | capacityOverflow (vertices : Nat)
deriving DecidableEq

end ByteAutomata
