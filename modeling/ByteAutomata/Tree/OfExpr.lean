import ByteAutomata.Expr.Basic
import ByteAutomata.PatternError
import ByteAutomata.Tree.Unroll

/-! # The tree of an expression

Operators with many operands become chains that lean to the left. What matches only the empty
string has no node: it vanishes from a concatenation, and makes an alternation optional. -/
namespace ByteAutomata.Tree

/-- A chain of binary nodes over the operands, of which there may be none. -/
def chain (t : Tree) (operator : NodeId → NodeId → Node) : List NodeId → Option NodeId × Tree
  | [] => (none, t)
  | first :: rest =>
    let (node, t) := rest.foldl (fun (left, t) right => t.add (operator left right)) (first, t)
    (some node, t)

def addConcatenation (t : Tree) (items : List (Option NodeId)) : Option NodeId × Tree :=
  t.chain .concatenation (items.filterMap id)

/-- If some alternative is empty, the others together are optional, and skipping them is preferred
if the first one is empty. -/
def addAlternation (t : Tree) (items : List (Option NodeId)) : Option NodeId × Tree :=
  match t.chain .alternation (items.filterMap id) with
  | (none, t) => (none, t)
  | (some node, t) =>
    if items.contains none then
      let (node, t) := t.add (.repetition node 0 (some 1) (items.head? != some none))
      (some node, t)
    else (some node, t)

def addLeaves (t : Tree) (kinds : List NodeKind) : List (Option NodeId) × Tree :=
  ((List.range' t.size kinds.length).map some, kinds.foldl (fun t kind => t.push { kind }) t)

def pieceKind : Utf8.Piece → NodeKind
  | .scalar n => .literal n
  | .stray b => .charClass (.ofRange b b)

def addLiteral (t : Tree) (bytes : List UInt8) : Option NodeId × Tree :=
  let (ids, t) := t.addLeaves ((Utf8.pieces bytes).map pieceKind)
  t.addConcatenation ids

def addByteClass (t : Tree) (set : ByteClass) : Except PatternError (Option NodeId × Tree) :=
  if (Expr.byteClass set).isAnyByte then
    let (id, t) := t.add { kind := .dot }
    .ok (some id, t)
  else
    let bytes := ByteSet.ofRanges (set.ranges.map fun r => (UInt8.ofNat r.1, UInt8.ofNat r.2))
    if bytes.isEmpty then .error .emptyClass
    else
      let (id, t) := t.add { kind := .charClass bytes }
      .ok (some id, t)

def spread (ranges : List (Nat × Nat)) : Nat := ranges.foldl (fun n r => n + (r.2 - r.1 + 1)) 0

def scalars (set : CharClass) : List Nat :=
  set.ranges.flatMap fun r => (List.range' r.1 (r.2 - r.1 + 1)).filter Utf8.IsScalar

def addCharClass (t : Tree) (set : CharClass) : Except PatternError (Option NodeId × Tree) :=
  match set.toByteClass? with
  | some bytes => t.addByteClass bytes
  | none =>
    if maxClassSize < spread set.ranges then .error .classTooLarge
    else
      let (ids, t) := t.addLeaves ((scalars set).map .literal)
      .ok (t.addAlternation ids)

mutual

/-- Adds the nodes of an expression, whose root is missing if only the empty string is matched. -/
def addExpr (t : Tree) : Expr → Except PatternError (Option NodeId × Tree)
  | .empty => .ok (none, t)
  | .literal bytes => .ok (t.addLiteral bytes)
  | .byteClass set => t.addByteClass set
  | .charClass set => t.addCharClass set
  | .assertion _ => .error .unsupportedAssertion
  | .repetition min max greedy sub => do
    match ← t.addExpr sub with
    | (none, t) => return (none, t)
    | (some node, t) =>
      if min = 0 ∧ max = some 0 then return (none, t)
      else
        let (id, t) := t.add (.repetition node min max greedy)
        return (some id, t)
  | .capture _ _ sub => t.addExpr sub
  | .concat items => do
    let (ids, t) ← t.addExprs items
    return t.addConcatenation ids
  | .alternation items => do
    let (ids, t) ← t.addExprs items
    return t.addAlternation ids

def addExprs (t : Tree) : List Expr → Except PatternError (List (Option NodeId) × Tree)
  | [] => .ok ([], t)
  | e :: rest => do
    let (id, t) ← t.addExpr e
    let (ids, t) ← t.addExprs rest
    return (id :: ids, t)

end

def ofExpr (e : Expr) : Except PatternError Tree := do
  match ← empty.addExpr e with
  | (none, _) => throw .emptyPattern
  | (some node, t) =>
    let (root, t) := t.add (.regexp node)
    return t.withRoot root

end ByteAutomata.Tree
