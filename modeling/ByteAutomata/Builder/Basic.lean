import ByteAutomata.Builder.Assembly
import ByteAutomata.Tree.Unroll

/-! # Builders

A builder keeps settings, a label, and what the latest build has left: its assembly, and the bytes
of its latest literal in a buffer. A build starts afresh and goes on in place. If it fails, what it
has made so far is thrown away, and the start vertex alone is left. -/
namespace ByteAutomata

structure Builder where
  settings : BuilderSettings := {}
  label : Nat := 0
  /-- The bytes of a literal are written here before vertices are made of them. -/
  buffer : settings.encoding.Buffer := .replicate _ 0
  assembly : Assembly := .start
deriving DecidableEq

namespace Builder

def ofSettings (settings : BuilderSettings) : Builder := { settings }

def graph (b : Builder) : Graph := b.assembly.graph

def isGood (b : Builder) : Bool := b.assembly.isGood

def setCaseSensitive (b : Builder) (yes : Bool) : Builder :=
  { b with settings := { b.settings with caseSensitive := yes } }

def setEncoding (b : Builder) (encoding : Encoding) : Builder :=
  { b with settings := { b.settings with encoding }, buffer := .replicate _ 0 }

def withSizeHint (b : Builder) (sizeHint : Nat) : Builder :=
  { b with settings := { b.settings with sizeHint } }

/-- Expects so many vertices, beside those that the graph has, and makes sure of room for them. A
graph that is cleared keeps its room, so that later builds need not look for it again. -/
def setSizeHint (b : Builder) (sizeHint : Nat) : Except Fault Builder := do
  b.graph.reserve sizeHint
  return b.withSizeHint sizeHint

/-- A new builder with these settings, the number of expected vertices included. -/
def create (settings : BuilderSettings) : Except Fault Builder :=
  (ofSettings { settings with sizeHint := 0 }).setSizeHint settings.sizeHint

def setLabel (b : Builder) (label : Nat) : Builder := { b with label }

def reset (b : Builder) : Builder := { b with assembly := .start }

def spelling (b : Builder) (codePoint : Nat) : List UInt8 × Builder :=
  let (length, buffer) := b.settings.encoding.write codePoint b.buffer
  (buffer.toList.take length, { b with buffer })

/-- Goes on with the outcome of a step, or with the assembly as it was if the step has failed. -/
def settle (b : Builder) : Except BuildFailure Assembly → Except BuildFailure Unit × Builder
  | .ok assembly => (.ok (), { b with assembly })
  | .error e => (.error e, b)

def visit (b : Builder) (t : Tree) (id : NodeId) : Except BuildFailure Unit × Builder :=
  match t.node id with
  | .error fault => (.error (.fault fault), b)
  | .ok node =>
    match node.kind with
    | .literal codePoint =>
      let (bytes, b) := b.spelling codePoint
      b.settle (b.assembly.spell b.settings id codePoint bytes)
    | kind => b.settle (b.assembly.apply b.settings b.label id kind)

def visitAll (b : Builder) (t : Tree) : List NodeId → Except BuildFailure Unit × Builder
  | [] => (.ok (), b)
  | id :: rest =>
    match b.visit t id with
    | (.ok (), b) => b.visitAll t rest
    | (.error e, b) => (.error e, b)

def traverse (b : Builder) (t : Tree) : Except BuildFailure Unit × Builder :=
  let ⟨events,fault⟩ := t.traversal
  match b.visitAll t (events.filterMap Event.left?), fault with
  | (.error e, b), _ => (.error e, b)
  | (.ok (), b), some fault => (.error (.fault fault), b)
  | (.ok (), b), none =>
    if b.isGood then (.ok (), b)
    else (.error (.rejected (.malformedStack b.assembly.stack.length)), b)

def attempt (b : Builder) (t : Tree) : Except BuildFailure Unit × Builder :=
  match t.unroll with
  | .ok u => b.traverse u
  | .error e => (.error e, b)

/-- The automaton of any tree, in the place of the latest one. -/
def build (b : Builder) (t : Tree) : Except BuildFailure Unit × Builder :=
  match b.reset.attempt t with
  | (.ok (), b) => (.ok (), b)
  | (.error e, b) => (.error e, b.reset)

def assemble (settings : BuilderSettings) (label : Nat) (t : Tree) :
    Except BuildFailure Assembly := do
  Assembly.ofTree settings label (← t.unroll)

end Builder
end ByteAutomata
