import ByteAutomata.Pattern.Class
import ByteAutomata.Pattern.Group
import ByteAutomata.Pattern.Nesting
import ByteAutomata.Pattern.Repetition

/-! # Reading a pattern

A pattern is read from left to right in one loop, with the groups that are open kept on a stack.
Every round of the loop takes one item, operator or parenthesis. -/
namespace ByteAutomata.Pattern

open Reader hiding fail
open PatternReader (fail)

structure Branch where
  start : Position
  items : List Ast := []

def Branch.toAst (b : Branch) (finish : Position) : Ast :=
  match b.items with
  | [] => .empty ⟨b.start,finish⟩
  | [item] => item
  | items => .concat ⟨b.start,finish⟩ items.reverse

structure Contents where
  start : Position
  /-- The complete alternatives, the latest first. -/
  done : List Ast := []
  branch : Branch := { start }

namespace Contents

def push (c : Contents) (item : Ast) : Contents :=
  { c with branch := { c.branch with items := item :: c.branch.items } }

/-- Ends the current alternative before the bar and starts another one behind it. -/
def split (c : Contents) (bar behind : Position) : Contents :=
  { c with done := c.branch.toAst bar :: c.done, branch := { start := behind } }

def toAst (c : Contents) (finish : Position) : Ast :=
  match c.done with
  | [] => c.branch.toAst finish
  | done => .alternation ⟨c.start,finish⟩ (c.branch.toAst finish :: done).reverse

/-- The latest item and the contents without it, if an operator may apply to it. -/
def takeOperand? (c : Contents) : Option (Ast × Contents) :=
  match c.branch.items with
  | operand :: items =>
    if operand.isOperand then some (operand, { c with branch := { c.branch with items } })
    else none
  | [] => none

end Contents

structure OpenGroup where
  span : Span
  kind : GroupKind
  /-- Whether white space is ignored around the group. -/
  ignoresBlanks : Bool
  around : Contents

structure State where
  contents : Contents
  groups : List OpenGroup := []
  captures : Nat := 0
  names : List String := []

namespace State

def push (s : State) (item : Ast) : State := { s with contents := s.contents.push item }

def enter (s : State) (span : Span) (kind : GroupKind) : PatternReader State := do
  let group := {
    span, kind, ignoresBlanks := (← cursor).ignoresBlanks, around := s.contents : OpenGroup }
  return { s with contents := { start := ← position }, groups := group :: s.groups }

def openGroup (s : State) (start : Position) : PatternReader State := do
  let span ← spanFrom start
  let setBlanks (flags : FlagList) : PatternReader Unit :=
    match flags.value? .ignoreWhitespace with
    | some yes => setIgnoresBlanks yes
    | none => pure ()
  match ← groupHead start s.names with
  | .flags flags =>
    setBlanks flags
    return s.push (.flags (← spanFrom start) flags)
  | .noCapture flags =>
    let s ← s.enter span (.flags flags)
    setBlanks flags
    return s
  | .capture =>
    let index := s.captures + 1
    return { ← s.enter span (.capture index none) with captures := index }
  | .named name =>
    let index := s.captures + 1
    return { ← s.enter span (.capture index (some name)) with
      captures := index, names := name :: s.names }

def closeGroup (s : State) (start : Position) : PatternReader State := do
  match s.groups with
  | [] => fail .groupUnopened (← spanFrom start)
  | group :: groups =>
    setIgnoresBlanks group.ignoresBlanks
    let ast := Ast.group (← spanFrom group.span.start) group.kind (s.contents.toAst start)
    return { s with contents := group.around.push ast, groups }

def repeated (s : State) (start : Position) (f : Ast → PatternReader Ast) :
    PatternReader State := do
  match s.contents.takeOperand? with
  | some (operand, contents) => return { s with contents := contents.push (← f operand) }
  | none => fail .repetitionMissing ⟨start,start⟩

def step (s : State) (x : Char) (start : Position) : PatternReader State := do
  match x with
  | '(' => s.openGroup start
  | ')' => s.closeGroup start
  | '|' => return { s with contents := s.contents.split start (← position) }
  | '[' => return s.push (← bracketed start)
  | '?' => s.repeated start (signRepetition ⟨0,some 1⟩)
  | '*' => s.repeated start (signRepetition ⟨0,none⟩)
  | '+' => s.repeated start (signRepetition ⟨1,none⟩)
  | '\x7b' => s.repeated start (countedRepetition start)
  | '\\' => return s.push (← escape start).toAst
  | '.' => return s.push (.dot (← spanFrom start))
  | '^' => return s.push (.assertion (← spanFrom start) .startLine)
  | '$' => return s.push (.assertion (← spanFrom start) .endLine)
  | char => return s.push (.literal { span := ← spanFrom start, char })

def finish (s : State) : PatternReader Ast := do
  match s.groups with
  | group :: _ => fail .groupUnclosed group.span
  | [] => return s.contents.toAst (← position)

end State

def ast : PatternReader Ast := do
  let s : State := { contents := { start := ← position } }
  let onChar (s : State) (x : Char) (start : Position) : PatternReader (State ⊕ Ast) := do
    let s ← s.step x start
    skipBlanks
    return .inl s
  skipBlanks
  loop State.finish onChar s

/-- The structure of a pattern. -/
def parse (pattern : List Char) : Except SyntaxError Ast := do
  let ast ← ast.run pattern
  ast.checkNesting 0
  return ast

/-- The pattern that stands for the given text. -/
def quote (text : List Char) : List Char :=
  text.flatMap fun c => if isMeta c then ['\\', c] else [c]

end ByteAutomata.Pattern
