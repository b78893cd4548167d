import ByteAutomata.Pattern.Ast
import ByteAutomata.Pattern.SyntaxError

/-! # The nesting limit

Operators, groups and classes may be nested up to a fixed depth. The first one beyond it, in the
order of the pattern, is reported. -/
namespace ByteAutomata.Pattern

def deeper (depth : Nat) (span : Span) : Except SyntaxError Nat :=
  if depth < nestLimit then .ok (depth + 1) else .error ⟨.nestLimitExceeded,span⟩

mutual

def ClassItem.checkNesting (depth : Nat) : ClassItem → Except SyntaxError Unit
  | .bracketed span _ set => do set.checkNesting (← deeper depth span)
  | .union span items => do checkItems (← deeper depth span) items
  | .empty _ | .literal _ | .range .. | .ascii .. | .property .. | .shorthand .. => .ok ()

def ClassSet.checkNesting (depth : Nat) : ClassSet → Except SyntaxError Unit
  | .item i => i.checkNesting depth
  | .operation span _ left right => do
    let depth ← deeper depth span
    left.checkNesting depth
    right.checkNesting depth

def checkItems (depth : Nat) : List ClassItem → Except SyntaxError Unit
  | [] => .ok ()
  | item :: rest => do
    item.checkNesting depth
    checkItems depth rest

end

mutual

def Ast.checkNesting (depth : Nat) : Ast → Except SyntaxError Unit
  | .bracketed span _ set => do set.checkNesting (← deeper depth span)
  | .repetition span _ _ sub => do sub.checkNesting (← deeper depth span)
  | .group span _ sub => do sub.checkNesting (← deeper depth span)
  | .alternation span items => do checkAll (← deeper depth span) items
  | .concat span items => do checkAll (← deeper depth span) items
  | .empty _ | .flags .. | .literal _ | .dot _ | .assertion .. | .propertyClass ..
  | .shorthandClass .. => .ok ()

def checkAll (depth : Nat) : List Ast → Except SyntaxError Unit
  | [] => .ok ()
  | ast :: rest => do
    ast.checkNesting depth
    checkAll depth rest

end

end ByteAutomata.Pattern
