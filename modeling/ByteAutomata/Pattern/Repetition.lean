import ByteAutomata.Pattern.Ast
import ByteAutomata.Pattern.SyntaxError

/-! # Repetition operators

An operator applies to the item in front of it, and a question mark behind it makes it reluctant. -/
namespace ByteAutomata.Pattern

open Reader hiding fail
open PatternReader (fail)
open Unicode (isBlank)

def Ast.isOperand : Ast → Bool
  | empty _ | flags _ _ => false
  | _ => true

/-- A number, with any blanks around it. It is a result rather than a failure that none is there,
since some places can do without. -/
def decimal : PatternReader (Except SyntaxError Nat) := do
  let _ ← takeWhile false isBlank
  let start ← position
  let digits ← takeWhile true Char.isDigit
  let span ← spanFrom start
  let _ ← takeWhile true isBlank
  let n := digits.foldl (fun n d => n * 10 + (d.toNat - '0'.toNat)) 0
  if digits.isEmpty then return .error ⟨.repetitionCountDecimalEmpty,span⟩
  else if n < 0x100000000 then return .ok n
  else return .error ⟨.decimalInvalid,span⟩

/-- A missing lower bound counts as zero. -/
def lowerBound : Except SyntaxError Nat → Except SyntaxError Nat
  | .error e => if e.cause = .repetitionCountDecimalEmpty then .ok 0 else .error e
  | .ok n => .ok n

/-- The counts between braces, behind the opening one at `start`. -/
def counts (start : Position) : PatternReader Count := do
  skipBlanks
  if ← atEnd then fail .repetitionCountUnclosed (← spanFrom start)
  let first ← decimal
  if ← atEnd then fail .repetitionCountUnclosed (← spanFrom start)
  if ← isAt ',' then
    if !(← advanceSkip) then fail .repetitionCountUnclosed (← spanFrom start)
    if ← isAt '\x7d' then return ⟨← ofExcept first,none⟩
    let min ← ofExcept (lowerBound first)
    return ⟨min,some (← ofExcept (← decimal))⟩
  let n ← ofExcept first
  return ⟨n,some n⟩

def countedRepetition (start : Position) (operand : Ast) : PatternReader Ast := do
  let count ← counts start
  if !(← isAt '\x7d') then fail .repetitionCountUnclosed (← spanFrom start)
  let more ← advanceSkip
  let isLazy := more && (← isAt '?')
  if isLazy then advance
  if count.max.any (· < count.min) then fail .repetitionCountInvalid (← spanFrom start)
  return .repetition (← spanFrom operand.span.start) count (!isLazy) operand

def signRepetition (count : Count) (operand : Ast) : PatternReader Ast := do
  let isLazy ← isAt '?'
  if isLazy then advance
  return .repetition (← spanFrom operand.span.start) count (!isLazy) operand

end ByteAutomata.Pattern
