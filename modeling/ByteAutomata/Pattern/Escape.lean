import ByteAutomata.Pattern.Ast
import ByteAutomata.Pattern.SyntaxError
import ByteAutomata.Text.Hex

/-! # Escapes

What may follow a backslash: characters given by their code, classes, assertions, and characters
that lose their special meaning. The readers of this file start behind the backslash or behind the
character named in their comments. -/
namespace ByteAutomata.Pattern

open Reader hiding fail
open PatternReader (fail)

inductive Primitive where
  | literal (lit : Literal)
  | dot (span : Span)
  | assertion (span : Span) (kind : AssertionKind)
  | property (span : Span) (name : String) (negated : Bool)
  | shorthand (span : Span) (kind : ShorthandKind) (negated : Bool)

namespace Primitive

def span : Primitive → Span
  | literal lit => lit.span
  | dot span => span
  | assertion span _ => span
  | property span .. => span
  | shorthand span .. => span

def toAst : Primitive → Ast
  | literal lit => .literal lit
  | dot span => .dot span
  | assertion span kind => .assertion span kind
  | property span name negated => .propertyClass span name negated
  | shorthand span kind negated => .shorthandClass span kind negated

end Primitive

def isMeta (c : Char) : Bool := "\\.+*?()|[]\x7b\x7d^$#&-~".toList.contains c

/-- Whether a backslash is allowed before the character though it has no special meaning. -/
def isEscapable (c : Char) : Bool :=
  isMeta c || (decide (c.toNat < 0x80) && !c.isAlphanum && c != '<' && c != '>')

def hexDigit : PatternReader Char := do
  match ← head? with
  | some c => if Hex.isDigit c then return c else fail .escapeHexInvalidDigit (← headSpan)
  | none => fail .escapeHexInvalidDigit (← headSpan)

/-- Goes on to as many digits again, behind the latest one. -/
def moreHexDigits : Nat → List Char → PatternReader (List Char)
  | 0, seen => return seen.reverse
  | n + 1, seen => do
    if !(← advanceSkip) then fail .escapeUnexpectedEnd (← here)
    moreHexDigits n ((← hexDigit) :: seen)

def hexFixed (start : Position) (count : Nat) (isByte : Bool) : PatternReader Literal := do
  let digitsStart ← position
  let digits ← moreHexDigits (count - 1) [← hexDigit]
  let _ ← advanceSkip
  match Hex.char? digits with
  | some char => return { span := ← spanFrom start, char, isByte }
  | none => fail .escapeHexInvalid (← spanFrom digitsStart)

def hexStep (seen : List Char) (x : Char) (span : Span) :
    Except SyntaxError (Option (List Char)) :=
  if x = '\x7d' then .ok none
  else if Hex.isDigit x then .ok (some (x :: seen))
  else .error ⟨.escapeHexInvalidDigit,span⟩

def hexBraced (start : Position) : PatternReader Literal := do
  let brace ← position
  let digitsStart := (← headSpan).finish
  let _ ← advanceSkip
  let seen ← scan true hexStep []
  if ← atEnd then fail .escapeUnexpectedEnd (← spanFrom brace)
  let digitsSpan ← spanFrom digitsStart
  let _ ← advanceSkip
  if seen.isEmpty then fail .escapeHexEmpty (← spanFrom brace)
  match Hex.char? seen.reverse with
  | some char => return { span := ← spanFrom start, char }
  | none => fail .escapeHexInvalid digitsSpan

def hexLiteral (start : Position) (letter : Char) : PatternReader Literal := do
  if !(← advanceSkip) then fail .escapeUnexpectedEnd (← here)
  if ← isAt '\x7b' then hexBraced start
  else if letter = 'x' then hexFixed start 2 true
  else if letter = 'u' then hexFixed start 4 false
  else hexFixed start 8 false

/-- The text that names a property, of one letter or between braces; the letter `p` or `P` comes
next. -/
def propertyName : PatternReader String := do
  if !(← advanceSkip) then fail .escapeUnexpectedEnd (← here)
  if ← isAt '\x7b' then
    let _ ← advanceSkip
    let name ← takeWhile true (· != '\x7d')
    if ← atEnd then fail .escapeUnexpectedEnd (← here)
    advance
    return String.ofList name
  else if ← isAt '\\' then fail .unicodeClassInvalid (← headSpan)
  else
    let letter ← head?
    let _ ← advanceSkip
    return String.ofList letter.toList

def shorthand? : Char → Option (ShorthandKind × Bool)
  | 'd' => some (.digit, false)
  | 's' => some (.space, false)
  | 'w' => some (.word, false)
  | 'D' => some (.digit, true)
  | 'S' => some (.space, true)
  | 'W' => some (.word, true)
  | _ => none

def controlChar? : Char → Option Char
  | 'a' => some '\x07'
  | 'f' => some '\x0C'
  | 't' => some '\t'
  | 'n' => some '\n'
  | 'r' => some '\r'
  | 'v' => some '\x0B'
  | _ => none

def assertionKind? : Char → Option AssertionKind
  | 'A' => some .startText
  | 'z' => some .endText
  | 'b' => some .wordBoundary
  | 'B' => some .notWordBoundary
  | '<' => some .wordStart
  | '>' => some .wordEnd
  | _ => none

def isBoundaryChar (c : Char) : Bool := c.isAlpha || c == '-'

def boundaryKind? (name : String) : Option AssertionKind :=
  if name = "start" then some .wordStart
  else if name = "end" then some .wordEnd
  else if name = "start-half" then some .wordStartHalf
  else if name = "end-half" then some .wordEndHalf
  else none

/-- The name in braces that may follow `\b`. Braces whose contents do not look like a name belong
to a repetition. -/
def boundaryName (start : Position) : PatternReader (Option AssertionKind) := do
  let brace ← position
  if !(← advanceSkip) then fail .specialBoundaryOrRepetitionUnexpectedEnd (← spanFrom start)
  let nameStart ← position
  if !((← head?).any isBoundaryChar) then return none
  let name ← takeWhile true isBoundaryChar
  if !(← isAt '\x7d') then fail .specialBoundaryUnclosed (← spanFrom brace)
  let nameSpan ← spanFrom nameStart
  advance
  match boundaryKind? (String.ofList name) with
  | some kind => return some kind
  | none => fail .specialBoundaryUnrecognized nameSpan

def assertion (start : Position) (kind : AssertionKind) : PatternReader Primitive := do
  let special ←
    if kind = .wordBoundary ∧ (← isAt '\x7b') = true then attempt (boundaryName start)
    else pure none
  return .assertion (← spanFrom start) (special.getD kind)

/-- What a backslash at `start` and the character `c`, which comes next, stand for. -/
def escapeOf (start : Position) (c : Char) : PatternReader Primitive := do
  if c.isDigit then fail .unsupportedBackreference ⟨start,(← headSpan).finish⟩
  else if c = 'x' ∨ c = 'u' ∨ c = 'U' then return .literal (← hexLiteral start c)
  else if c = 'p' ∨ c = 'P' then
    let name ← propertyName
    return .property (← spanFrom start) name (c = 'P')
  else
    advance
    let span ← spanFrom start
    match shorthand? c, controlChar? c, assertionKind? c with
    | some (kind, negated), _, _ => return .shorthand span kind negated
    | none, some char, _ => return .literal { span, char }
    | none, none, some kind => assertion start kind
    | none, none, none =>
      if isEscapable c then return .literal { span, char := c }
      else fail .escapeUnrecognized span

def escape (start : Position) : PatternReader Primitive := do
  match ← head? with
  | some c => escapeOf start c
  | none => fail .escapeUnexpectedEnd (← spanFrom start)

end ByteAutomata.Pattern
