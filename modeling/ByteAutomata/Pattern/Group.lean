import ByteAutomata.Pattern.Ast
import ByteAutomata.Pattern.SyntaxError
import ByteAutomata.Unicode.Alphabetic
import ByteAutomata.Unicode.Numeric

/-! # The heads of groups

What stands between an opening parenthesis and the contents of its group: nothing, a name, or
flags. Flags without contents hold for the rest of the group around them. -/
namespace ByteAutomata.Pattern

open Reader hiding fail
open PatternReader (fail)
open Unicode (isAlphabetic isNumeric)

def flag? : Char → Option Flag
  | 'i' => some .caseInsensitive
  | 'm' => some .multiLine
  | 's' => some .dotMatchesNewLine
  | 'U' => some .swapGreed
  | 'u' => some .unicode
  | 'R' => some .crlf
  | 'x' => some .ignoreWhitespace
  | _ => none

structure OpenFlags where
  flags : FlagList := []
  negated : Bool := false
  /-- The minus sign that no flag has followed yet. -/
  dangling : Option Span := none

def flagStep (s : OpenFlags) (x : Char) (span : Span) : Except SyntaxError (Option OpenFlags) :=
  if x = ':' ∨ x = ')' then .ok none
  else if x = '-' then
    if s.negated then .error ⟨.flagRepeatedNegation,span⟩
    else .ok (some { s with negated := true, dangling := some span })
  else
    match flag? x with
    | none => .error ⟨.flagUnrecognized,span⟩
    | some flag =>
      if (s.flags.value? flag).isSome then .error ⟨.flagDuplicate,span⟩
      else .ok (some { s with flags := (flag, !s.negated) :: s.flags, dangling := none })

/-- The flags up to a colon or a parenthesis, which is not taken. -/
def flagList : PatternReader FlagList := do
  let s ← scan false flagStep {}
  if ← atEnd then fail .flagUnexpectedEnd (← here)
  match s.dangling with
  | some span => fail .flagDanglingNegation span
  | none => return s.flags.reverse

def isNameChar (isFirst : Bool) (c : Char) : Bool :=
  c == '_' || isAlphabetic c ||
    (!isFirst && (c == '.' || c == '[' || c == ']' || isNumeric c))

def nameStep (seen : List Char) (x : Char) (span : Span) :
    Except SyntaxError (Option (List Char)) :=
  if x = '>' then .ok none
  else if isNameChar seen.isEmpty x then .ok (some (x :: seen))
  else .error ⟨.groupNameInvalid,span⟩

/-- A name up to its closing bracket, other than the ones in use. -/
def groupName (inUse : List String) : PatternReader String := do
  let start ← position
  let seen ← scan false nameStep []
  if ← atEnd then fail .groupNameUnexpectedEnd (← here)
  let span ← spanFrom start
  advance
  if seen.isEmpty then fail .groupNameEmpty ⟨start,start⟩
  let name := String.ofList seen.reverse
  if inUse.contains name then fail .groupNameDuplicate span
  return name

inductive GroupHead where
  | flags (flags : FlagList)
  | capture
  | named (name : String)
  | noCapture (flags : FlagList)

def acceptAny : List String → PatternReader Bool
  | [] => return false
  | text :: rest => do
    if ← accept text then return true else acceptAny rest

def groupHead (start : Position) (inUse : List String) : PatternReader GroupHead := do
  let whole ← spanFrom start
  skipBlanks
  if ← acceptAny ["?=", "?!", "?<=", "?<!"] then fail .unsupportedLookAround (← spanFrom start)
  let inner ← here
  if ← acceptAny ["?P<", "?<"] then return .named (← groupName inUse)
  else if ← accept "?" then
    if ← atEnd then fail .groupUnclosed whole
    let flags ← flagList
    let isWhole ← isAt ')'
    advance
    if !isWhole then return .noCapture flags
    if flags.isEmpty then fail .repetitionMissing inner
    return .flags flags
  else return .capture

end ByteAutomata.Pattern
